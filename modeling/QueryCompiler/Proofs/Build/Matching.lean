import QueryCompiler.Proofs.Build.Run

/-!
# Comparing runs

Two steps match if their runs end alike: both with results that are related, or both with the same
error. How closely they are compared is said by a `Comparison`; the lemmas below are shown for all
comparisons at once, and later developments choose the one they need.
-/

namespace QueryCompiler

/-- How two steps are compared. -/
structure Comparison where
  /-- They draw the same numbers and report the same events, from the same progress on. -/
  same : Prop
  /-- They may stop together because subqueries nest too deep. -/
  deep : Prop
  /-- The first may stop for such a reason, whatever the second does. -/
  cut : Stop → Prop
  /-- They look up fields that the caller names. -/
  minded : Prop

variable {α β γ δ ε : Type} {m : Comparison} {R : α → β → Prop} {S : γ → δ → Prop}

namespace Comparison

/-- The first may stop because a field is not permitted. -/
def Refuses (m : Comparison) : Prop :=
  ∀ model name, m.cut (.rejected (.field model name .notPermitted))

/-- What is alike by the first comparison is alike by the second. -/
structure Implies (m m' : Comparison) : Prop where
  same : m'.same → m.same
  minded : m.minded ↔ m'.minded
  refuses : m.Refuses → m'.Refuses

/-- What depends on the numbers that were drawn is the same if the numbers are. -/
def Same (m : Comparison) (a b : α) : Prop :=
  m.same → a = b

theorem Same.refl (a : α) : m.Same a a :=
  fun _ => rfl

theorem Same.congr {a b : α} (f : α → γ) (h : m.Same a b) : m.Same (f a) (f b) :=
  fun hsame => congrArg f (h hsame)

theorem Same.congr₂ {a b : α} {c d : γ} (f : α → γ → δ) (h : m.Same a b) (h' : m.Same c d) :
    m.Same (f a c) (f b d) :=
  fun hsame => congrArg₂ f (h hsame) (h' hsame)

theorem Same.of_forall₂ {as bs : List α} (h : List.Forall₂ m.Same as bs) : m.Same as bs := by
  intro hsame
  induction h with
  | nil => rfl
  | cons hab _ ih => rw [hab hsame, ih]

/-- The ends of two runs. -/
inductive Meets (m : Comparison) (R : α → β → Prop) : EStateM.Result Stop Progress α →
    EStateM.Result Stop Progress β → Prop where
  | ok {a : α} {b : β} {p q : Progress} : R a b → m.Same p q → Meets m R (.ok a p) (.ok b q)
  | rejected {e : CompileError} {p q : Progress} : m.Same p q →
      Meets m R (.error (.rejected e) p) (.error (.rejected e) q)
  | deep {p q : Progress} : m.deep → Meets m R (.error .tooDeep p) (.error .tooDeep q)
  | cut {stop : Stop} {p : Progress} {y : EStateM.Result Stop Progress β} : m.cut stop →
      Meets m R (.error stop p) y

namespace Meets

variable {p q : Progress} {u : EStateM.Result Stop Progress α} {v : EStateM.Result Stop Progress β}

theorem tooDeep_left (hcut : ∀ stop, m.cut stop → stop = .tooDeep)
    (h : m.Meets R u (.error .tooDeep q)) : ∃ p, u = .error .tooDeep p := by
  cases h with
  | deep _ => exact ⟨_, rfl⟩
  | cut h => exact ⟨_, by rw [hcut _ h]⟩

theorem tooDeep_right (hcut : ¬ m.cut .tooDeep) (h : m.Meets R (.error .tooDeep p) v) :
    ∃ q, v = .error .tooDeep q := by
  cases h with
  | deep _ => exact ⟨_, rfl⟩
  | cut h => exact absurd h hcut

end Meets

/-- The runs draw the same numbers and end with the same error, or with related results. -/
def exact : Comparison where
  same := True
  deep := True
  cut _ := False
  minded := True

/-- The second run has more depth, and the first may want for it. -/
def deeper : Comparison where
  same := True
  deep := False
  cut stop := stop = .tooDeep
  minded := True

/-- The runs are the same, and they do not run out of depth. -/
def ended : Comparison where
  same := True
  deep := False
  cut _ := False
  minded := True

/-- The runs end alike, whatever numbers they draw. -/
def unnumbered : Comparison where
  same := False
  deep := True
  cut _ := False
  minded := True

/-- The second run succeeds if the first one does, whatever numbers they draw. -/
def succeeding : Comparison where
  same := False
  deep := True
  cut _ := True
  minded := True

end Comparison

/-! ## Results -/

/-- Two results are the same error, or they are values that are related. -/
inductive ExceptRel (R : α → β → Prop) : Except ε α → Except ε β → Prop where
  | ok {a : α} {b : β} : R a b → ExceptRel R (.ok a) (.ok b)
  | error (e : ε) : ExceptRel R (.error e) (.error e)

namespace ExceptRel

theorem refl {R : α → α → Prop} (hR : ∀ a, R a a) (x : Except ε α) : ExceptRel R x x := by
  cases x with
  | ok a => exact .ok (hR a)
  | error e => exact .error e

theorem exists_of_eq_ok {x : Except ε α} {y : Except ε β} {a : α} (h : ExceptRel R x y)
    (hx : x = .ok a) : ∃ b, y = .ok b ∧ R a b := by
  subst hx
  cases h with
  | ok hab => exact ⟨_, rfl, hab⟩

end ExceptRel

namespace Comparison

/-- The results of two steps that draw and report nothing. -/
inductive Settles (m : Comparison) (R : α → β → Prop) :
    Except CompileError α → Except CompileError β → Prop where
  | ok {a : α} {b : β} : R a b → Settles m R (.ok a) (.ok b)
  | error (e : CompileError) : Settles m R (.error e) (.error e)
  | cut {e : CompileError} {y : Except CompileError β} : m.cut (.rejected e) →
      Settles m R (.error e) y

namespace Settles

theorem refl {R : α → α → Prop} (hR : ∀ a, R a a) (x : Except CompileError α) : m.Settles R x x := by
  cases x with
  | ok a => exact .ok (hR a)
  | error e => exact .error e

theorem mono {R' : α → β → Prop} {x : Except CompileError α} {y : Except CompileError β}
    (h : m.Settles R x y) (hR : ∀ a b, R a b → R' a b) : m.Settles R' x y := by
  cases h with
  | ok hab => exact .ok (hR _ _ hab)
  | error e => exact .error e
  | cut hcut => exact .cut hcut

theorem exists_of_eq_ok {x : Except CompileError α} {y : Except CompileError β} {a : α}
    (h : m.Settles R x y) (hx : x = .ok a) : ∃ b, y = .ok b ∧ R a b := by
  subst hx
  cases h with
  | ok hab => exact ⟨_, rfl, hab⟩

theorem bind {x : Except CompileError α} {y : Except CompileError β} {f : α → Except CompileError γ}
    {g : β → Except CompileError δ} (h : m.Settles R x y)
    (hf : ∀ a b, x = .ok a → R a b → m.Settles S (f a) (g b)) : m.Settles S (x >>= f) (y >>= g) := by
  cases h with
  | ok hab => exact hf _ _ rfl hab
  | error e => exact .error e
  | cut hcut => exact .cut hcut

theorem mapM {f : γ → Except CompileError α} {g : δ → Except CompileError β} {as : List γ}
    {bs : List δ} (h : List.Forall₂ S as bs) (hf : ∀ a b, S a b → m.Settles R (f a) (g b)) :
    m.Settles (List.Forall₂ R) (as.mapM f) (bs.mapM g) := by
  induction h with
  | nil => exact .ok .nil
  | @cons a b as bs hab _ ih =>
    rw [List.mapM_cons, List.mapM_cons]
    refine (hf a b hab).bind fun c d _ hcd => ?_
    exact ih.bind fun cs ds _ hcds => .ok (.cons hcd hcds)

end Settles
end Comparison

theorem ExceptRel.settles {x : Except CompileError α} {y : Except CompileError β}
    (h : ExceptRel R x y) : m.Settles R x y := by
  cases h with
  | ok hab => exact .ok hab
  | error e => exact .error e

/-! ## Steps -/

namespace Build

/-- From progress that is alike, the runs of the two steps end alike. -/
def Matches (m : Comparison) (R : α → β → Prop) (x : Build α) (y : Build β) : Prop :=
  ∀ ⦃p q : Progress⦄, m.Same p q → m.Meets R (x.run p) (y.run q)

namespace Matches

variable {x : Build α} {y : Build β}

theorem pure {a : α} {b : β} (h : R a b) :
    Matches m R (Pure.pure a : Build α) (Pure.pure b : Build β) :=
  fun _ _ hpq => .ok h hpq

theorem reject (e : CompileError) : Matches m R (Build.reject e : Build α) (Build.reject e) :=
  fun _ _ hpq => .rejected hpq

theorem ofExcept {x : Except CompileError α} {y : Except CompileError β} (h : m.Settles R x y) :
    Matches m R (Build.ofExcept x) (Build.ofExcept y) := by
  cases h with
  | ok hab => exact .pure hab
  | error e => exact .reject e
  | cut hcut => exact fun _ _ _ => .cut hcut

theorem freshNumber : Matches m m.Same Build.freshNumber Build.freshNumber :=
  fun _ _ hpq => .ok (hpq.congr Progress.nextNumber)
    (hpq.congr fun p => { p with nextNumber := p.nextNumber + 1 })

theorem report (e : Event) : Matches m Eq (Build.report e) (Build.report e) :=
  fun _ _ hpq => .ok rfl (hpq.congr fun p => { p with events := p.events ++ [e] })

theorem mono {R' : α → β → Prop} (h : Matches m R x y) (hR : ∀ a b, R a b → R' a b) :
    Matches m R' x y := by
  intro p q hpq
  have hends := h hpq
  generalize x.run p = u at hends
  generalize y.run q = v at hends
  cases hends with
  | ok hab hpq => exact .ok (hR _ _ hab) hpq
  | rejected hpq => exact .rejected hpq
  | deep hdeep => exact .deep hdeep
  | cut hcut => exact .cut hcut

/-- Where the first step has succeeded, the second does from any progress, if numbers are not
compared. -/
theorem exists_run {a : α} {p p' : Progress} (hsame : ¬ m.same) (h : Matches m R x y)
    (hx : x.run p = .ok a p') (q : Progress) : ∃ b q', y.run q = .ok b q' ∧ R a b := by
  have hends := h (p := p) (q := q) fun hm => absurd hm hsame
  rw [hx] at hends
  generalize y.run q = v at hends
  cases hends with
  | ok hab _ => exact ⟨_, _, rfl, hab⟩

/-- The second parts are compared for each result that the first part can have. -/
theorem bind {f : α → Build γ} {g : β → Build δ} (h : Matches m R x y)
    (hf : ∀ a b p p', x.run p = .ok a p' → R a b → Matches m S (f a) (g b)) :
    Matches m S (x >>= f) (y >>= g) := by
  intro p q hpq
  change m.Meets S (EStateM.bind x f p) (EStateM.bind y g q)
  unfold EStateM.bind
  have hends := h hpq
  change m.Meets R (x p) (y q) at hends
  cases hx : x p with
  | ok a p' =>
    cases hy : y q with
    | ok b q' =>
      rw [hx, hy] at hends
      cases hends with
      | ok hab hpq => exact hf a b p p' hx hab hpq
    | error e q' =>
      rw [hx, hy] at hends
      cases hends
  | error e p' =>
    rw [hx] at hends
    cases hy : y q with
    | ok b q' =>
      rw [hy] at hends
      cases hends with
      | cut hcut => exact .cut hcut
    | error e' q' =>
      rw [hy] at hends
      cases hends with
      | rejected hpq => exact .rejected hpq
      | deep hdeep => exact .deep hdeep
      | cut hcut => exact .cut hcut

theorem map {f : α → γ} {g : β → δ} (h : Matches m R x y) (hf : ∀ a b, R a b → S (f a) (g b)) :
    Matches m S (f <$> x) (g <$> y) := by
  rw [← bind_pure_comp, ← bind_pure_comp]
  exact h.bind fun a b _ _ _ hab => .pure (hf a b hab)

theorem mapM {f : γ → Build α} {g : δ → Build β} {as : List γ} {bs : List δ}
    (h : List.Forall₂ S as bs) (hf : ∀ a b, a ∈ as → S a b → Matches m R (f a) (g b)) :
    Matches m (List.Forall₂ R) (as.mapM f) (bs.mapM g) := by
  induction h with
  | nil => exact .pure .nil
  | @cons a b as bs hab _ ih =>
    rw [List.mapM_cons, List.mapM_cons]
    refine (hf a b List.mem_cons_self hab).bind fun c d _ _ _ hcd => ?_
    refine (ih fun a' b' ha' => hf a' b' (List.mem_cons_of_mem _ ha')).bind fun cs ds _ _ _ hcds => ?_
    exact .pure (.cons hcd hcds)

theorem foldlM {f : α → γ → Build α} {g : β → δ → Build β} {as : List γ} {bs : List δ} {a : α}
    {b : β} (h : List.Forall₂ S as bs) (hab : R a b)
    (hf : ∀ a b c d, c ∈ as → R a b → S c d → Matches m R (f a c) (g b d)) :
    Matches m R (as.foldlM f a) (bs.foldlM g b) := by
  induction h generalizing a b with
  | nil => exact .pure hab
  | @cons c d as bs hcd _ ih =>
    rw [List.foldlM_cons, List.foldlM_cons]
    refine (hf a b c d List.mem_cons_self hab hcd).bind fun a' b' _ _ _ hab' => ?_
    exact ih hab' fun a b c d hc => hf a b c d (List.mem_cons_of_mem _ hc)

theorem refl_exact (x : Build α) : Matches .exact Eq x x := by
  intro p q hpq
  obtain rfl := hpq trivial
  match x.run p with
  | .ok a p' => exact .ok rfl (.refl p')
  | .error (.rejected e) p' => exact .rejected (.refl p')
  | .error .tooDeep p' => exact .deep trivial

/-- A step that matches itself does so with the very same results. -/
theorem eq_of_same {x : Build α} {R : α → α → Prop} (hsame : m.same) (h : Matches m R x x) :
    Matches m Eq x x := by
  intro p q hpq
  obtain rfl := hpq hsame
  have hends := h (Comparison.Same.refl p)
  generalize hu : x.run p = u at hends
  cases hends with
  | ok _ _ => exact .ok rfl (.refl _)
  | rejected _ => exact .rejected (.refl _)
  | deep hdeep => exact .deep hdeep
  | cut hcut => exact .cut hcut

end Matches
end Build
end QueryCompiler
