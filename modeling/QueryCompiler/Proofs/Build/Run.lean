import QueryCompiler.Build
import Mathlib.Data.List.Forall2

/-!
# Successful runs

What a step over the items of a list has done, item by item, once it has succeeded.
-/

namespace QueryCompiler

variable {α β : Type}

theorem except_bind_eq_ok {ε : Type} {x : Except ε α} {f : α → Except ε β} {b : β} :
    x >>= f = .ok b ↔ ∃ a, x = .ok a ∧ f a = .ok b := by
  cases x with
  | error e => exact ⟨nofun, fun ⟨_, h, _⟩ => absurd h nofun⟩
  | ok a => exact ⟨fun h => ⟨a, rfl, h⟩, fun ⟨_, ha, h⟩ => by cases ha; exact h⟩

theorem except_mapM_eq_ok {ε : Type} {f : α → Except ε β} {as : List α} {bs : List β} :
    as.mapM f = .ok bs ↔ List.Forall₂ (fun a b => f a = .ok b) as bs := by
  induction as generalizing bs with
  | nil =>
    rw [List.mapM_nil, List.forall₂_nil_left_iff]
    exact ⟨fun h => (Except.ok.inj h).symm, fun h => h ▸ rfl⟩
  | cons a as ih =>
    rw [List.mapM_cons, except_bind_eq_ok]
    constructor
    · rintro ⟨b, hb, h⟩
      obtain ⟨bs', hbs, h⟩ := except_bind_eq_ok.1 h
      obtain rfl := Except.ok.inj h
      exact .cons hb (ih.1 hbs)
    · rintro (_ | ⟨hb, hbs⟩)
      exact ⟨_, hb, except_bind_eq_ok.2 ⟨_, ih.2 hbs, rfl⟩⟩

theorem forall₂_mem_right {R : α → β → Prop} {as : List α} {bs : List β}
    (h : List.Forall₂ R as bs) {b : β} (hb : b ∈ bs) : ∃ a ∈ as, R a b := by
  induction h with
  | nil => exact absurd hb List.not_mem_nil
  | cons hab _ ih =>
    rcases List.mem_cons.1 hb with rfl | hb
    · exact ⟨_, List.mem_cons_self, hab⟩
    · obtain ⟨a, ha, hab⟩ := ih hb
      exact ⟨a, List.mem_cons_of_mem _ ha, hab⟩

theorem forall₂_mem_left {R : α → β → Prop} {as : List α} {bs : List β}
    (h : List.Forall₂ R as bs) {a : α} (ha : a ∈ as) : ∃ b ∈ bs, R a b :=
  forall₂_mem_right (R := fun b a => R a b) h.flip ha

namespace Build

variable {p p' : Progress}

theorem run_map_eq_ok {f : α → β} {x : Build α} {b : β} :
    (f <$> x).run p = .ok b p' ↔ ∃ a, x.run p = .ok a p' ∧ f a = b := by
  rw [← bind_pure_comp, run_bind_eq_ok]
  constructor
  · rintro ⟨a, q, ha, hb⟩
    obtain ⟨rfl, rfl⟩ := run_pure_eq_ok.1 hb
    exact ⟨a, ha, rfl⟩
  · rintro ⟨a, ha, rfl⟩
    exact ⟨a, p', ha, run_pure_eq_ok.2 ⟨rfl, rfl⟩⟩

/-- What holds of every step over a list's items holds of their results. -/
theorem run_mapM {f : α → Build β} {as : List α} {bs : List β}
    (h : (as.mapM f).run p = .ok bs p') :
    List.Forall₂ (fun a b => ∃ q q', (f a).run q = .ok b q') as bs := by
  induction as generalizing bs p with
  | nil =>
    rw [List.mapM_nil] at h
    obtain ⟨rfl, -⟩ := run_pure_eq_ok.1 h
    exact .nil
  | cons a as ih =>
    rw [List.mapM_cons] at h
    obtain ⟨b, q, hb, h⟩ := run_bind_eq_ok.1 h
    obtain ⟨bs', q', hbs, h⟩ := run_bind_eq_ok.1 h
    obtain ⟨rfl, rfl⟩ := run_pure_eq_ok.1 h
    exact .cons ⟨p, q, hb⟩ (ih hbs)

/-- Steps over the items of a list succeed together if each of them does, wherever it starts. -/
theorem exists_run_mapM {f : α → Build β} {as : List α}
    (h : ∀ a ∈ as, ∀ p, ∃ b p', (f a).run p = .ok b p') (p : Progress) :
    ∃ bs p', (as.mapM f).run p = .ok bs p' := by
  induction as generalizing p with
  | nil => exact ⟨[], p, rfl⟩
  | cons a as ih =>
    obtain ⟨b, q, hb⟩ := h a List.mem_cons_self p
    obtain ⟨bs, p', hbs⟩ := ih (fun a' ha' => h a' (List.mem_cons_of_mem _ ha')) q
    refine ⟨b :: bs, p', ?_⟩
    rw [List.mapM_cons]
    exact run_bind_eq_ok.2 ⟨b, q, hb, run_bind_eq_ok.2 ⟨bs, p', hbs, rfl⟩⟩

/-- Behind a step that succeeds, the rest runs from where it led. -/
theorem run_bind_of_ok {x : Build α} {f : α → Build β} {a : α} (h : x.run p = .ok a p') :
    (x >>= f).run p = (f a).run p' := by
  show EStateM.bind x f p = _
  unfold EStateM.bind
  rw [show x p = .ok a p' from h]
  rfl

/-- Behind a step that fails, nothing runs. -/
theorem run_bind_of_error {x : Build α} {f : α → Build β} {stop : Stop}
    (h : x.run p = .error stop p') : (x >>= f).run p = .error stop p' := by
  show EStateM.bind x f p = _
  unfold EStateM.bind
  rw [show x p = .error stop p' from h]

theorem run_map_of_error {f : α → β} {x : Build α} {stop : Stop} (h : x.run p = .error stop p') :
    (f <$> x).run p = .error stop p' := by
  rw [← bind_pure_comp]
  exact run_bind_of_error h

/-- Runs whose first part is the same need only agree from there on. -/
theorem run_bind_congr {x : Build α} {f g : α → Build β}
    (h : ∀ a q, x.run p = .ok a q → (f a).run q = (g a).run q) :
    (x >>= f).run p = (x >>= g).run p := by
  show EStateM.bind x f p = EStateM.bind x g p
  unfold EStateM.bind
  cases hx : x p with
  | ok a q => exact h a q hx
  | error e q => rfl

/-- Items that do nothing to what the steps before them can give may be left out. -/
theorem foldlM_filter {f : β → α → Build β} {keep : α → Bool} {as : List α} {b : β}
    (Good : β → Prop) (hb : Good b) (hgood : ∀ b a b' p p', Good b → (f b a).run p = .ok b' p' → Good b')
    (hidle : ∀ b, Good b → ∀ a ∈ as, keep a = false → f b a = pure b) :
    as.foldlM f b = (as.filter keep).foldlM f b := by
  induction as generalizing b with
  | nil => rfl
  | cons a as ih =>
    have hrest : ∀ b, Good b → as.foldlM f b = (as.filter keep).foldlM f b := fun b hb =>
      ih hb fun b hb a ha => hidle b hb a (List.mem_cons_of_mem _ ha)
    rw [List.foldlM_cons, List.filter_cons]
    split
    case isTrue hkeep =>
      rw [List.foldlM_cons]
      funext p
      exact run_bind_congr fun b' q hrun =>
        congrArg (EStateM.run · q) (hrest b' (hgood b a b' p q hb hrun))
    case isFalse hkeep =>
      rw [hidle b hb a List.mem_cons_self (Bool.eq_false_iff.2 hkeep), pure_bind]
      exact hrest b hb

section Folds

variable {f : β → α → Build β} {as : List α} {b b' : β} (Good : β → Prop)

/-- What holds before the first item, and is carried by each step over to one item more, holds after
all of them. -/
theorem run_foldlM_induct {P : List α → β → Progress → Prop} (hnil : P [] b p)
    (hstep : ∀ {done : List α} {a : α} {c d : β} {q r : Progress}, a ∈ as → P done c q →
      (f c a).run q = .ok d r → P (done ++ [a]) d r)
    (h : (as.foldlM f b).run p = .ok b' p') : P as b' p' := by
  have hrest : ∀ (rest done : List α) {b : β} {p : Progress}, (∀ a ∈ rest, a ∈ as) → P done b p →
      (rest.foldlM f b).run p = .ok b' p' → P (done ++ rest) b' p' := by
    intro rest
    induction rest with
    | nil =>
      intro done b p _ hdone h
      obtain ⟨rfl, rfl⟩ := run_pure_eq_ok.1 h
      rw [List.append_nil]
      exact hdone
    | cons a rest ih =>
      intro done b p hmem hdone h
      rw [List.foldlM_cons] at h
      obtain ⟨c, q, hrun, h⟩ := run_bind_eq_ok.1 h
      rw [← List.singleton_append, ← List.append_assoc]
      exact ih (done ++ [a]) (fun a' ha' => hmem a' (List.mem_cons_of_mem _ ha'))
        (hstep (hmem a List.mem_cons_self) hdone hrun) h
  exact hrest as [] (fun _ ha => ha) hnil h

/-- What each step over a list keeps is kept by all of them. -/
theorem run_foldlM_good
    (hgood : ∀ b, Good b → ∀ a ∈ as, ∀ b' p p', (f b a).run p = .ok b' p' → Good b')
    (hb : Good b) (h : (as.foldlM f b).run p = .ok b' p') : Good b' :=
  run_foldlM_induct (P := fun _ b _ => Good b) hb
    (fun ha hc hrun => hgood _ hc _ ha _ _ _ hrun) h

/-- If the steps over a list have succeeded, the step for each of its items has, from where the steps
before it led. -/
theorem run_foldlM
    (hgood : ∀ b, Good b → ∀ a ∈ as, ∀ b' p p', (f b a).run p = .ok b' p' → Good b')
    (hb : Good b) (h : (as.foldlM f b).run p = .ok b' p') :
    ∀ a ∈ as, ∃ c q d q', Good c ∧ (f c a).run q = .ok d q' := by
  induction as generalizing b p with
  | nil => exact List.forall_mem_nil _
  | cons a as ih =>
    rw [List.foldlM_cons] at h
    obtain ⟨c, q, hstep, h⟩ := run_bind_eq_ok.1 h
    have hc := hgood b hb a List.mem_cons_self c p q hstep
    have hall := ih (fun b hb a' ha' => hgood b hb a' (List.mem_cons_of_mem _ ha')) hc h
    exact List.forall_mem_cons.2 ⟨⟨b, p, c, q, hb, hstep⟩, hall⟩

/-- The steps over a list succeed if the step for each of its items does, wherever it starts. -/
theorem exists_run_foldlM
    (hgood : ∀ b, Good b → ∀ a ∈ as, ∀ b' p p', (f b a).run p = .ok b' p' → Good b')
    (hb : Good b) (h : ∀ c, Good c → ∀ a ∈ as, ∀ q, ∃ d q', (f c a).run q = .ok d q')
    (p : Progress) : ∃ b' p', (as.foldlM f b).run p = .ok b' p' := by
  induction as generalizing b p with
  | nil => exact ⟨b, p, rfl⟩
  | cons a as ih =>
    obtain ⟨c, q, hstep⟩ := h b hb a List.mem_cons_self p
    have hc := hgood b hb a List.mem_cons_self c p q hstep
    obtain ⟨b', p', hrest⟩ := ih (fun b hb a' ha' => hgood b hb a' (List.mem_cons_of_mem _ ha')) hc
      (fun c hc a' ha' => h c hc a' (List.mem_cons_of_mem _ ha')) q
    exact ⟨b', p', by rw [List.foldlM_cons]; exact run_bind_eq_ok.2 ⟨c, q, hstep, hrest⟩⟩

end Folds

end Build
end QueryCompiler
