import QueryCompiler.Proofs.Compile.Openings
import QueryCompiler.Proofs.Compile.Outcome
import Mathlib.Data.List.FinRange
import Mathlib.Data.List.Nodup
import Mathlib.Data.List.Perm.Subperm

/-!
# How deep subqueries nest

A subquery is held to the rules on its tables, which may open further subqueries. With more depth, a
compilation that has come to an end comes to the same end (`Names.agree_succ`). Whether an opening
runs out of depth does not depend on where it is opened (`Opening.Deep.run`), so the openings that do
are a decreasing set of a finite one, and once the set stays it stays for good (`stable_succ`). The
depth that is allowed for is beyond that point: what runs out of it runs out of any depth.
-/

namespace QueryCompiler

open Build

variable {catalog : Catalog} {K : List Opening} {depth : Nat}

/-- With more depth, all that has been resolved is resolved as before. -/
theorem Names.agree_succ (depth : Nat) :
    (Names.ofTree catalog depth).Agree .deeper (Scope.Like .deeper) (fun _ _ => True)
      (Names.ofTree catalog (depth + 1)) := by
  induction depth with
  | zero =>
    exact ⟨fun _ _ => trivial, fun path hs => Scope.column_matches hs,
      fun _ _ _ _ _ _ => .cut rfl⟩
  | succ depth ih =>
    refine ⟨fun _ _ => trivial, fun path hs => Scope.column_matches hs, fun hs _ _ => ?_⟩
    refine (Scope.subquery_matches (.refl catalog) ih (Scope.link_matches hs) hs.checked hs.minded
      (fun _ => trivial) fun _ _ _ _ _ _ => trivial).mono fun _ _ h =>
        ⟨h.1, h.2.1, fun _ _ => trivial⟩

/-! ## Openings that run out of depth -/

/-- The step in which a subquery is opened. -/
def Opening.step (catalog : Catalog) (depth : Nat) (o : Opening) (s : Scope) (path : String) :
    Build (Subquery Predicate × Scope) :=
  (Names.ofTree catalog depth).subquery s path o.joins ((o.inner.map Condition.joinPaths).getD [])

/-- Somewhere the opening runs out of depth. -/
def Opening.Deep (catalog : Catalog) (depth : Nat) (o : Opening) : Prop :=
  ∃ s path p p', o.At s path ∧ (o.step catalog depth s path).run p = .error .tooDeep p'

namespace Opening

variable {o : Opening} {s s' : Scope} {path path' : String}

theorem At.link_matches {m : Comparison} (hm : ¬ m.same) (h : o.At s path) (h' : o.At s' path') :
    m.Settles (Link.Like m) (s.link path) (s'.link path') := by
  obtain ⟨l, hl, hparent, hname, hrelation, -⟩ := h
  obtain ⟨l', hl', hparent', hname', hrelation', -⟩ := h'
  rw [hl, hl']
  exact .ok ⟨hname.trans hname'.symm, hrelation.trans hrelation'.symm, fun hsame => absurd hsame hm,
    hparent.trans hparent'.symm⟩

theorem At.checked_eq (h : o.At s path) (h' : o.At s' path') : s.checked = s'.checked := by
  obtain ⟨_, _, -, -, -, h⟩ := h
  obtain ⟨_, _, -, -, -, h'⟩ := h'
  exact h.trans h'.symm

/-- In a scope that is alike, the subquery is opened at the same path. -/
theorem At.of_like {m : Comparison} (h : o.At s path)
    (hlink : m.Settles (Link.Like m) (s.link path) (s'.link path')) (hchecked : s.checked = s'.checked) :
    o.At s' path' := by
  obtain ⟨l, hl, hparent, hname, hrelation, ho⟩ := h
  rw [hl] at hlink
  cases hl' : s'.link path' with
  | error e => rw [hl'] at hlink; cases hlink
  | ok l' =>
    rw [hl'] at hlink
    cases hlink with
    | ok h => exact ⟨l', hl', h.parentModel.symm.trans hparent, h.name.symm.trans hname,
        h.relation.symm.trans hrelation, hchecked.symm.trans ho⟩

theorem step_matches {m : Comparison} (hm : m.minded) {known : Scope → Condition → Prop}
    {depth depth' : Nat}
    (hn : (Names.ofTree catalog depth).Agree m (Scope.Like m) known (Names.ofTree catalog depth'))
    (hlink : m.Settles (Link.Like m) (s.link path) (s'.link path')) (hchecked : s.checked = s'.checked)
    (hknown : ∀ tree, s.Makes catalog path o.joins ((o.inner.map Condition.joinPaths).getD []) tree →
      tree.Known known none s.checked) :
    Matches m (fun _ _ => True) (o.step catalog (depth + 1) s path)
      (o.step catalog (depth' + 1) s' path') :=
  (Scope.subquery_matches (.refl catalog) hn hlink hchecked (fun _ => hm) (fun _ => hm) hknown).mono
    fun _ _ _ => trivial

/-- An opening that runs out of depth somewhere does so everywhere. -/
theorem Deep.run (h : o.Deep catalog depth) (hat : o.At s path) (p : Progress) :
    ∃ p', (o.step catalog depth s path).run p = .error .tooDeep p' := by
  obtain ⟨s₀, path₀, p₀, p₀', hat₀, hrun⟩ := h
  cases depth with
  | zero => exact ⟨p, rfl⟩
  | succ depth =>
    have hmatches : Matches .unnumbered (fun _ _ => True) (o.step catalog (depth + 1) s₀ path₀)
        (o.step catalog (depth + 1) s path) :=
      step_matches trivial (Names.agree_ofTree trivial trivial depth) (At.link_matches id hat₀ hat)
        (At.checked_eq hat₀ hat) fun _ _ _ _ _ _ => trivial
    have hends := hmatches (p := p₀) (q := p) nofun
    rw [hrun] at hends
    exact hends.tooDeep_right id

/-- An opening that runs out of depth runs out of less. -/
theorem Deep.of_succ (h : o.Deep catalog (depth + 1)) : o.Deep catalog depth := by
  obtain ⟨s, path, p, p', hat, hrun⟩ := h
  cases depth with
  | zero => exact ⟨s, path, p, p, hat, rfl⟩
  | succ depth =>
    have hmatches : Matches .deeper (fun _ _ => True) (o.step catalog (depth + 1) s path)
        (o.step catalog (depth + 2) s path) :=
      step_matches trivial (Names.agree_succ depth) (.refl Link.Like.refl _) rfl
        fun _ _ _ _ _ _ => trivial
    have hends := hmatches (.refl p)
    rw [hrun] at hends
    obtain ⟨q, hq⟩ := hends.tooDeep_left fun _ => id
    exact ⟨s, path, p, q, hat, hq⟩

end Opening

/-- Where a run opens a subquery and runs out of depth over it, the subquery is one of a relationship
of the scope. -/
theorem Scope.subquery_tooDeep {names : Names Scope} {s : Scope} {path : String} {joins : List Join}
    {paths : List String} {p p' : Progress}
    (h : (s.subquery catalog names path joins paths).run p = .error .tooDeep p') :
    ∃ l b, s.link path = .ok l ∧ catalog.target l.parentModel l.name l.relation = .ok b := by
  rw [Scope.subquery_eq] at h
  cases hl : s.link path with
  | error e => rw [hl] at h; exact absurd h nofun
  | ok l =>
    cases hb : catalog.target l.parentModel l.name l.relation with
    | error e =>
      rw [hl] at h
      change ((Build.ofExcept (catalog.target l.parentModel l.name l.relation)) >>= _).run p = _ at h
      rw [hb] at h
      exact absurd h nofun
    | ok b => exact ⟨l, b, rfl, hb⟩

/-! ## Openings that run out of every depth -/

/-- No opening comes to an end with one more step of depth. -/
def Opening.Stays (catalog : Catalog) (K : List Opening) (depth : Nat) : Prop :=
  ∀ o ∈ K, o.Deep catalog depth → o.Deep catalog (depth + 1)

/-- Names that agree agree more closely over openings of which it is known how they run out of
depth. -/
theorem Names.agree_posed {m m' : Comparison} {depth' : Nat} (hm : m.Implies m')
    (hm' : m'.Implies m) (hminded : m.minded) (hcut : ∀ stop, m.cut stop → stop = .tooDeep)
    (hn : (Names.ofTree catalog depth).Agree m (Scope.Like m) (fun _ _ => True)
      (Names.ofTree catalog depth'))
    (hdeep : ∀ o ∈ K, o.Deep catalog (depth + 1) →
      m'.deep ∧ o.Deep catalog (depth' + 1)) :
    (Names.ofTree catalog (depth + 1)).Agree m' (Scope.Like m') (Scope.Posed catalog K)
      (Names.ofTree catalog (depth' + 1)) := by
  refine ⟨fun hc hpart => hc.part hpart, fun path hs => Scope.column_matches hs, ?_⟩
  intro s s' path inner joins negated hs hposed _ p q hpq
  have hlink : m.Settles (Link.Like m) (s.link path) (s'.link path) :=
    Scope.link_matches (hs.imp hm')
  have hends := @Scope.subquery_matches m catalog _ _ _ _ s s' path path joins
    ((inner.map Condition.joinPaths).getD []) (.refl catalog) hn hlink hs.checked (fun _ => hminded)
    (fun _ => hminded) (fun _ _ _ _ _ _ => trivial) p q fun hsame => hpq (hm'.same hsame)
  change m'.Meets _ ((s.subquery catalog (Names.ofTree catalog depth) path joins _).run p)
    ((s'.subquery catalog (Names.ofTree catalog depth') path joins _).run q)
  -- where the run on the left runs out of depth, so does the one on the right
  have hstop : ∀ p', (s.subquery catalog (Names.ofTree catalog depth) path joins
      ((inner.map Condition.joinPaths).getD [])).run p = .error .tooDeep p' → m'.deep ∧ ∃ q',
      (s'.subquery catalog (Names.ofTree catalog depth') path joins
        ((inner.map Condition.joinPaths).getD [])).run q = .error .tooDeep q' := by
    intro p' hrun
    obtain ⟨l, b, hl, hb⟩ := Scope.subquery_tooDeep hrun
    obtain ⟨o, ho, hat, rfl, rfl, -, -⟩ := hposed.related hl hb
    obtain ⟨hallowed, hright⟩ := hdeep o ho ⟨s, path, p, p', hat, hrun⟩
    exact ⟨hallowed, hright.run (hat.of_like hlink hs.checked) q⟩
  generalize (s.subquery catalog (Names.ofTree catalog depth) path joins
    ((inner.map Condition.joinPaths).getD [])).run p = u at hends hstop ⊢
  generalize (s'.subquery catalog (Names.ofTree catalog depth') path joins
    ((inner.map Condition.joinPaths).getD [])).run q = v at hends hstop ⊢
  cases hends with
  | rejected hpq => exact .rejected fun hsame => hpq (hm.same hsame)
  | deep _ => exact .deep (hstop _ rfl).1
  | cut h =>
    obtain rfl := hcut _ h
    obtain ⟨hallowed, q', rfl⟩ := hstop _ rfl
    exact .deep hallowed
  | @ok x y _ _ hxy hpq =>
    obtain ⟨hbody, hlike, htree, htable, hchecked⟩ := hxy
    exact .ok ⟨fun hsame => hbody (hm.same hsame), hlike.imp hm,
      fun c hc => hposed.inside htree htable hchecked hc⟩ fun hsame => hpq (hm.same hsame)

/-- Where no opening comes to an end with more depth, no run does. -/
theorem Names.agree_of_stays (h : Opening.Stays catalog K (depth + 1)) :
    (Names.ofTree catalog (depth + 1)).Agree .exact (Scope.Like .exact) (Scope.Posed catalog K)
      (Names.ofTree catalog (depth + 2)) :=
  Names.agree_posed (m := .deeper) ⟨id, .rfl, fun h => nomatch h "" ""⟩
    ⟨id, .rfl, fun h => (h "" "").elim⟩ trivial (fun _ => id) (Names.agree_succ depth)
    fun o ho hdeep => ⟨trivial, h o ho hdeep⟩

/-- A set of openings from which none is lost loses none later. -/
theorem Opening.Stays.succ (hclosed : Opening.Closed catalog K) (hnamed : catalog.Named)
    (h : Opening.Stays catalog K (depth + 1)) : Opening.Stays catalog K (depth + 2) := by
  rintro o ho ⟨s, path, p, p', hat, hrun⟩
  have hmatches : Matches .exact (fun _ _ => True) (o.step catalog (depth + 2) s path)
      (o.step catalog (depth + 3) s path) :=
    Opening.step_matches trivial (Names.agree_of_stays h) (.refl Link.Like.refl _) rfl
      fun tree htree => hclosed.known hnamed ho hat htree
  have hends := hmatches (.refl p)
  rw [hrun] at hends
  obtain ⟨q, hq⟩ := hends.tooDeep_right id
  exact ⟨s, path, p, q, hat, hq⟩

/-- Of finitely many things that hold less and less, there is a first step at which none is lost. -/
theorem exists_none_lost {α : Type} {F : Nat → α → Prop} (hF : ∀ n a, F (n + 1) a → F n a)
    (as : List α) : ∃ n ≤ as.length, ∀ a ∈ as, F n a → F (n + 1) a := by
  by_contra hlost
  have hfirst : ∀ i : Fin (as.length + 1), ∃ a ∈ as, F i a ∧ ¬ F (i + 1) a := by
    intro i
    by_contra hnone
    refine hlost ⟨i, Nat.le_of_lt_succ i.2, fun a ha h => ?_⟩
    by_contra hn
    exact hnone ⟨a, ha, h, hn⟩
  choose lost hmem hholds hlast using hfirst
  have hdown : ∀ {n k : Nat} {a : α}, n ≤ k → F k a → F n a := by
    intro n k a hnk
    induction hnk with
    | refl => exact id
    | step _ ih => exact fun h => ih (hF _ _ h)
  -- what is lost at one step is not there to be lost at a later one
  have hinjective : Function.Injective lost := by
    intro i j hij
    rcases Nat.lt_trichotomy i j with hlt | heq | hlt
    · exact absurd (hdown hlt (hij ▸ hholds j)) (hlast i)
    · exact Fin.ext heq
    · exact absurd (hdown hlt (hij ▸ hholds i)) (hij ▸ hlast j)
  have hsubset : List.ofFn lost ⊆ as := fun a ha => by
    obtain ⟨i, rfl⟩ := List.mem_ofFn.1 ha
    exact hmem i
  have hlength := ((List.nodup_ofFn.2 hinjective).subperm hsubset).length_le
  rw [List.length_ofFn] at hlength
  omega

/-- Beyond the number of openings, none comes to an end with more depth. -/
theorem Opening.stays_of_lt (hclosed : Opening.Closed catalog K) (hnamed : catalog.Named)
    (hdepth : K.length < depth) : Opening.Stays catalog K depth := by
  obtain ⟨n, hn, hfirst⟩ :=
    @exists_none_lost _ (fun n o => Deep catalog (n + 1) o) (fun _ _ => Deep.of_succ) K
  obtain ⟨k, rfl⟩ : ∃ k, depth = n + 1 + k := ⟨depth - (n + 1), by omega⟩
  clear hdepth
  induction k with
  | zero => exact hfirst
  | succ k ih =>
    have heq : n + 1 + k = n + k + 1 := by omega
    rw [heq] at ih
    have hnext := ih.succ hclosed hnamed
    rwa [show n + k + 2 = n + 1 + (k + 1) by omega] at hnext

/-! ## Requests -/

namespace Request

variable {r : Request}

/-- A compilation that comes to an end comes to the same end with more depth. -/
theorem compileWithin_succ :
    (r.compileWithin depth catalog).1 = .error .tooDeep ∨
      r.compileWithin (depth + 1) catalog = r.compileWithin depth catalog := by
  have hmatches : Matches .deeper Eq (r.build catalog (.ofTree catalog depth))
      (r.build catalog (.ofTree catalog (depth + 1))) :=
    build_matches trivial trivial (Names.agree_succ depth) r fun _ _ _ _ _ _ _ _ _ _ => trivial
  have hends := hmatches (.refl {})
  rw [compileWithin, compileWithin]
  generalize (r.build catalog (.ofTree catalog depth)).run {} = u at hends
  generalize (r.build catalog (.ofTree catalog (depth + 1))).run {} = v at hends
  cases hends with
  | ok h hp =>
    obtain rfl := h
    obtain rfl := hp trivial
    exact .inr rfl
  | rejected hp =>
    obtain rfl := hp trivial
    exact .inr rfl
  | deep hdeep => exact hdeep.elim
  | cut h => exact .inl (congrArg Except.error h)

theorem compileWithin_le {depth' : Nat} (hle : depth ≤ depth') :
    (r.compileWithin depth catalog).1 = .error .tooDeep ∨
      r.compileWithin depth' catalog = r.compileWithin depth catalog := by
  induction hle with
  | refl => exact .inr rfl
  | step _ ih =>
    rcases ih with hdeep | heq
    · exact .inl hdeep
    · rcases @compileWithin_succ catalog _ r with hdeep | hnext
      · exact .inl (by rw [← heq]; exact hdeep)
      · exact .inr (hnext.trans heq)

/-- What runs out of the depth that is allowed for runs out of any more of it. -/
theorem tooDeep_of_bound (hnamed : catalog.Named) (hdepth : r.depthBound catalog ≤ depth)
    (h : (r.compile catalog).1 = .error .tooDeep) :
    (r.compileWithin depth catalog).1 = .error .tooDeep := by
  induction hdepth with
  | refl => exact h
  | @step depth hdepth ih =>
    obtain ⟨n, rfl⟩ : ∃ n, depth = n + 1 := ⟨depth - 1, by
      have hbound := (r.length_allOpenings catalog).trans_le hdepth
      omega⟩
    have hstays : Opening.Stays catalog (r.allOpenings catalog) (n + 1) :=
      Opening.stays_of_lt (r.closed_allOpenings catalog) hnamed
        ((r.length_allOpenings catalog).trans_le hdepth)
    have hmatches : Matches .exact Eq (r.build catalog (.ofTree catalog (n + 1)))
        (r.build catalog (.ofTree catalog (n + 2))) :=
      build_matches trivial trivial (Names.agree_of_stays hstays) r fun _ hd => demand_known hnamed hd
    have hends := hmatches (.refl {})
    rw [compileWithin] at ih ⊢
    generalize (r.build catalog (.ofTree catalog (n + 1))).run {} = u at hends ih
    generalize (r.build catalog (.ofTree catalog (n + 2))).run {} = v at hends
    cases hends with
    | ok => cases ih
    | rejected _ => exact absurd ih (by simp)
    | deep _ => rfl
    | cut hcut => exact hcut.elim

/-- The depth that is allowed for is enough wherever any depth is. -/
theorem compileWithin_eq_compile (hnamed : catalog.Named)
    (h : (r.compileWithin depth catalog).1 ≠ .error .tooDeep) :
    r.compileWithin depth catalog = r.compile catalog := by
  rcases Nat.le_total depth (r.depthBound catalog) with hle | hle
  · exact ((compileWithin_le hle).resolve_left h).symm
  · refine (compileWithin_le hle).resolve_left fun hdeep => ?_
    exact h (tooDeep_of_bound hnamed hle hdeep)

/-- More depth than is allowed for makes no difference. -/
theorem compileWithin_of_le (hnamed : catalog.Named) (hdepth : r.depthBound catalog ≤ depth) :
    (r.compileWithin depth catalog).1 = (r.compile catalog).1 := by
  rcases compileWithin_le hdepth with hdeep | heq
  · rw [tooDeep_of_bound hnamed hdepth hdeep]
    exact hdeep.symm
  · exact congrArg Prod.fst heq

/-- Requests whose compilations end alike at every depth end alike. -/
theorem compile_rel {r' : Request} {catalog' : Catalog}
    {R : Except Stop Statement → Except Stop Statement → Prop} (hnamed : catalog.Named)
    (hnamed' : catalog'.Named)
    (h : ∀ depth, R (r.compileWithin depth catalog).1 (r'.compileWithin depth catalog').1) :
    R (r.compile catalog).1 (r'.compile catalog').1 := by
  have hends := h (max (r.depthBound catalog) (r'.depthBound catalog'))
  rw [compileWithin_of_le hnamed (le_max_left _ _),
    compileWithin_of_le hnamed' (le_max_right _ _)] at hends
  exact hends

end Request
end QueryCompiler
