import QueryCompiler.Proofs.JoinTree.Spanning
import QueryCompiler.Proofs.Build.Resolve

/-!
# Lookups in vain

Where a relationship on a path has no table, looking the path up fails. `Blames` follows this one
failure through a compilation: a step blames `P` if `P` holds of the model and the path that its
failure names. Making a tree never fails so, and resolving a condition fails so only by a lookup of
one of its own paths or inside a subquery (`Condition.resolve_blames`).
-/

namespace QueryCompiler

open Build

variable {α β : Type} {P : String → String → Prop} {catalog : Catalog} {model path : String}

/-! ## Failures -/

theorem except_bind_eq_error {ε : Type} {x : Except ε α} {f : α → Except ε β} {e : ε} :
    x >>= f = .error e ↔ x = .error e ∨ ∃ a, x = .ok a ∧ f a = .error e := by
  cases x with
  | error e' =>
    constructor
    · intro h
      cases h
      exact .inl rfl
    · rintro (h | ⟨_, h, _⟩)
      · cases h
        rfl
      · exact absurd h nofun
  | ok a =>
    refine ⟨fun h => .inr ⟨a, rfl, h⟩, ?_⟩
    rintro (h | ⟨_, ha, h⟩)
    · exact absurd h nofun
    · cases ha
      exact h

theorem except_mapM_eq_error {ε : Type} {f : α → Except ε β} {as : List α} {e : ε}
    (h : as.mapM f = .error e) : ∃ a ∈ as, f a = .error e := by
  induction as with
  | nil =>
    rw [List.mapM_nil] at h
    exact absurd h nofun
  | cons a as ih =>
    rw [List.mapM_cons] at h
    rcases except_bind_eq_error.1 h with h | ⟨b, -, h⟩
    · exact ⟨a, List.mem_cons_self, h⟩
    rcases except_bind_eq_error.1 h with h | ⟨bs, -, h⟩
    · obtain ⟨a', ha', h⟩ := ih h
      exact ⟨a', List.mem_cons_of_mem _ ha', h⟩
    · exact absurd h nofun

namespace Build

/-- Where the step fails because a relationship is not joined, `P` holds of the model and the path
that the failure names. -/
def Blames (P : String → String → Prop) (x : Build α) : Prop :=
  ∀ ⦃p p' model path⦄, x.run p = .error (.rejected (.field model path .notJoined)) p' →
    P model path

variable {x : Build α}

theorem Blames.pure (a : α) : Blames P (Pure.pure a : Build α) :=
  fun _ _ _ _ h => nomatch h

theorem Blames.freshNumber : Blames P freshNumber :=
  fun _ _ _ _ h => nomatch h

theorem Blames.report (e : Event) : Blames P (report e) :=
  fun _ _ _ _ h => nomatch h

theorem Blames.reject {e : CompileError} (h : ∀ model path, e = .field model path .notJoined →
    P model path) : Blames P (reject e : Build α) := by
  intro p p' model path hrun
  cases hrun
  exact h model path rfl

theorem Blames.fault {name : String} {fault : FieldFault} (h : fault ≠ .notJoined) :
    Blames P (Build.reject (.field model name fault) : Build α) :=
  .reject fun _ _ heq => by
    cases heq
    exact absurd rfl h

theorem Blames.ofExcept {x : Except CompileError α} (h : ∀ model path,
    x = .error (.field model path .notJoined) → P model path) : Blames P (ofExcept x) := by
  cases x with
  | ok a => exact .pure a
  | error e => exact .reject fun model path heq => h model path (congrArg _ heq)

theorem Blames.bind {f : α → Build β} (hx : Blames P x)
    (hf : ∀ a p p', x.run p = .ok a p' → Blames P (f a)) : Blames P (x >>= f) := by
  intro p p' model path h
  change EStateM.bind x f p = _ at h
  unfold EStateM.bind at h
  cases hrun : x p with
  | ok a q => rw [hrun] at h; exact hf a p q hrun h
  | error e q => rw [hrun] at h; cases h; exact hx hrun

theorem Blames.map {f : α → β} (hx : Blames P x) : Blames P (f <$> x) := by
  rw [← bind_pure_comp]
  exact hx.bind fun a _ _ _ => .pure (f a)

theorem Blames.mapM {f : α → Build β} {as : List α} (h : ∀ a ∈ as, Blames P (f a)) :
    Blames P (as.mapM f) := by
  induction as with
  | nil => exact .pure []
  | cons a as ih =>
    rw [List.mapM_cons]
    refine (h a List.mem_cons_self).bind fun b _ _ _ => ?_
    refine (ih fun a' ha' => h a' (List.mem_cons_of_mem _ ha')).bind fun bs _ _ _ => .pure _

theorem Blames.foldlM {f : β → α → Build β} (h : ∀ b a, Blames P (f b a)) (as : List α) (b : β) :
    Blames P (as.foldlM f b) := by
  induction as generalizing b with
  | nil => exact .pure b
  | cons a as ih =>
    rw [List.foldlM_cons]
    exact (h b a).bind fun b' _ _ _ => ih b'

end Build

theorem Access.field_ne_notJoined {a : Access} {name : String} {checked : Bool} :
    a.field name checked ≠ .error (.field model path .notJoined) := by
  intro h
  rw [Access.field] at h
  split at h
  · cases h
  · split at h <;> cases h

theorem Catalog.access_ne_notJoined {name : String} :
    catalog.access name ≠ .error (.field model path .notJoined) := by
  intro h
  rw [Catalog.access] at h
  split at h <;> cases h

theorem Catalog.target_ne_notJoined {owner : Model} {field : String} {r : Relation} :
    catalog.target owner field r ≠ .error (.field model path .notJoined) := by
  intro h
  rw [Catalog.target] at h
  split at h <;> cases h

theorem Model.basicFields_ne_notJoined {m : Model} {names : List String} :
    m.basicFields names ≠ .error (.field model path .notJoined) := by
  intro h
  obtain ⟨name, -, h⟩ := except_mapM_eq_error h
  split at h <;> exact absurd h nofun

theorem Link.equalities_ne_notJoined {l : Link} {t : Table} :
    l.equalities t ≠ .error (.field model path .notJoined) := by
  have hfields : l.fields t.access.model ≠ .error (.field model path .notJoined) := by
    intro h
    rw [Link.fields] at h
    split at h
    all_goals
      rcases except_bind_eq_error.1 h with h | ⟨_, -, h⟩
      · exact Model.basicFields_ne_notJoined h
      rcases except_bind_eq_error.1 h with h | ⟨_, -, h⟩
      · exact Model.basicFields_ne_notJoined h
      · exact absurd h nofun
  intro h
  rw [Link.equalities] at h
  rcases except_bind_eq_error.1 h with h | ⟨_, -, h⟩
  · exact hfields h
  · split at h
    split at h <;> exact absurd h nofun

/-! ## Making a tree -/

namespace JoinTree

variable {tree : JoinTree} {t : Table} {checked wildcard : Bool}

theorem join_blames (name : String) (r : Relation) : Blames P (tree.join catalog t name r) := by
  rw [join]
  split
  · exact .pure _
  · refine Blames.bind (.ofExcept fun _ _ h => absurd h Catalog.target_ne_notJoined) ?_
    refine fun _ _ _ _ => Blames.freshNumber.bind fun _ _ _ _ => ?_
    exact (Blames.report _).bind fun _ _ _ _ => .pure _

theorem reachFrom_blames {path segment : String} {rest : List String} :
    Blames P (reachFrom catalog path checked wildcard rest tree t segment) := by
  induction rest generalizing tree t segment with
  | nil =>
    rw [reachFrom]
    split
    · split
      · exact .pure _
      · exact .fault (by simp)
    · refine Blames.bind (.ofExcept fun _ _ h => absurd h Access.field_ne_notJoined) ?_
      intro f _ _ _
      split
      · exact (join_blames _ _).bind fun _ _ _ _ => .pure _
      · exact .pure _
  | cons next rest ih =>
    rw [reachFrom]
    split
    · exact .fault (by simp)
    · refine Blames.bind (.ofExcept fun _ _ h => absurd h Access.field_ne_notJoined) ?_
      intro f _ _ _
      split
      · exact .fault (by simp)
      · split
        · split
          · exact .pure _
          · split
            · exact .pure _
            · exact .fault (by simp)
        · exact .fault (by simp)
      · exact (join_blames _ _).bind fun _ _ _ _ => ih

theorem addPaths_blames {paths : List String} : Blames P (tree.addPaths catalog t paths checked) :=
  Blames.foldlM (fun _ _ => reachFrom_blames.bind fun _ _ _ _ => .pure _) _ _

theorem addJoins_blames {joins : List Join} : Blames P (tree.addJoins catalog joins) := by
  refine Blames.foldlM (fun tree join => ?_) _ _
  rw [addJoin]
  have hreach : Blames P (tree.reach catalog tree.root join.path true false) := reachFrom_blames
  split
  · split
    · exact .reject (by simp)
    refine hreach.bind fun _ _ _ _ => ?_
    simp only
    split
    · exact addPaths_blames
    · exact .reject (by simp)
  · refine hreach.bind fun _ _ _ _ => ?_
    simp only
    split
    · exact addPaths_blames
    · exact .reject (by simp)

theorem addEnforcedPaths_blames : Blames P (tree.addEnforcedPaths catalog) :=
  Blames.foldlM (fun _ _ => addPaths_blames) _ _

theorem selectPaths_blames {paths : List String} : Blames P (selectPaths catalog paths tree) := by
  induction paths generalizing tree with
  | nil => exact .pure _
  | cons path paths ih =>
    rw [selectPaths]
    exact reachFrom_blames.bind fun _ _ _ _ => ih.bind fun _ _ _ _ => .pure _

theorem select_blames {paths : Option (List String)} : Blames P (tree.select catalog paths) := by
  cases paths with
  | none => exact .pure _
  | some paths => exact selectPaths_blames.bind fun _ _ _ _ => .pure _

theorem ofDemand_blames {name : String} {d : Demand} : Blames P (ofDemand catalog name d) := by
  rw [ofDemand]
  refine Blames.bind (.ofExcept fun _ _ h => absurd h Catalog.access_ne_notJoined) ?_
  refine fun _ _ _ _ => Blames.bind (Blames.freshNumber.bind fun _ _ _ _ => .pure _) ?_
  refine fun _ _ _ _ => addJoins_blames.bind fun _ _ _ _ => addPaths_blames.bind fun _ _ _ _ => ?_
  simp only
  split
  · exact Blames.bind (.pure _) fun _ _ _ _ => addEnforcedPaths_blames
  · exact select_blames.bind fun _ _ _ _ => addEnforcedPaths_blames

/-! ## Looking paths up -/

theorem Spans.child?_ne_none {segment : String} {rest : List String} {f : Field}
    (h : tree.Spans checked (segment :: rest) t) (hf : t.access.field segment checked = .ok f)
    (hrelation : f.isRelation = true) : tree.child? t segment ≠ none := by
  obtain ⟨j, hj, -⟩ := h f hf hrelation
  exact hj ▸ Option.some_ne_none j

/-- A path that is looked up in vain for want of a table is not spanned. -/
theorem findFrom_notJoined {path path' segment : String} {rest : List String}
    (h : tree.findFrom path checked rest t segment = .error (.field model path' .notJoined)) :
    path' = path ∧ ¬ tree.Spans checked (segment :: rest) t := by
  induction rest generalizing t segment with
  | nil =>
    rw [findFrom] at h
    rcases except_bind_eq_error.1 h with h | ⟨f, hf, h⟩
    · exact absurd h Access.field_ne_notJoined
    cases hk : f.kind with
    | basic b => simp [hk] at h
    | group g => simp [hk] at h
    | relation r =>
      simp only [hk] at h
      cases hj : tree.child? t segment with
      | some j => simp [hj] at h
      | none =>
        simp only [hj] at h
        cases h
        exact ⟨rfl, fun hspans => hspans.child?_ne_none hf (Field.isRelation_iff.2 ⟨r, hk⟩) hj⟩
  | cons next rest ih =>
    rw [findFrom] at h
    rcases except_bind_eq_error.1 h with h | ⟨f, hf, h⟩
    · exact absurd h Access.field_ne_notJoined
    cases hk : f.kind with
    | basic b => simp [hk] at h
    | group g =>
      simp only [hk] at h
      split at h
      · split at h <;> simp at h
      · simp at h
    | relation r =>
      simp only [hk] at h
      have hrelation : f.isRelation = true := Field.isRelation_iff.2 ⟨r, hk⟩
      cases hj : tree.child? t segment with
      | some j =>
        simp only [hj] at h
        obtain ⟨heq, hnot⟩ := ih h
        refine ⟨heq, fun hspans => hnot ?_⟩
        obtain ⟨j', hsome, hrest⟩ := hspans f hf hrelation
        rw [hj] at hsome
        obtain rfl := Option.some.inj hsome
        exact hrest
      | none =>
        simp only [hj] at h
        cases h
        exact ⟨rfl, fun hspans => hspans.child?_ne_none hf hrelation hj⟩

theorem find_notJoined {path path' : String}
    (h : tree.find t path checked = .error (.field model path' .notJoined)) :
    path' = path ∧ ¬ tree.Spans checked (Path.all path) t :=
  findFrom_notJoined h

/-- Of the paths that a tree spans, only the empty one is looked up in vain for want of a table. -/
theorem SpansAll.find_notJoined {paths : List String} {path path' : String}
    (hspans : tree.SpansAll checked paths t) (hmem : path ∈ paths)
    (h : tree.find t path checked = .error (.field model path' .notJoined)) : path' = "" := by
  obtain ⟨rfl, hnot⟩ := JoinTree.find_notJoined h
  by_contra hne
  exact hnot (hspans path' hmem hne)

end JoinTree

namespace Scope

variable {s : Scope} {path' : String}

theorem column_notJoined (h : s.column path = .error (.field model path' .notJoined)) :
    s.tree.find s.table path s.checked = .error (.field model path' .notJoined) := by
  rw [Scope.column] at h
  rcases except_bind_eq_error.1 h with h | ⟨⟨t, found⟩, -, h⟩
  · exact h
  · simp only at h
    split at h
    · split at h <;> simp at h
    · simp at h

/-- Of a relationship at a path, the path of its owner is looked up. -/
theorem link_notJoined (h : s.link path = .error (.field model path' .notJoined)) :
    ∃ owner, Path.owner? path = some owner ∧
      s.tree.find s.table owner s.checked = .error (.field model path' .notJoined) := by
  rw [Scope.link] at h
  rcases except_bind_eq_error.1 h with h | ⟨⟨t, name⟩, -, h⟩
  · rw [Scope.owner] at h
    split at h
    case h_1 => exact absurd h nofun
    case h_2 before name hsplit =>
      refine ⟨before, by rw [Path.owner?, hsplit]; rfl, ?_⟩
      rcases except_bind_eq_error.1 h with h | ⟨⟨t, found⟩, -, h⟩
      · exact h
      · simp only at h
        split at h <;> simp at h
  · rcases except_bind_eq_error.1 h with h | ⟨f, -, h⟩
    · exact absurd h Access.field_ne_notJoined
    · split at h <;> simp at h

end Scope

/-! ## Resolving conditions -/

namespace Condition

/-- The condition stands in another one, and not inside a condition over related rows there. -/
inductive PartOf (whole : Condition) : Condition → Prop where
  | whole : PartOf whole whole
  | member {k : Connective} {cs : List Condition} {c : Condition} : PartOf whole (.group k cs) →
      c ∈ cs → PartOf whole c
  | inner {c : Condition} : PartOf whole (.negate c) → PartOf whole c

theorem PartOf.trans {whole c c' : Condition} (h : PartOf whole c) (h' : PartOf c c') :
    PartOf whole c' := by
  induction h' with
  | whole => exact h
  | member _ hc ih => exact .member ih hc
  | inner _ ih => exact .inner ih

theorem columnPathsOf_eq (cs : List Condition) : columnPathsOf cs = cs.flatMap columnPaths := by
  induction cs with
  | nil => rfl
  | cons c cs ih => rw [columnPathsOf, ih, List.flatMap_cons]

theorem relatedPathsOf_eq (cs : List Condition) :
    relatedPathsOf cs = cs.flatMap relatedPaths := by
  induction cs with
  | nil => rfl
  | cons c cs ih => rw [relatedPathsOf, ih, List.flatMap_cons]

theorem PartOf.joinPaths_subset {whole c : Condition} (h : PartOf whole c) :
    c.joinPaths ⊆ whole.joinPaths := by
  induction h with
  | whole => exact fun _ => id
  | @member k cs c _ hc ih =>
    refine fun path hpath => ih ?_
    rw [joinPaths, List.mem_append] at hpath ⊢
    rw [columnPaths, relatedPaths, columnPathsOf_eq, relatedPathsOf_eq]
    refine hpath.imp (fun h => List.mem_flatMap_of_mem hc h) fun h => ?_
    obtain ⟨related, hrelated, howner⟩ := List.mem_filterMap.1 h
    exact List.mem_filterMap.2 ⟨related, List.mem_flatMap_of_mem hc hrelated, howner⟩
  | inner _ ih => exact ih

end Condition

theorem Operator.resolve_ne_notJoined {op : Operator} {column : Column} {base : String}
    {value : Value} : op.resolve column base value ≠ .error (.field model path .notJoined) := by
  have hmembership : ∀ (op : Operator) (negated : Bool) (value : Value),
      membership op negated column base value ≠ .error (.field model path .notJoined) := by
    intro op negated value h
    rw [membership] at h
    split at h <;> cases h
  intro h
  cases op with
  | isIn | notIn => exact hmembership _ _ _ h
  | eqOrIn =>
    cases value with
    | list items =>
      rcases items with _ | ⟨a, _ | ⟨b, rest⟩⟩
      · cases h
      · cases h
      · exact hmembership .isIn false (.list (a :: b :: rest)) h
    | _ => cases h
  | _ => cases h

theorem Dialect.searchTemplate_ne_notJoined {d : Dialect} {mode : SearchMode} :
    d.searchTemplate mode ≠ .error (.field model path .notJoined) := by
  cases d <;> cases mode <;> exact nofun

/-- The lookups that are made for known conditions are blamed. -/
structure Names.Blame {σ : Type} (P : String → String → Prop) (names : Names σ)
    (known : σ → Condition → Prop) : Prop where
  part : ∀ {s whole c}, known s whole → Condition.PartOf whole c → known s c
  column : ∀ {s c path model path'}, known s c → path ∈ c.columnPaths →
    names.column s path = .error (.field model path' .notJoined) → P model path'
  subquery : ∀ {s path inner joins negated}, known s (.related path inner joins negated) →
    path ≠ "" → Blames P (names.subquery s path joins ((inner.map Condition.joinPaths).getD []))
  inner : ∀ {s path inner joins negated body s' p p'},
    known s (.related path (some inner) joins negated) → path ≠ "" →
    (names.subquery s path joins inner.joinPaths).run p = .ok (body, s') p' → known s' inner

namespace Condition

variable {σ : Type} {names : Names σ} {known : σ → Condition → Prop} {s : σ} {d : Dialect}

theorem fill_blamed (hn : names.Blame P known) {c : Condition} (hc : known s c) {template : String}
    {paths : List String} {base : String} (hpaths : paths ⊆ c.columnPaths)
    (h : names.fill s template paths base = .error (.field model path .notJoined)) :
    P model path := by
  rw [Names.fill] at h
  rcases except_bind_eq_error.1 h with h | ⟨_, -, h⟩
  · obtain ⟨name, hname, h⟩ := except_mapM_eq_error h
    exact hn.column hc (hpaths hname) h
  · cases h

mutual

theorem resolve_blames (hn : names.Blame P known) : ∀ (c : Condition) {s : σ} {base : String},
    known s c → Blames P (c.resolve d names s base)
  | .compare path op value skipEmpty, s, base, hc => by
    rw [resolve]
    split
    case isTrue => exact .pure _
    case isFalse hcompares =>
      have hne : path.isEmpty = false := by
        rw [comparesNothing, Bool.or_eq_true, not_or] at hcompares
        exact Bool.eq_false_iff.2 hcompares.1
      have hmem : path ∈ (compare path op value skipEmpty).columnPaths := by
        rw [columnPaths, hne]
        exact List.mem_singleton_self path
      refine Blames.bind (.ofExcept fun _ _ h => hn.column hc hmem h) fun _ _ _ _ => ?_
      exact .ofExcept fun _ _ h => absurd h Operator.resolve_ne_notJoined
  | .group k members, s, base, hc => by
    rw [resolve]
    exact (resolveMembers_blames hn members fun c hmem => hn.part hc (.member .whole hmem)).bind
      fun _ _ _ _ => .pure _
  | .negate inner, s, base, hc => by
    rw [resolve]
    exact (resolve_blames hn inner (hn.part hc (.inner .whole))).bind fun _ _ _ _ => .pure _
  | .custom template paths value, s, base, hc => by
    rw [resolve]
    refine Blames.bind (.ofExcept fun _ _ h => ?_) fun _ _ _ _ => .pure _
    exact fill_blamed hn hc (fun _ => id) h
  | .search path value mode, s, base, hc => by
    rw [resolve]
    refine Blames.bind (.ofExcept fun _ _ h => absurd h Dialect.searchTemplate_ne_notJoined) ?_
    refine fun _ _ _ _ => Blames.bind (.ofExcept fun _ _ h => ?_) fun _ _ _ _ => .pure _
    exact fill_blamed hn hc (fun _ => id) h
  | .related path inner joins negated, s, base, hc => by
    rw [resolve_related]
    split
    case isTrue => exact .pure _
    case isFalse hne =>
      have hpath : path ≠ "" := fun heq => hne (String.isEmpty_iff.2 heq)
      refine (hn.subquery hc hpath).bind fun _ _ _ hrun => ?_
      refine (resolve?_blames hn fun c hmem => ?_).bind fun _ _ _ _ => .pure _
      obtain rfl := Option.mem_def.1 hmem
      exact hn.inner hc hpath hrun

theorem resolve?_blames (hn : names.Blame P known) {c : Option Condition} {s : σ} {base : String}
    (hc : ∀ c' ∈ c, known s c') : Blames P (resolve? d names c s base) := by
  cases c with
  | none => exact .pure _
  | some c => exact resolve_blames hn c (hc c rfl)

theorem resolveMembers_blames (hn : names.Blame P known) : ∀ (cs : List Condition) {s : σ}
    {base : String} {i : Nat}, (∀ c ∈ cs, known s c) →
    Blames P (resolveMembers d names cs s base i)
  | [], _, _, _, _ => by
    rw [resolveMembers]
    exact .pure _
  | c :: cs, s, base, i, hcs => by
    rw [resolveMembers]
    refine (resolve_blames hn c (hcs c List.mem_cons_self)).bind fun _ _ _ _ => ?_
    refine (resolveMembers_blames hn cs fun c' hc' => hcs c' (List.mem_cons_of_mem _ hc')).bind ?_
    exact fun _ _ _ _ => .pure _

end

end Condition
end QueryCompiler
