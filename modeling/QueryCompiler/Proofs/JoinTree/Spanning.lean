import QueryCompiler.Proofs.JoinTree.Shape

/-!
# Which paths have been joined

A tree spans a path if every relationship on it has its table in the tree. Reaching a path makes the
tree span it, and no later step takes that away, because the tables that are there keep their paths
and their numbers (`Spans.mono`). So when a tree is made, it spans what the request names, what the
conditions of joins name, and what is named by the rule on each table that was there when the rules
were looked at (`Spanned`). Tables that this last look brings in are not looked at themselves.
-/

namespace QueryCompiler

namespace JoinTree

open Build

/-- Every relationship that the segments lead over from a table has its table in the tree. -/
def Spans (tree : JoinTree) (checked : Bool) : List String → Table → Prop
  | [], _ => True
  | name :: names, t => ∀ f, t.access.field name checked = .ok f → f.isRelation = true →
      ∃ j, tree.child? t name = some j ∧ tree.Spans checked names j.toTable

/-- The tree spans all of the paths that are not empty. -/
def SpansAll (tree : JoinTree) (checked : Bool) (paths : List String) (t : Table) : Prop :=
  ∀ path ∈ paths, path ≠ "" → tree.Spans checked (Path.all path) t

variable {catalog : Catalog} {checked wildcard : Bool} {joins : List Join} {x y : JoinTree × Nat}
  {tree tree' : JoinTree} {t t' : Table} {p p' : Progress} {path : String} {target : Target}

/-! ## What keeps a path spanned -/

theorem child?_core (tree : JoinTree) (t : Table) (name : String) :
    (tree.child? t name).map (fun j => j.toTable.core) =
      tree.cores.tail.find? fun c => c.1 == t.path ++ [name] := by
  rw [cores, tables, List.map_cons, List.tail_cons, List.map_map, List.find?_map]
  rfl

theorem child?_mono {j : Joined} {name : String} (hcores : tree.cores <+: tree'.cores)
    (hpath : t'.path = t.path) (h : tree.child? t name = some j) :
    ∃ j', tree'.child? t' name = some j' ∧ j'.toTable.core = j.toTable.core := by
  have hcore := tree.child?_core t name
  have hcore' := tree'.child?_core t' name
  obtain ⟨new, hnew⟩ := hcores
  have hne : tree.cores ≠ [] := List.cons_ne_nil _ _
  rw [← hnew, List.tail_append_of_ne_nil hne, List.find?_append, hpath, ← hcore, h, Option.map_some,
    Option.some_or] at hcore'
  obtain ⟨j', hj', heq⟩ := Option.map_eq_some_iff.1 hcore'
  exact ⟨j', hj', heq⟩

/-- Tables that are there stay where they are, so what is spanned stays spanned. -/
theorem Spans.mono {segments : List String} (hcores : tree.cores <+: tree'.cores)
    (hpath : t'.path = t.path) (haccess : t'.access = t.access)
    (h : tree.Spans checked segments t) : tree'.Spans checked segments t' := by
  induction segments generalizing t t' with
  | nil => trivial
  | cons name names ih =>
    intro f hf hrelation
    rw [haccess] at hf
    obtain ⟨j, hj, hrest⟩ := h f hf hrelation
    obtain ⟨j', hj', hcore⟩ := child?_mono hcores hpath hj
    exact ⟨j', hj', ih (congrArg (fun c => c.1) hcore) (congrArg (fun c => c.2.2) hcore) hrest⟩

theorem SpansAll.mono {paths : List String} (hcores : tree.cores <+: tree'.cores)
    (hpath : t'.path = t.path) (haccess : t'.access = t.access)
    (h : tree.SpansAll checked paths t) : tree'.SpansAll checked paths t' :=
  fun path hmem hne => (h path hmem hne).mono hcores hpath haccess

/-! ## Reaching a path -/

theorem join_child? {name : String} {r : Relation} {j : Joined}
    (h : (tree.join catalog t name r).run p = .ok (tree', j) p') : tree'.child? t name = some j := by
  rw [join] at h
  cases hj : tree.child? t name with
  | some k =>
    rw [hj] at h
    obtain ⟨heq, -⟩ := run_pure_eq_ok.1 h
    cases heq
    exact hj
  | none =>
    rw [hj] at h
    obtain ⟨access, q, -, h⟩ := run_bind_eq_ok.1 h
    obtain ⟨number, q, -, h⟩ := run_bind_eq_ok.1 h
    obtain ⟨_, q, -, h⟩ := run_bind_eq_ok.1 h
    obtain ⟨heq, -⟩ := run_pure_eq_ok.1 h
    cases heq
    rw [child?] at hj ⊢
    rw [List.find?_append, hj]
    simp

theorem spans_of_not_relation {segment : String} {rest : List String} {f : Field}
    (hf : t.access.field segment checked = .ok f) (hrelation : f.isRelation = false) :
    tree.Spans checked (segment :: rest) t := by
  intro f' hf' hrelation'
  rw [hf] at hf'
  obtain rfl := Except.ok.inj hf'
  rw [hrelation] at hrelation'
  exact absurd hrelation' Bool.false_ne_true

theorem Arrives.spans {segments : List String} (hw : tree.Walked catalog false) (ht : tree.Has t)
    (h : Arrives catalog checked wildcard segments tree t p tree' t' target p')
    (hwildcard : wildcard = false) : tree'.Spans checked segments t := by
  induction h with
  | wildcard hallowed => exact absurd (hallowed.symm.trans hwildcard) Bool.noConfusion
  | field _ hf hrelation => exact spans_of_not_relation hf hrelation
  | groupWildcard _ _ hf hk | member _ hf hk =>
    exact spans_of_not_relation hf (Field.isRelation_eq_false (by simp [hk]))
  | relation _ _ _ hjoin => exact fun _ _ _ => ⟨_, join_child? hjoin, trivial⟩
  | through _ hf hk hjoin hrest ih =>
    obtain ⟨hext, hhas, -, -, -⟩ := join_eq_ok hw ht hf hk hjoin
    have hw₁ := hext.unchecked.walked hw
    obtain ⟨hext', -, -, -⟩ := hrest.ends hw₁ hhas
    obtain ⟨j', hj', hcore⟩ := child?_mono hext'.cores_prefix rfl (join_child? hjoin)
    refine fun _ _ _ => ⟨j', hj', ?_⟩
    exact (ih hw₁ hhas).mono (List.prefix_refl _) (congrArg (fun c => c.1) hcore)
      (congrArg (fun c => c.2.2) hcore)

theorem addPaths_spans {paths : List String} (hw : tree.Walked catalog false) (ht : tree.Has t)
    (h : (tree.addPaths catalog t paths checked).run p = .ok tree' p') :
    tree'.SpansAll checked paths t := by
  rw [addPaths] at h
  -- the paths that have been reached are spanned, and the tree only grows from then on
  have hall : ∀ path ∈ Keyed.setOf (paths.filter fun p => !p.isEmpty),
      tree'.Spans checked (Path.all path) t := by
    refine (run_foldlM_induct (P := fun done mid q =>
      Extends catalog checked (tree, p.nextNumber) (mid, q.nextNumber) ∧
        ∀ path ∈ done, mid.Spans checked (Path.all path) t) ⟨.refl, List.forall_mem_nil _⟩ ?_ h).2
    rintro done path mid mid' q r - ⟨hext, hdone⟩ hrun
    obtain ⟨⟨tree₁, t₁, target⟩, q', hreach, hrun⟩ := run_bind_eq_ok.1 hrun
    obtain ⟨rfl, rfl⟩ := run_pure_eq_ok.1 hrun
    have hw' := hext.unchecked.walked hw
    have ht' : mid.Has t := ht.mono hext.cores_prefix
    obtain ⟨hext', -⟩ := reach_eq_ok hw' ht' hreach
    refine ⟨hext.trans hext', fun path' hpath' => ?_⟩
    rcases List.mem_append.1 hpath' with hpath' | hpath'
    · exact (hdone path' hpath').mono hext'.cores_prefix rfl rfl
    · obtain rfl := List.mem_singleton.1 hpath'
      exact (arrives_of_run hreach).spans hw' ht' rfl
  intro path hmem hne
  refine hall path (Keyed.mem_setOf.2 (List.mem_filter.2 ⟨hmem, ?_⟩))
  simpa using hne

/-! ## The conditions of joins -/

/-- The tree spans what the conditions of joins name. -/
def JoinsSpan (tree : JoinTree) : Prop :=
  ∀ j ∈ tree.joined, ∀ c ∈ j.condition, tree.SpansAll true c.joinPaths j.toTable

theorem Joins.joined_cases (h : Joins catalog checked x y) {j : Joined} (hj : j ∈ y.1.joined) :
    j ∈ x.1.joined ∨ j.condition = none := by
  cases h
  rcases List.mem_append.1 hj with hj | hj
  · exact .inl hj
  · exact .inr (List.mem_singleton.1 hj ▸ rfl)

theorem Extends.joined_cases (h : Extends catalog checked x y) {j : Joined}
    (hj : j ∈ y.1.joined) : j ∈ x.1.joined ∨ j.condition = none := by
  induction h with
  | refl => exact .inl hj
  | tail _ h ih => exact (h.joined_cases hj).elim ih .inr

theorem Extends.joinsSpan (h : Extends catalog checked x y) (hx : x.1.JoinsSpan) :
    y.1.JoinsSpan := by
  intro j hj c hc
  rcases h.joined_cases hj with hj | hnone
  · exact (hx j hj c hc).mono h.cores_prefix rfl rfl
  · rw [hnone] at hc
    exact absurd hc nofun

theorem choose_joinsSpan (choices : Table → List (String × Choice)) (h : tree.JoinsSpan) :
    (tree.mapTables fun t => t.choose (choices t)).JoinsSpan := by
  intro j hj c hc
  obtain ⟨k, hk, rfl⟩ := List.mem_map.1 hj
  have hcores := cores_mapTables tree (fun t => t.choose (choices t)) fun _ => rfl
  exact (h k hk c hc).mono (hcores ▸ List.prefix_refl _) rfl rfl

/-- Steps without an explicit join among them. -/
theorem Steps.joinsSpan (h : Steps catalog [] x y) (hx : x.1.JoinsSpan) : y.1.JoinsSpan := by
  induction h with
  | refl => exact hx
  | tail _ h ih =>
    cases h with
    | join h => exact Extends.joinsSpan (.single h) ih
    | choose choices _ => exact choose_joinsSpan choices ih
    | apply hjoin _ _ => exact absurd hjoin List.not_mem_nil

theorem addJoin_joinsSpan {join : Join} (hroot : tree.root.path = [])
    (hw : tree.Walked catalog true) (hx : tree.JoinsSpan)
    (h : (tree.addJoin catalog join).run p = .ok tree' p') : tree'.JoinsSpan := by
  obtain ⟨tree₁, t, q, hext, hhas, -, hw₁, hhas₁, h⟩ := addJoin_reached hroot hw h
  obtain ⟨hext', -⟩ := addPaths_eq_ok hw₁.unchecked hhas₁ h
  have hspans := addPaths_spans hw₁.unchecked hhas₁ h
  intro j hj c hc
  rcases hext'.joined_cases hj with hj | hnone
  · obtain ⟨k, hk, rfl⟩ := List.mem_map.1 hj
    split at hc
    case isTrue hpath =>
      -- the table of the join: its paths have just been added
      rw [if_pos hpath]
      have haccess : k.access = t.access :=
        (hext.walked hw).access_eq (t := k.toTable) (.of_mem hk) hhas hpath
      have hc : join.condition = some c := hc
      rw [hc] at hspans
      exact hspans.mono (List.prefix_refl _) hpath haccess
    case isFalse hpath =>
      rw [if_neg hpath]
      exact (hext.joinsSpan hx k hk c hc).mono
        (cores_applyJoin tree₁ t.path join ▸ hext'.cores_prefix) rfl rfl
  · rw [hnone] at hc
    exact absurd hc nofun

theorem addJoins_joinsSpan (hroot : tree.root.path = []) (hw : tree.Walked catalog true)
    (hx : tree.JoinsSpan) (h : (tree.addJoins catalog joins).run p = .ok tree' p') :
    tree'.JoinsSpan :=
  addJoins_induct (P := fun _ mid _ => mid.JoinsSpan) hroot hw hx
    (fun _ hroot hw hx hrun => addJoin_joinsSpan hroot hw hx hrun) h

theorem Starts.joinsSpan {access : Access} {n : Nat} (h : Starts access n tree) :
    tree.JoinsSpan := by
  intro j hj
  rw [h.alone] at hj
  exact absurd hj List.not_mem_nil

/-! ## What is enforced -/

theorem addEnforcedPaths_spans (hw : tree.Walked catalog false)
    (h : (tree.addEnforcedPaths catalog).run p = .ok tree' p') :
    ∀ t ∈ tree.tables, ∀ c ∈ t.access.enforced? t.ignoreDeleted,
      tree'.SpansAll false c.joinPaths t := by
  refine (run_foldlM_induct (P := fun done mid q =>
    Extends catalog false (tree, p.nextNumber) (mid, q.nextNumber) ∧
      ∀ t ∈ done, ∀ c ∈ t.access.enforced? t.ignoreDeleted, mid.SpansAll false c.joinPaths t)
    ⟨.refl, nofun⟩ ?_ h).2
  rintro done t mid mid' q r ht ⟨hext, hdone⟩ hrun
  have hhas : mid.Has t := Has.mono hext.cores_prefix (List.mem_map_of_mem ht)
  obtain ⟨hext', -⟩ := addPaths_eq_ok (hext.walked hw) hhas hrun
  have hspans := addPaths_spans (hext.walked hw) hhas hrun
  refine ⟨hext.trans hext', fun t' ht' c hc => ?_⟩
  rcases List.mem_append.1 ht' with ht' | ht'
  · exact (hdone t' ht' c hc).mono hext'.cores_prefix rfl rfl
  · obtain rfl := List.mem_singleton.1 ht'
    rw [Option.mem_def.1 hc] at hspans
    exact hspans

/-- A table that is not in the tree `mid` is joined for what one of the tables of `mid` is held to. -/
structure Late (mid : JoinTree) (j : Joined) : Prop where
  absent : ∀ t ∈ mid.tables, t.path ≠ j.path
  enforced : ∃ owner ∈ mid.tables, EnforcedFrom owner j.path

/-- What a tree spans once it is made; `mid` is the tree before the rules on its tables were looked
at. -/
structure Spanned (catalog : Catalog) (checked : Bool) (paths : List String)
    (mid tree : JoinTree) : Prop where
  looked : ∃ q q', (mid.addEnforcedPaths catalog).run q = .ok tree q'
  named : tree.SpansAll checked paths tree.root
  joins : tree.JoinsSpan
  enforced : ∀ t ∈ tree.tables, (∀ c ∈ t.access.enforced? t.ignoreDeleted,
      tree.SpansAll false c.joinPaths t) ∨ ∃ j ∈ tree.joined, t = j.toTable ∧ Late mid j

theorem spanned_of_addEnforcedPaths {paths : List String} (hw : tree.Walked catalog false)
    (htree : tree'.IsTree) (hnamed : tree.SpansAll checked paths tree.root)
    (hjoins : tree.JoinsSpan) (h : (tree.addEnforcedPaths catalog).run p = .ok tree' p') :
    Spanned catalog checked paths tree tree' := by
  obtain ⟨hext, hothers⟩ := addEnforcedPaths_eq_ok hw h
  have hcores := hext.cores_prefix
  have hrootcore := root_core hcores
  refine ⟨⟨p, p', h⟩, ?_, hext.joinsSpan hjoins, fun t ht => ?_⟩
  · exact hnamed.mono hcores (congrArg (fun c => c.1) hrootcore)
      (congrArg (fun c => c.2.2) hrootcore)
  obtain ⟨new, hnew, -⟩ := hext.tables_append
  have hnew : tree'.tables = tree.tables ++ new := hnew
  have hmem := ht
  rw [hnew, List.mem_append] at hmem
  rcases hmem with hmem | hmem
  · exact .inl (addEnforcedPaths_spans hw h t hmem)
  · right
    have habsent : ∀ s ∈ tree.tables, s.path ≠ t.path := by
      intro s hs heq
      have hpaths := htree.paths
      rw [hnew, List.map_append] at hpaths
      exact (List.nodup_append'.1 hpaths).2.2 (List.mem_map_of_mem hs)
        (heq ▸ List.mem_map_of_mem hmem)
    have hroot : t ≠ tree'.root := by
      rintro rfl
      exact habsent tree.root List.mem_cons_self (congrArg (fun c => c.1) hrootcore).symm
    obtain ⟨j, hj, rfl⟩ := List.mem_map.1 ((List.mem_cons.1 ht).resolve_left hroot)
    refine ⟨j, hj, rfl, habsent, ?_⟩
    refine (hothers _ (.of_mem hj)).resolve_left fun hhas => ?_
    obtain ⟨s, hs, hcore⟩ := List.mem_map.1 hhas
    exact habsent s hs (congrArg (fun c => c.1) hcore)

theorem ofDemand_spanned {model : String} {d : Demand}
    (h : (ofDemand catalog model d).run p = .ok tree p') :
    ∃ mid, Spanned catalog true d.namedPaths mid tree := by
  obtain ⟨access, hmodel, hmade⟩ := ofDemand_made h
  obtain ⟨access, start, tree₁, tree₂, tree₃, q, q₁, q₂, q₃, -, hstart, -, hq, hjoins, hpaths,
    hselect, h⟩ := ofDemand_eq_ok h
  obtain ⟨hsteps, -⟩ := addJoins_eq_ok hstart.path hstart.walked hjoins
  have hw₁ := hsteps.walked hstart.walked
  obtain ⟨hext, -⟩ := addPaths_eq_ok hw₁.unchecked .root hpaths
  have hw₂ := hext.walked hw₁
  have hselected : Steps catalog [] _ (tree₃, q₃.nextNumber) := selected_eq_ok hw₂ hselect
  have hspan₁ := addJoins_joinsSpan hstart.path hstart.walked hstart.joinsSpan hjoins
  have hspan₃ := hselected.joinsSpan (hext.joinsSpan hspan₁)
  have hroot := root_core (hext.cores_prefix.trans hselected.cores_prefix)
  have hnamed : tree₃.SpansAll true d.namedPaths tree₃.root :=
    (addPaths_spans hw₁.unchecked .root hpaths).mono hselected.cores_prefix
      (congrArg (fun c => c.1) hroot) (congrArg (fun c => c.2.2) hroot)
  exact ⟨tree₃, spanned_of_addEnforcedPaths (hselected.walked hw₂).unchecked hmade.isTree hnamed
    hspan₃ h⟩

theorem ofSubquery_spanned {access : Access} {paths : List String}
    (h : (ofSubquery catalog access joins paths checked).run p = .ok tree p') :
    ∃ mid, Spanned catalog checked paths mid tree := by
  have hmade := ofSubquery_made h
  obtain ⟨start, tree₁, tree₂, q, q₁, q₂, hstart, -, -, hjoins, hpaths, h⟩ := ofSubquery_eq_ok h
  obtain ⟨hsteps, -⟩ := addJoins_eq_ok hstart.path hstart.walked hjoins
  have hw₁ := (hsteps.walked hstart.walked).unchecked
  obtain ⟨hext, -⟩ := addPaths_eq_ok hw₁ .root hpaths
  have hspan₁ := addJoins_joinsSpan hstart.path hstart.walked hstart.joinsSpan hjoins
  have hroot := root_core hext.cores_prefix
  have hnamed : tree₂.SpansAll checked paths tree₂.root :=
    (addPaths_spans hw₁ .root hpaths).mono (List.prefix_refl _)
      (congrArg (fun c => c.1) hroot) (congrArg (fun c => c.2.2) hroot)
  exact ⟨tree₂, spanned_of_addEnforcedPaths (hext.unchecked.walked hw₁) hmade.isTree hnamed
    (hext.joinsSpan hspan₁) h⟩

end JoinTree
end QueryCompiler
