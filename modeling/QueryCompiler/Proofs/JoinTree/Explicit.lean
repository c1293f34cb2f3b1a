import QueryCompiler.Proofs.JoinTree.Demand

/-!
# What explicit joins ask for

The type of a join, its condition and its reading of deleted rows are those that the last explicit
join of the table's path asks for; a table that no explicit join names is joined with none of them.
`Serves` says so of a tree, together with how deleted rows of its root are read and with where its
links come from. Joining tables and choosing fields keep it, and each explicit join adds itself.
-/

namespace QueryCompiler

/-- The last of the joins whose path leads to a table. -/
def lastJoin? (joins : List Join) (path : TablePath) : Option Join :=
  joins.reverse.find? fun join => Path.all join.path == path

/-- A table is joined as a join asks for, or as tables are that no join asks for. -/
def Joined.Follows (j : Joined) : Option Join → Prop
  | some join => j.type = join.type ∧ j.condition = join.condition ∧
      j.ignoreDeleted = join.ignoreDeleted
  | none => j.type = .left ∧ j.condition = none ∧ j.ignoreDeleted = false

/-- A table is joined by a relationship of its parent's model, which has the table's model at its
other end. -/
def Joined.Linked (catalog : Catalog) (j : Joined) : Prop :=
  ∃ f, j.link.parentModel.field? j.link.name = some f ∧ f.kind = .relation j.link.relation ∧
    catalog.target j.link.parentModel j.link.name j.link.relation = .ok j.access

/-- The tables of a tree are read as a request asks for. -/
structure JoinTree.Serves (catalog : Catalog) (ignoreDeleted : Bool) (joins : List Join)
    (tree : JoinTree) : Prop where
  root : tree.root.ignoreDeleted = ignoreDeleted
  linked : ∀ j ∈ tree.joined, j.Linked catalog
  present : ∀ join ∈ joins, ∃ j ∈ tree.joined, j.path = Path.all join.path
  follows : ∀ j ∈ tree.joined, j.Follows (lastJoin? joins j.path)

theorem lastJoin?_concat (joins : List Join) (join : Join) (path : TablePath) :
    lastJoin? (joins ++ [join]) path =
      if Path.all join.path = path then some join else lastJoin? joins path := by
  rw [lastJoin?, List.reverse_concat, List.find?_cons]
  by_cases h : Path.all join.path = path
  · rw [beq_iff_eq.2 h, if_pos h]
  · rw [beq_eq_false_iff_ne.2 h, if_neg h]
    rfl

theorem lastJoin?_eq_none {joins : List Join} {path : TablePath}
    (h : ∀ join ∈ joins, Path.all join.path ≠ path) : lastJoin? joins path = none := by
  rw [lastJoin?, List.find?_eq_none]
  intro join hjoin
  simpa using h join (List.mem_reverse.1 hjoin)

namespace JoinTree

open Build

variable {catalog : Catalog} {checked ignoreDeleted : Bool} {joins : List Join} {join : Join}
  {x y : JoinTree × Nat} {tree tree' : JoinTree} {p p' : Progress}

/-! ## Steps -/

theorem Joins.serves (h : Joins catalog checked x y) (hx : x.1.Serves catalog ignoreDeleted joins) :
    y.1.Serves catalog ignoreDeleted joins := by
  cases h with
  | @join tree n t name f r access ht hf hk hchild htarget =>
    refine ⟨hx.root, fun j hj => ?_, fun join hjoin => ?_, fun j hj => ?_⟩
    · rcases List.mem_append.1 hj with hj | hj
      · exact hx.linked j hj
      · obtain rfl := List.mem_singleton.1 hj
        exact ⟨f, (Access.field_eq_ok.1 hf).1, hk, htarget⟩
    · obtain ⟨j, hj, hpath⟩ := hx.present join hjoin
      exact ⟨j, List.mem_append_left _ hj, hpath⟩
    · rcases List.mem_append.1 hj with hj | hj
      · exact hx.follows j hj
      -- no join names the table, for the tables that joins name are there already
      · obtain rfl := List.mem_singleton.1 hj
        have hnone : lastJoin? joins (t.path ++ [name]) = none := by
          refine lastJoin?_eq_none fun join hjoin hpath => ?_
          obtain ⟨k, hk, hkpath⟩ := hx.present join hjoin
          have hnot := List.find?_eq_none.1 hchild k hk
          exact hnot (by simpa using hkpath.trans hpath)
        show Joined.Follows _ (lastJoin? joins (t.path ++ [name]))
        rw [hnone]
        exact ⟨rfl, rfl, rfl⟩

theorem Extends.serves (h : Extends catalog checked x y)
    (hx : x.1.Serves catalog ignoreDeleted joins) : y.1.Serves catalog ignoreDeleted joins := by
  induction h with
  | refl => exact hx
  | tail _ h ih => exact h.serves ih

theorem choose_serves (choices : Table → List (String × Choice))
    (h : tree.Serves catalog ignoreDeleted joins) :
    (tree.mapTables fun t => t.choose (choices t)).Serves catalog ignoreDeleted joins := by
  refine ⟨h.root, fun j hj => ?_, fun join hjoin => ?_, fun j hj => ?_⟩
  · obtain ⟨k, hk, rfl⟩ := List.mem_map.1 hj
    exact h.linked k hk
  · obtain ⟨k, hk, hpath⟩ := h.present join hjoin
    exact ⟨_, List.mem_map_of_mem hk, hpath⟩
  · obtain ⟨k, hk, rfl⟩ := List.mem_map.1 hj
    exact h.follows k hk

/-- Steps without an explicit join among them. -/
theorem Steps.serves (h : Steps catalog [] x y) (hx : x.1.Serves catalog ignoreDeleted joins) :
    y.1.Serves catalog ignoreDeleted joins := by
  induction h with
  | refl => exact hx
  | tail _ h ih =>
    cases h with
    | join h => exact h.serves ih
    | choose choices _ => exact choose_serves choices ih
    | apply hjoin _ _ => exact absurd hjoin List.not_mem_nil

theorem applyJoin_serves (h : tree.Serves catalog ignoreDeleted joins)
    (hjoined : ∃ j ∈ tree.joined, j.path = Path.all join.path) :
    (tree.applyJoin (Path.all join.path) join).Serves catalog ignoreDeleted (joins ++ [join]) := by
  have hpath : ∀ k : Joined, (if k.path = Path.all join.path then
      { k with
        ignoreDeleted := join.ignoreDeleted, type := join.type, condition := join.condition }
      else k).path = k.path := by
    intro k
    split <;> rfl
  refine ⟨h.root, fun j hj => ?_, fun join' hjoin' => ?_, fun j hj => ?_⟩
  · obtain ⟨k, hk, rfl⟩ := List.mem_map.1 hj
    have hlinked := h.linked k hk
    split <;> exact hlinked
  · have hthere : ∃ k ∈ tree.joined, k.path = Path.all join'.path := by
      rcases List.mem_append.1 hjoin' with hjoin' | hjoin'
      · exact h.present join' hjoin'
      · exact List.mem_singleton.1 hjoin' ▸ hjoined
    obtain ⟨k, hk, hkpath⟩ := hthere
    exact ⟨_, List.mem_map_of_mem hk, (hpath k).trans hkpath⟩
  · obtain ⟨k, hk, rfl⟩ := List.mem_map.1 hj
    rw [hpath, lastJoin?_concat]
    by_cases hsame : k.path = Path.all join.path
    · rw [if_pos hsame, if_pos hsame.symm]
      exact ⟨rfl, rfl, rfl⟩
    · rw [if_neg hsame, if_neg fun heq => hsame heq.symm]
      exact h.follows k hk

/-! ## Runs -/

theorem addJoin_serves (hroot : tree.root.path = []) (hw : tree.Walked catalog true)
    (hserves : tree.Serves catalog ignoreDeleted joins)
    (h : (tree.addJoin catalog join).run p = .ok tree' p') :
    tree'.Serves catalog ignoreDeleted (joins ++ [join]) := by
  obtain ⟨tree₁, t, q, hext, hhas, hpath, hw₁, hhas₁, h⟩ := addJoin_reached hroot hw h
  have hroot₁ : tree₁.root.path = [] :=
    (root_path hext.cores_prefix).trans hroot
  have hjoined : ∃ j ∈ tree₁.joined, j.path = Path.all join.path := by
    obtain ⟨s, hs, hcore⟩ := List.mem_map.1 hhas
    have hspath : s.path = Path.all join.path := (congrArg (fun c => c.1) hcore).trans hpath
    rcases List.mem_cons.1 hs with rfl | hs
    · exact absurd (hroot₁.symm.trans hspath) (List.cons_ne_nil _ _).symm
    · obtain ⟨j, hj, rfl⟩ := List.mem_map.1 hs
      exact ⟨j, hj, hspath⟩
  obtain ⟨hext', -⟩ := addPaths_eq_ok hw₁.unchecked hhas₁ h
  refine hext'.serves ?_
  rw [hpath]
  exact applyJoin_serves (hext.serves hserves) hjoined

theorem addJoins_serves (hroot : tree.root.path = []) (hw : tree.Walked catalog true)
    (hserves : tree.Serves catalog ignoreDeleted [])
    (h : (tree.addJoins catalog joins).run p = .ok tree' p') :
    tree'.Serves catalog ignoreDeleted (Keyed.sortBy JoinOf.path joins) :=
  addJoins_induct (P := fun done mid _ => mid.Serves catalog ignoreDeleted done) hroot hw hserves
    (fun _ hroot hw hserves hrun => addJoin_serves hroot hw hserves hrun) h

theorem Starts.serves {access : Access} {n : Nat} (h : Starts access n tree) :
    tree.Serves catalog tree.root.ignoreDeleted [] := by
  refine ⟨rfl, fun j hj => ?_, nofun, fun j hj => ?_⟩
  · rw [h.alone] at hj
    exact absurd hj List.not_mem_nil
  · rw [h.alone] at hj
    exact absurd hj List.not_mem_nil

theorem ofDemand_serves {model : String} {d : Demand}
    (h : (ofDemand catalog model d).run p = .ok tree p') :
    tree.Serves catalog d.ignoreDeleted (Keyed.sortBy JoinOf.path d.joins) := by
  obtain ⟨access, start, tree₁, tree₂, tree₃, q, q₁, q₂, q₃, -, hstart, hignore, -, hjoins, hpaths,
    hselect, h⟩ := ofDemand_eq_ok h
  have hserves := addJoins_serves hstart.path hstart.walked hstart.serves hjoins
  rw [hignore] at hserves
  obtain ⟨hsteps, -⟩ := addJoins_eq_ok hstart.path hstart.walked hjoins
  have hw₁ := hsteps.walked hstart.walked
  obtain ⟨hext, -⟩ := addPaths_eq_ok hw₁.unchecked .root hpaths
  have hw₂ := hext.walked hw₁
  have hselected : Steps catalog [] _ (tree₃, q₃.nextNumber) := selected_eq_ok hw₂ hselect
  obtain ⟨hforced, -⟩ := addEnforcedPaths_eq_ok (hselected.walked hw₂).unchecked h
  exact hforced.serves (hselected.serves (hext.serves hserves))

theorem ofSubquery_serves {access : Access} {paths : List String}
    (h : (ofSubquery catalog access joins paths checked).run p = .ok tree p') :
    tree.Serves catalog false (Keyed.sortBy JoinOf.path joins) := by
  obtain ⟨start, tree₁, tree₂, q, q₁, q₂, hstart, hignore, -, hjoins, hpaths, h⟩ := ofSubquery_eq_ok h
  have hserves := addJoins_serves hstart.path hstart.walked hstart.serves hjoins
  rw [hignore] at hserves
  obtain ⟨hsteps, -⟩ := addJoins_eq_ok hstart.path hstart.walked hjoins
  have hw₁ := (hsteps.walked hstart.walked).unchecked
  obtain ⟨hext, -⟩ := addPaths_eq_ok hw₁ .root hpaths
  obtain ⟨hforced, -⟩ := addEnforcedPaths_eq_ok (hext.unchecked.walked hw₁) h
  exact hforced.serves (hext.serves hserves)

end JoinTree
end QueryCompiler
