import QueryCompiler.Proofs.JoinTree.Shape
import QueryCompiler.Proofs.JoinTree.Scopes

/-!
# Join trees with one source of numbers

A query and its subqueries have a join tree each, and all of them draw the numbers of their tables
from one source. Trees are opened and added to in any order (`Forest.Step`). Whatever has been done
from the beginning, each of them is a tree with its numbers in order, no number is drawn twice, and
the joins that are written for a tree are one a table, each behind the one that it hangs on.
-/

namespace QueryCompiler

open Build

variable {catalog : Catalog} {p p' : Progress}

/-! ## What is done to a tree -/

namespace JoinTree

variable {joins : List Join} {tree tree' : JoinTree}

/-- Steps over a list grow the tree if each of them does. -/
theorem foldlM_growsTo {α : Type} {f : JoinTree → α → Build JoinTree}
    (hf : ∀ {tree tree' : JoinTree} {a : α} {p p' : Progress}, tree.Walked catalog false →
      (f tree a).run p = .ok tree' p' →
      GrowsTo catalog (tree, p.nextNumber) (tree', p'.nextNumber))
    {as : List α} (hw : tree.Walked catalog false) (h : (as.foldlM f tree).run p = .ok tree' p') :
    GrowsTo catalog (tree, p.nextNumber) (tree', p'.nextNumber) := by
  refine run_foldlM_induct (P := fun _ mid q =>
    GrowsTo catalog (tree, p.nextNumber) (mid, q.nextNumber)) .refl ?_ h
  intro _ a mid mid' q r _ hgrows hrun
  exact hgrows.trans (hf (hgrows.walked hw) hrun)

theorem addJoin_growsTo {join : Join} (hw : tree.Walked catalog false)
    (h : (tree.addJoin catalog join).run p = .ok tree' p') :
    GrowsTo catalog (tree, p.nextNumber) (tree', p'.nextNumber) := by
  obtain ⟨tree₁, t, target, q, hreach, -, h⟩ := addJoin_parts h
  obtain ⟨hext, hhas, -, -⟩ := reach_eq_ok hw .root hreach
  have happly : GrowsTo catalog (tree, p.nextNumber)
      (tree₁.applyJoin t.path join, q.nextNumber) :=
    hext.growsTo.tail (applyJoin_grows t.path join _)
  have hhas' : (tree₁.applyJoin t.path join).Has t := by rw [Has, cores_applyJoin]; exact hhas
  obtain ⟨hext', -⟩ := addPaths_eq_ok (happly.walked hw) hhas' h
  exact happly.trans hext'.growsTo

theorem selectPaths_growsTo {paths : List String} {touched : List TablePath}
    (hw : tree.Walked catalog false)
    (h : (selectPaths catalog paths tree).run p = .ok (tree', touched) p') :
    GrowsTo catalog (tree, p.nextNumber) (tree', p'.nextNumber) := by
  induction paths generalizing tree p touched with
  | nil =>
    obtain ⟨heq, rfl⟩ := run_pure_eq_ok.1 h
    cases heq
    exact .refl
  | cons path paths ih =>
    obtain ⟨tree₁, t, target, q, rest, hreach, hrest, rfl⟩ := selectPaths_cons_eq_ok h
    obtain ⟨hext, -, -, -⟩ := reach_eq_ok hw .root hreach
    rw [mapTable_choose] at hrest
    have hchoose : GrowsTo catalog (tree, p.nextNumber) _ := hext.growsTo.tail
      (@mapTables_grows catalog tree₁ (fun table => table.choose
        (if table.path = t.path then choicesOf table target else [])) (fun _ => rfl) q.nextNumber)
    exact hchoose.trans (ih (hchoose.walked hw) hrest)

theorem select_growsTo {paths : Option (List String)} (hw : tree.Walked catalog false)
    (h : (tree.select catalog paths).run p = .ok tree' p') :
    GrowsTo catalog (tree, p.nextNumber) (tree', p'.nextNumber) := by
  cases paths with
  | none =>
    obtain ⟨rfl, rfl⟩ := run_pure_eq_ok.1 h
    exact .single (mapTables_grows (fun t => t.choose t.defaultChoices) (fun _ => rfl) _)
  | some paths =>
    obtain ⟨mid, touched, hpaths, rfl⟩ := select_some_eq_ok h
    refine (selectPaths_growsTo hw hpaths).tail (mapTables_grows _ (fun t => ?_) _)
    split <;> rfl

/-- What is done to a join tree in the making of a query. -/
inductive Task where
  | addJoins (joins : List Join)
  | addPaths (paths : List String) (checked : Bool)
  | select (paths : Option (List String))
  | addEnforcedPaths

/-- Does the task. -/
def Task.run (catalog : Catalog) (tree : JoinTree) : Task → Build JoinTree
  | .addJoins joins => tree.addJoins catalog joins
  | .addPaths paths checked => tree.addPaths catalog tree.root paths checked
  | .select paths => tree.select catalog paths
  | .addEnforcedPaths => tree.addEnforcedPaths catalog

theorem Task.growsTo {task : Task} (hw : tree.Walked catalog false)
    (h : (task.run catalog tree).run p = .ok tree' p') :
    GrowsTo catalog (tree, p.nextNumber) (tree', p'.nextNumber) := by
  cases task with
  | addJoins joins => exact foldlM_growsTo addJoin_growsTo hw h
  | addPaths paths checked => exact (addPaths_eq_ok hw .root h).1.growsTo
  | select paths => exact select_growsTo hw h
  | addEnforcedPaths => exact (addEnforcedPaths_eq_ok hw h).1.growsTo

end JoinTree

/-! ## Trees side by side -/

/-- The join trees of a query and of its subqueries, and how far the statement has come. -/
abbrev Forest := List JoinTree × Progress

/-- A tree is opened, for a query about a model or for a subquery over a relationship, or something
is done to one of the trees. -/
inductive Forest.Step (catalog : Catalog) : Forest → Forest → Prop where
  | query {trees : List JoinTree} {p p' : Progress} {model : String} {access : Access}
      {tree : JoinTree} (ignoreDeleted : Bool) (place : Option JoinPlace) :
      catalog.access model = .ok access → (JoinTree.single access).run p = .ok tree p' →
      Step catalog (trees, p)
        (trees ++ [{ tree with root := { tree.root with ignoreDeleted }, place }], p')
  | subquery {trees : List JoinTree} {p p' : Progress} {owner : Model} {field : String}
      {relation : Relation} {access : Access} {tree : JoinTree} :
      catalog.target owner field relation = .ok access →
      (do report (.subquery access.model.name); JoinTree.single access).run p = .ok tree p' →
      Step catalog (trees, p) (trees ++ [{ tree with place := some .existsSubquery }], p')
  | task {front back : List JoinTree} {p p' : Progress} {tree tree' : JoinTree}
      {task : JoinTree.Task} : (task.run catalog tree).run p = .ok tree' p' →
      Step catalog (front ++ tree :: back, p) (front ++ tree' :: back, p')

/-- Every one of the trees is one, and all numbers differ and have been drawn. -/
structure Forest.Sane (catalog : Catalog) (f : Forest) : Prop where
  isTree : ∀ tree ∈ f.1, tree.IsTree
  walked : ∀ tree ∈ f.1, tree.Walked catalog false
  nodup : (f.1.flatMap JoinTree.numbers).Nodup
  drawn : ∀ n ∈ f.1.flatMap JoinTree.numbers, n < f.2.nextNumber

namespace Forest

variable {trees : List JoinTree} {f g : Forest}

/-- A tree with a root only is opened beside others. -/
theorem Sane.open {access : Access} {tree : JoinTree} (h : Sane catalog (trees, p))
    (hstart : JoinTree.Starts access p.nextNumber tree)
    (hnext : p'.nextNumber = p.nextNumber + 1) : Sane catalog (trees ++ [tree], p') := by
  have hnumbers : (trees ++ [tree]).flatMap JoinTree.numbers =
      trees.flatMap JoinTree.numbers ++ [p.nextNumber] := by
    rw [List.flatMap_append, List.flatMap_singleton, hstart.numbers_eq]
  refine ⟨fun t ht => ?_, fun t ht => ?_, ?_, fun n hn => ?_⟩
  · rcases List.mem_append.1 ht with ht | ht
    · exact h.isTree t ht
    · exact List.mem_singleton.1 ht ▸ hstart.isTree
  · rcases List.mem_append.1 ht with ht | ht
    · exact h.walked t ht
    · exact List.mem_singleton.1 ht ▸ hstart.walked
  · rw [hnumbers, List.nodup_append']
    refine ⟨h.nodup, List.nodup_singleton _, fun n hn hmem => ?_⟩
    exact (h.drawn n hn).ne (List.mem_singleton.1 hmem)
  · rw [hnumbers, List.mem_append, List.mem_singleton] at hn
    show n < p'.nextNumber
    rcases hn with hn | rfl
    · have hlt : n < p.nextNumber := h.drawn n hn
      omega
    · omega

/-- One of the trees grows. -/
theorem Sane.grow {front back : List JoinTree} {tree tree' : JoinTree}
    (h : Sane catalog (front ++ tree :: back, p))
    (hgrows : JoinTree.GrowsTo catalog (tree, p.nextNumber) (tree', p'.nextNumber)) :
    Sane catalog (front ++ tree' :: back, p') := by
  have hmem : tree ∈ front ++ tree :: back := List.mem_append_right _ List.mem_cons_self
  have hsub : ∀ n ∈ tree.numbers, n ∈ (front ++ tree :: back).flatMap JoinTree.numbers :=
    fun n hn => List.mem_flatMap.2 ⟨tree, hmem, hn⟩
  obtain ⟨hle, new, hnew, hsorted, hrange⟩ := hgrows.numbers
  have hother : ∀ t ∈ front ++ tree' :: back, t = tree' ∨ t ∈ front ++ tree :: back := by
    intro t ht
    rcases List.mem_append.1 ht with ht | ht
    · exact .inr (List.mem_append_left _ ht)
    · exact (List.mem_cons.1 ht).imp_right fun ht =>
        List.mem_append_right _ (List.mem_cons_of_mem _ ht)
  have hperm : ((front ++ tree' :: back).flatMap JoinTree.numbers).Perm
      ((front ++ tree :: back).flatMap JoinTree.numbers ++ new) := by
    simp only [List.flatMap_append, List.flatMap_cons, List.append_assoc]
    rw [show tree'.numbers = tree.numbers ++ new from hnew, List.append_assoc]
    exact (List.perm_append_comm.append_left _).append_left _
  refine ⟨fun t ht => ?_, fun t ht => ?_, ?_, fun n hn => ?_⟩
  · rcases hother t ht with rfl | ht
    · exact hgrows.isTree (fun n hn => h.drawn n (hsub n hn)) (h.isTree tree hmem)
    · exact h.isTree t ht
  · rcases hother t ht with rfl | ht
    · exact hgrows.walked (h.walked tree hmem)
    · exact h.walked t ht
  · rw [hperm.nodup_iff, List.nodup_append']
    refine ⟨h.nodup, hsorted.imp Nat.ne_of_lt, fun n hn hnew => ?_⟩
    exact absurd (h.drawn n hn) (Nat.not_lt.2 (hrange n hnew).1)
  · rcases List.mem_append.1 (hperm.subset hn) with hn | hn
    · exact (h.drawn n hn).trans_le hle
    · exact (hrange n hn).2

theorem Step.sane (h : Step catalog f g) (hf : Sane catalog f) : Sane catalog g := by
  cases h with
  | query ignoreDeleted place haccess hsingle =>
    obtain ⟨rfl, hnumber⟩ := JoinTree.single_eq_ok hsingle
    exact hf.open ⟨rfl, rfl, rfl, rfl, rfl⟩ hnumber
  | subquery htarget hsingle =>
    obtain ⟨_, _, hreport, hsingle⟩ := run_bind_eq_ok.1 hsingle
    rw [run_report] at hreport
    obtain ⟨-, rfl⟩ := EStateM.Result.ok.inj hreport
    obtain ⟨rfl, hnumber⟩ := JoinTree.single_eq_ok hsingle
    exact hf.open ⟨rfl, rfl, rfl, rfl, rfl⟩ hnumber
  | task htask =>
    exact hf.grow (JoinTree.Task.growsTo (hf.walked _ (by simp)) htask)

/-- Trees that are opened and grown from the beginning. -/
abbrev Run (catalog : Catalog) : Forest → Forest → Prop :=
  Relation.ReflTransGen (Step catalog)

theorem Run.sane (h : Run catalog f g) (hf : Sane catalog f) : Sane catalog g := by
  induction h with
  | refl => exact hf
  | tail _ h ih => exact h.sane ih

end Forest

/-! ## The joins that are written -/

/-- The text of joins is that of one join after the other. -/
theorem Predicate.joinsText_eq_join (clauses : List (JoinClause Predicate)) :
    joinsText clauses = String.join (clauses.map fun c => joinsText [c]) := by
  induction clauses with
  | nil => rfl
  | cons c clauses ih =>
    obtain ⟨type, model, number, link, enforced, requested⟩ := c
    rw [List.map_cons, String.join_cons, ← ih]
    simp only [joinsText, String.append_empty]

/-- The joins of a tree are one a joined table, in the order in which the query lists them. -/
theorem JoinTree.clauses_forall₂ {tree : JoinTree} {names : Names Scope}
    {clauses : List (JoinClause Predicate)}
    (h : (tree.clauses catalog names).run p = .ok clauses p') :
    List.Forall₂ (fun j c => c.number = j.number ∧ c.model = j.access.model ∧ c.type = j.type)
      tree.inOrder clauses := by
  refine (run_mapM h).imp fun j c hc => ?_
  obtain ⟨q, q', hc⟩ := hc
  obtain ⟨_, -, htype, hmodel, hnumber, -⟩ := clause_eq_ok hc
  exact ⟨hnumber, hmodel, htype⟩

/-- Join trees that are opened and added to in any order, all from one source of numbers: no number
is drawn twice, each tree is one, every joined table is once among the children of the table that it
hangs on and among no other's, and the joins that are written for it are one a joined table, each
behind the one that it hangs on. -/
theorem Forest.run_shape {start p : Progress} {trees : List JoinTree}
    (h : Forest.Run catalog ([], start) (trees, p)) :
    (trees.flatMap JoinTree.numbers).Nodup ∧ ∀ tree ∈ trees, tree.IsTree ∧
      (∀ j ∈ tree.joined, (∃ t ∈ tree.tables, j.HangsOn t) ∧ ∀ t ∈ tree.tables,
        ((tree.children t).map fun k => k.path).count j.path =
          if j.path.dropLast = t.path then 1 else 0) ∧
      (∀ t ∈ tree.tables, ((tree.children t).map fun k => k.link.name).Nodup) ∧
      ∀ (names : Names Scope) (q q' : Progress) (clauses : List (JoinClause Predicate)),
        (tree.clauses catalog names).run q = .ok clauses q' →
        Predicate.joinsText clauses =
            String.join (clauses.map fun c => Predicate.joinsText [c]) ∧
          ∃ order : List Joined, order.Perm tree.joined ∧ HangInOrder [tree.root] order ∧
            List.Forall₂ (fun j c =>
              c.number = j.number ∧ c.model = j.access.model ∧ c.type = j.type) order clauses := by
  have hsane := h.sane ⟨nofun, nofun, .nil, nofun⟩
  refine ⟨hsane.nodup, fun tree htree => ?_⟩
  have hshape := hsane.isTree tree htree
  refine ⟨hshape, fun j hj => ⟨hshape.exists_hangsOn hj, fun t _ => hshape.count_children hj t⟩,
    fun t _ => hshape.names_nodup t, fun names q q' clauses hclauses => ?_⟩
  exact ⟨Predicate.joinsText_eq_join clauses, tree.inOrder, tree.inOrder_perm,
    hshape.hang_inOrder, JoinTree.clauses_forall₂ hclauses⟩

/-- Employees, their managers and the employees that report to them. -/
def teams : Catalog where
  models := [("Employee",
    { name := "Employee", table := "employee"
      fields := [⟨"id", .basic ⟨"id", "id", true⟩⟩, ⟨"name", .basic ⟨"name", "name", true⟩⟩,
        ⟨"managerId", .basic ⟨"managerId", "manager_id", true⟩⟩,
        ⟨"manager", .relation ⟨.one, "Employee", ["managerId"]⟩⟩,
        ⟨"reports", .relation ⟨.many, "Employee", ["managerId"]⟩⟩] })]

/-- While a query grows by managers of managers, a subquery is opened and grows by reports. -/
theorem teams_shape : ∃ trees p, Forest.Run teams ([], {}) (trees, p) ∧
    trees.map JoinTree.numbers = [[0, 1, 3, 4], [2, 5]] ∧
    (trees.flatMap JoinTree.numbers).Nodup ∧ ∀ tree ∈ trees, tree.IsTree := by
  obtain ⟨access, haccess⟩ : ∃ access, teams.access "Employee" = .ok access := ⟨_, rfl⟩
  obtain ⟨root, p₁, hroot⟩ : ∃ tree p, (JoinTree.single access).run {} = .ok tree p := ⟨_, _, rfl⟩
  have h₁ : Forest.Step teams ([], {}) ([{ root with root := { root.root with ignoreDeleted := false }
                                                     place := none }], p₁) :=
    .query false none haccess hroot
  obtain ⟨named, p₂, hnamed⟩ : ∃ tree p, (JoinTree.Task.run teams
      { root with root := { root.root with ignoreDeleted := false }, place := none }
      (.addPaths ["manager.name"] true)).run p₁ = .ok tree p := by
    cases haccess; cases hroot; exact ⟨_, _, rfl⟩
  have h₂ : Forest.Step teams ([_], p₁) ([named], p₂) :=
    @Forest.Step.task teams [] [] p₁ p₂ _ named _ hnamed
  obtain ⟨sub, p₃, hsub⟩ : ∃ tree p,
      (do report (.subquery access.model.name); JoinTree.single access).run p₂ = .ok tree p :=
    ⟨_, _, rfl⟩
  have htarget : teams.target access.model "reports" ⟨.many, "Employee", ["managerId"]⟩ = .ok access := by
    cases haccess; rfl
  have h₃ : Forest.Step teams ([named], p₂) ([named, { sub with place := some .existsSubquery }], p₃) :=
    .subquery htarget hsub
  obtain ⟨selected, p₄, hselected⟩ : ∃ tree p, (JoinTree.Task.run teams named
      (.select (some ["manager.manager.name", "reports.name"]))).run p₃ = .ok tree p := by
    cases haccess; cases hroot; cases hnamed; cases hsub; exact ⟨_, _, rfl⟩
  have h₄ : Forest.Step teams _ ([selected, { sub with place := some .existsSubquery }], p₄) :=
    @Forest.Step.task teams [] [_] p₃ p₄ named selected _ hselected
  obtain ⟨joined, p₅, hjoined⟩ : ∃ tree p, (JoinTree.Task.run teams
      { sub with place := some .existsSubquery } (.addJoins [{ path := "reports" }])).run p₄ =
        .ok tree p := by
    cases haccess; cases hroot; cases hnamed; cases hsub; cases hselected; exact ⟨_, _, rfl⟩
  have h₅ : Forest.Step teams _ ([selected, joined], p₅) :=
    @Forest.Step.task teams [selected] [] p₄ p₅ _ joined _ hjoined
  have hrun : Forest.Run teams ([], {}) ([selected, joined], p₅) :=
    ((((Relation.ReflTransGen.single h₁).tail h₂).tail h₃).tail h₄).tail h₅
  obtain ⟨hnodup, hall⟩ := Forest.run_shape hrun
  refine ⟨_, _, hrun, ?_, hnodup, fun tree htree => (hall tree htree).1⟩
  cases haccess; cases hroot; cases hnamed; cases hsub; cases hselected; cases hjoined
  rfl

end QueryCompiler
