import QueryCompiler.JoinTree.Selection
import QueryCompiler.Proofs.JoinTree.Walk
import Mathlib.Logic.Relation

/-!
# How join trees grow

All that is ever done to a join tree are three steps: a missing table is joined, fields are chosen on
its tables, and an explicit join is applied to a table. `Step` says so once, with what holds where a
step is made; what a join tree is known for is carried from step to step. A table is known by its
path, its number and the access to its model (`Table.core`), which no step changes.
-/

namespace QueryCompiler

/-- What of a table no step changes. -/
def Table.core (t : Table) : TablePath × Nat × Access :=
  (t.path, t.number, t.access)

namespace JoinTree

/-- What no step changes of the tables, the root first. -/
def cores (tree : JoinTree) : List (TablePath × Nat × Access) :=
  tree.tables.map Table.core

/-- The numbers of the tables, that of the root first. -/
def numbers (tree : JoinTree) : List Nat :=
  tree.cores.map fun c => c.2.1

/-- The tree has the table, though maybe with other choices by now. -/
def Has (tree : JoinTree) (t : Table) : Prop :=
  t.core ∈ tree.cores

/-! ## The order of joins -/

/-- The tables of a query in the order in which it lists them. -/
def listed (tree : JoinTree) : List Table :=
  tree.root :: tree.inOrder.map Joined.toTable

theorem placeBelow_perm (parent : TablePath) (j : Joined) (ks : List Joined) :
    (placeBelow parent j ks).Perm (j :: ks) := by
  induction ks with
  | nil => exact .refl _
  | cons k ks ih =>
    rw [placeBelow]
    split
    · exact (ih.cons k).trans (.swap j k ks)
    · exact .refl _

theorem inOrder_perm (tree : JoinTree) : tree.inOrder.Perm tree.joined := by
  have hfold : ∀ js order : List Joined,
      (js.foldl (fun order j => placeBelow j.path.dropLast j order) order).Perm (order ++ js) := by
    intro js
    induction js with
    | nil => exact fun order => by rw [List.append_nil]; exact .refl _
    | cons j js ih =>
      intro order
      refine (ih _).trans (((placeBelow_perm _ j order).append_right js).trans ?_)
      exact List.perm_middle.symm
  exact hfold tree.joined []

theorem listed_perm (tree : JoinTree) : tree.listed.Perm tree.tables :=
  (tree.inOrder_perm.map Joined.toTable).cons _

theorem Has.listed {tree : JoinTree} {t : Table} (h : tree.Has t) :
    ∃ t' ∈ tree.listed, t'.path = t.path ∧ t'.number = t.number ∧ t'.access = t.access := by
  obtain ⟨t', ht', hcore⟩ := List.mem_map.1 h
  refine ⟨t', tree.listed_perm.symm.subset ht', ?_, ?_, ?_⟩
  · exact congrArg (fun c => c.1) hcore
  · exact congrArg (fun c => c.2.1) hcore
  · exact congrArg (fun c => c.2.2) hcore

/-! ## Steps -/

/-- The tree with a table joined by a relationship of `t`. -/
def extend (tree : JoinTree) (t : Table) (name : String) (r : Relation) (access : Access)
    (number : Nat) : JoinTree :=
  { tree with joined := tree.joined ++
      [{ path := t.path ++ [name], number, access, link := ⟨name, r, t.number, t.access.model⟩ }] }

/-- A missing table is joined. The number of the next table goes along with the tree. -/
inductive Joins (catalog : Catalog) (checked : Bool) : JoinTree × Nat → JoinTree × Nat → Prop where
  | join {tree : JoinTree} {n : Nat} {t : Table} {name : String} {f : Field} {r : Relation}
      {access : Access} : tree.Has t → t.access.field name checked = .ok f →
      f.kind = .relation r → tree.child? t name = none →
      catalog.target t.access.model name r = .ok access →
      Joins catalog checked (tree, n) (tree.extend t name r access n, n + 1)

/-- A step in the making of a join tree with explicit joins. -/
inductive Step (catalog : Catalog) (joins : List Join) : JoinTree × Nat → JoinTree × Nat → Prop where
  | join {x y : JoinTree × Nat} : Joins catalog true x y → Step catalog joins x y
  | choose {tree : JoinTree} {n : Nat} (choices : Table → List (String × Choice)) :
      (∀ t, tree.Has t → ∀ c ∈ choices t, t.access.permits c.1 = true) →
      Step catalog joins (tree, n) (tree.mapTables fun t => t.choose (choices t), n)
  | apply {tree : JoinTree} {n : Nat} {t : Table} {join : Join} : join ∈ joins → tree.Has t →
      t.path = Path.all join.path → Step catalog joins (tree, n) (tree.applyJoin t.path join, n)

/-- Tables are joined one after the other. -/
abbrev Extends (catalog : Catalog) (checked : Bool) : JoinTree × Nat → JoinTree × Nat → Prop :=
  Relation.ReflTransGen (Joins catalog checked)

/-- Steps are made one after the other. -/
abbrev Steps (catalog : Catalog) (joins : List Join) : JoinTree × Nat → JoinTree × Nat → Prop :=
  Relation.ReflTransGen (Step catalog joins)

variable {catalog : Catalog} {checked : Bool} {joins : List Join} {x y : JoinTree × Nat}
  {tree tree' : JoinTree} {t t' : Table} {n n' : Nat}

theorem Extends.steps (h : Extends catalog true x y) : Steps catalog joins x y :=
  Relation.ReflTransGen.mono (fun _ _ => Step.join) _ _ h

/-! ## What every step keeps -/

theorem Has.root : tree.Has tree.root :=
  List.mem_cons_self

theorem Has.of_mem {j : Joined} (h : j ∈ tree.joined) : tree.Has j.toTable :=
  List.mem_cons_of_mem _ (List.mem_map_of_mem (List.mem_map_of_mem h))

theorem cores_mapTables (tree : JoinTree) (f : Table → Table) (hf : ∀ t, (f t).core = t.core) :
    (tree.mapTables f).cores = tree.cores := by
  simp [cores, tables, mapTables, hf]

theorem cores_applyJoin (tree : JoinTree) (path : TablePath) (join : Join) :
    (tree.applyJoin path join).cores = tree.cores := by
  simp only [cores, tables, applyJoin, List.map_cons, List.map_map]
  congr 1
  refine List.map_congr_left fun j _ => ?_
  simp only [Function.comp_apply]
  split <;> rfl

theorem cores_extend (tree : JoinTree) (t : Table) (name : String) (r : Relation)
    (access : Access) (n : Nat) :
    (tree.extend t name r access n).cores = tree.cores ++ [(t.path ++ [name], n, access)] := by
  simp [cores, tables, extend, Table.core]

theorem Joins.cores_prefix (h : Joins catalog checked x y) : x.1.cores <+: y.1.cores := by
  cases h
  rw [cores_extend]
  exact List.prefix_append _ _

theorem Step.cores_prefix (h : Step catalog joins x y) : x.1.cores <+: y.1.cores := by
  cases h with
  | join h => exact h.cores_prefix
  | @choose tree _ choices _ =>
    have hcores := cores_mapTables tree (fun t => t.choose (choices t)) fun _ => rfl
    exact hcores ▸ List.prefix_refl _
  | @apply tree _ t join _ _ _ =>
    have hcores := cores_applyJoin tree t.path join
    exact hcores ▸ List.prefix_refl _

theorem Steps.cores_prefix (h : Steps catalog joins x y) : x.1.cores <+: y.1.cores := by
  induction h with
  | refl => exact List.prefix_refl _
  | tail _ h ih => exact ih.trans h.cores_prefix

theorem Extends.cores_prefix (h : Extends catalog checked x y) : x.1.cores <+: y.1.cores := by
  induction h with
  | refl => exact List.prefix_refl _
  | tail _ h ih => exact ih.trans h.cores_prefix

theorem Has.mono (hx : x.1.cores <+: y.1.cores) (h : x.1.Has t) : y.1.Has t :=
  hx.subset h

theorem root_core (h : x.1.cores <+: y.1.cores) : y.1.root.core = x.1.root.core :=
  (List.cons_prefix_cons.1 h).1.symm

theorem root_path (h : x.1.cores <+: y.1.cores) : y.1.root.path = x.1.root.path :=
  congrArg (fun c => c.1) (root_core h)

theorem root_access (h : x.1.cores <+: y.1.cores) : y.1.root.access = x.1.root.access :=
  congrArg (fun c => c.2.2) (root_core h)

theorem Joins.next_le (h : Joins catalog checked x y) : x.2 ≤ y.2 := by
  cases h
  exact Nat.le_succ _

theorem Step.next_le (h : Step catalog joins x y) : x.2 ≤ y.2 := by
  cases h with
  | join h => exact h.next_le
  | choose _ _ => exact le_rfl
  | apply _ _ _ => exact le_rfl

theorem Steps.next_le (h : Steps catalog joins x y) : x.2 ≤ y.2 := by
  induction h with
  | refl => exact le_rfl
  | tail _ h ih => exact ih.trans h.next_le

theorem Extends.next_le (h : Extends catalog checked x y) : x.2 ≤ y.2 := by
  induction h with
  | refl => exact le_rfl
  | tail _ h ih => exact ih.trans h.next_le

/-! ## Tables stand where their paths lead -/

/-- Every table is of the model that its path leads to from the root. -/
def Walked (catalog : Catalog) (checked : Bool) (tree : JoinTree) : Prop :=
  ∀ t, tree.Has t → catalog.walk? checked tree.root.access t.path = some t.access

theorem Walked.unchecked (h : tree.Walked catalog checked) : tree.Walked catalog false :=
  fun t ht => Catalog.walk?_unchecked (h t ht)

theorem Walked.of_cores_eq (hx : x.1.cores = y.1.cores) (h : x.1.Walked catalog checked) :
    y.1.Walked catalog checked := by
  intro t ht
  rw [root_access (x := x) (hx ▸ List.prefix_refl _)]
  exact h t (by rw [Has, hx]; exact ht)

theorem Joins.walked (h : Joins catalog checked x y) (hw : x.1.Walked catalog checked) :
    y.1.Walked catalog checked := by
  cases h with
  | @join tree n t name f r access ht hf hk hchild htarget =>
    intro t' ht'
    rw [Has, cores_extend, List.mem_append, List.mem_singleton] at ht'
    rcases ht' with ht' | ht'
    · exact hw t' ht'
    · have hpath : t'.path = t.path ++ [name] := congrArg (fun c => c.1) ht'
      have haccess : t'.access = access := congrArg (fun c => c.2.2) ht'
      rw [hpath, haccess]
      show catalog.walk? checked tree.root.access _ = _
      rw [Catalog.walk?_concat, hw t ht]
      exact Catalog.hop?_eq_some.2 ⟨f, r, hf, hk, htarget⟩

theorem Joins.unchecked (h : Joins catalog checked x y) : Joins catalog false x y := by
  cases h with
  | join ht hf hk hchild htarget =>
    exact .join ht (Access.field_unchecked hf) hk hchild htarget

theorem Extends.unchecked (h : Extends catalog checked x y) : Extends catalog false x y :=
  Relation.ReflTransGen.mono (fun _ _ => Joins.unchecked) _ _ h

theorem Extends.walked (h : Extends catalog checked x y) (hw : x.1.Walked catalog checked) :
    y.1.Walked catalog checked := by
  induction h with
  | refl => exact hw
  | tail _ h ih => exact h.walked ih

theorem Steps.walked (h : Steps catalog joins x y) (hw : x.1.Walked catalog true) :
    y.1.Walked catalog true := by
  induction h with
  | refl => exact hw
  | tail _ h ih =>
    cases h with
    | join h => exact h.walked ih
    | @choose tree n choices _ =>
      have hcores := cores_mapTables tree (fun t => t.choose (choices t)) fun _ => rfl
      exact Walked.of_cores_eq (x := (tree, n)) (y := (_, n)) hcores.symm ih
    | @apply tree n t join _ _ _ =>
      have hcores := cores_applyJoin tree t.path join
      exact Walked.of_cores_eq (x := (tree, n)) (y := (_, n)) hcores.symm ih

/-! ## Reaching a path -/

/-- What is left of a path where it ends. -/
inductive Ends (a : Access) (checked : Bool) : List String → Target → Prop where
  | relation {f : Field} : f.isRelation = true → Ends a checked [] (.found (.field f))
  | field {name : String} {f : Field} : a.field name checked = .ok f → f.isRelation = false →
      Ends a checked [name] (.found (.field f))
  | member {name next : String} {f : Field} {g : GroupField} {b : BasicField} :
      a.field name checked = .ok f → f.kind = .group g → g.member? next = some b →
      Ends a checked [name, next] (.found (.member f b))
  | wildcard : Ends a checked ["*"] .wildcard
  | groupWildcard {name : String} {f : Field} {g : GroupField} : a.field name checked = .ok f →
      f.kind = .group g → Ends a checked [name, "*"] (.groupWildcard f)

/-- A path leads from a table over relationships to another table and ends there. -/
def Leads (catalog : Catalog) (checked : Bool) (t : Table) (segments : List String) (t' : Table)
    (target : Target) : Prop :=
  ∃ hops last, segments = hops ++ last ∧ t'.path = t.path ++ hops ∧
    catalog.walk? checked t.access hops = some t'.access ∧ Ends t'.access checked last target

end JoinTree
end QueryCompiler
