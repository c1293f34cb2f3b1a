import QueryCompiler.Proofs.JoinTree.Forest
import QueryCompiler.Proofs.JoinTree.Gains
import QueryCompiler.Proofs.JoinTree.Spanning

/-!
# A path keeps its table

`reach` joins what is missing on a path and `find` only follows what is joined. A path that has been
reached lies in the tree from then on (`Lies`), because nothing that is done to a tree takes a table
away or puts another one in its place (`Changes.cores_prefix`). So both find the same table on it ever
after, and reaching it again does nothing (`find_reached`).
-/

namespace QueryCompiler

open Build

/-- A name stands for one field, whether permissions are minded or not. -/
theorem Access.eq_of_field {a : Access} {name : String} {checked checked' : Bool} {f f' : Field}
    (h : a.field name checked = .ok f) (h' : a.field name checked' = .ok f') : f' = f :=
  Option.some.inj ((field_eq_ok.1 h').1.symm.trans (field_eq_ok.1 h).1)

namespace JoinTree

variable {catalog : Catalog} {checked wildcard : Bool} {tree tree' later : JoinTree}
  {t t' s u v : Table} {p p' : Progress} {path segment : String} {segments rest : List String}
  {target : Target} {found : Found}

/-! ## Paths that lie in a tree -/

/-- The segments lead from `t` over joined tables to something on the table `u`. No name of a field
among them is a wildcard. -/
inductive Lies (tree : JoinTree) (checked : Bool) :
    List String → Table → Table → Found → Prop where
  | field {name : String} {t : Table} {f : Field} : name ≠ "*" →
      t.access.field name checked = .ok f → f.isRelation = false →
      Lies tree checked [name] t t (.field f)
  | member {name next : String} {t : Table} {f : Field} {g : GroupField} {b : BasicField} :
      name ≠ "*" → t.access.field name checked = .ok f → f.kind = .group g →
      g.member? next = some b → Lies tree checked [name, next] t t (.member f b)
  | relation {name : String} {t : Table} {f : Field} {r : Relation} {j : Joined} : name ≠ "*" →
      t.access.field name checked = .ok f → f.kind = .relation r → tree.child? t name = some j →
      Lies tree checked [name] t j.toTable (.field f)
  | through {name next : String} {rest : List String} {t u : Table} {f : Field} {r : Relation}
      {j : Joined} {found : Found} : name ≠ "*" → t.access.field name checked = .ok f →
      f.kind = .relation r → tree.child? t name = some j →
      Lies tree checked (next :: rest) j.toTable u found →
      Lies tree checked (name :: next :: rest) t u found

/-- A name that is refused is refused by one error, on whichever way. -/
theorem refused {e : CompileError} (hstar : segment ≠ "*")
    (h : t.access.field segment checked = .error e) :
    findFrom tree path checked rest t segment = .error e ∧
      ∀ wildcard, reachFrom catalog path checked wildcard rest tree t segment = reject e := by
  constructor
  · cases rest <;> rw [findFrom, h] <;> rfl
  · intro wildcard
    cases rest <;> rw [reachFrom, if_neg hstar, h] <;> rfl

namespace Lies

theorem ne_star (h : tree.Lies checked (segment :: rest) t u found) : segment ≠ "*" := by
  cases h <;> assumption

theorem mem_tables (h : tree.Lies checked segments t u found) (ht : t ∈ tree.tables) :
    u ∈ tree.tables := by
  induction h with
  | field _ _ _ => exact ht
  | member _ _ _ _ => exact ht
  | relation _ _ _ hj =>
    exact List.mem_cons_of_mem _ (List.mem_map_of_mem (child?_eq_some hj).1)
  | through _ _ _ hj _ ih =>
    exact ih (List.mem_cons_of_mem _ (List.mem_map_of_mem (child?_eq_some hj).1))

/-- A path that lies in the tree is found. -/
theorem findFrom (h : tree.Lies checked (segment :: rest) t u found) :
    findFrom tree path checked rest t segment = .ok (u, found) := by
  induction rest generalizing t segment with
  | nil =>
    rw [JoinTree.findFrom]
    cases h with
    | @field _ _ f _ hf hrelation =>
      rw [hf]
      cases hk : f.kind with
      | relation r => exact absurd hrelation (by simp [Field.isRelation_iff.2 ⟨r, hk⟩])
      | basic _ | group _ => simp [bind, Except.bind, hk]
    | relation _ hf hk hj => simp [hf, bind, Except.bind, hk, hj]
  | cons next rest ih =>
    rw [JoinTree.findFrom]
    cases h with
    | member _ hf hk hb => simp [hf, bind, Except.bind, hk, hb]
    | through _ hf hk hj hrest => simp [hf, bind, Except.bind, hk, hj, ih hrest]

/-- Reaching a path that lies in the tree does nothing. Where wildcards are allowed, a member that is
named `*` gives way to one. -/
theorem reachFrom (h : tree.Lies checked (segment :: rest) t u found) (wildcard : Bool) :
    ∃ target, reachFrom catalog path checked wildcard rest tree t segment = pure (tree, u, target) ∧
      (wildcard = false → target = .found found) := by
  induction rest generalizing t segment with
  | nil =>
    cases h with
    | field hstar hf hrelation =>
      exact ⟨_, reachFrom_field hstar hf hrelation, fun _ => rfl⟩
    | @relation _ _ f _ j hstar hf hk hj =>
      refine ⟨.found (.field f), ?_, fun _ => rfl⟩
      rw [reachFrom_relation hstar hf hk, join, hj, pure_bind]
  | cons next rest ih =>
    cases h with
    | @member _ _ _ f g b hstar hf hk hb =>
      cases hwild : (next = "*" && wildcard : Bool) with
      | true =>
        obtain ⟨rfl, hwildcard⟩ : next = "*" ∧ wildcard = true := by simpa using hwild
        refine ⟨_, reachFrom_groupWildcard hstar hf hk hwildcard, fun hnot => ?_⟩
        exact absurd (hnot.symm.trans hwildcard) Bool.false_ne_true
      | false => exact ⟨_, reachFrom_member hstar hf hk hwild hb, fun _ => rfl⟩
    | through hstar hf hk hj hrest =>
      obtain ⟨target, hreach, htarget⟩ := ih hrest
      refine ⟨target, ?_, htarget⟩
      rw [reachFrom_through hstar hf hk, join, hj, pure_bind]
      exact hreach

/-- Whether permissions are minded or not, the path is one and the same, unless a name on it may not be
named. Then it is refused, with one error. -/
theorem rechecked (h : tree.Lies checked (segment :: rest) t u found) (checked' : Bool) :
    tree.Lies checked' (segment :: rest) t u found ∨
      ∃ e, JoinTree.findFrom tree path checked' rest t segment = .error e ∧
        ∀ wildcard, JoinTree.reachFrom catalog path checked' wildcard rest tree t segment =
          reject e := by
  induction rest generalizing t segment with
  | nil =>
    cases hf' : t.access.field segment checked' with
    | error e => exact .inr ⟨e, refused h.ne_star hf'⟩
    | ok f' =>
      cases h with
      | field hstar hf hrelation =>
        obtain rfl := Access.eq_of_field hf hf'
        exact .inl (.field hstar hf' hrelation)
      | relation hstar hf hk hj =>
        obtain rfl := Access.eq_of_field hf hf'
        exact .inl (.relation hstar hf' hk hj)
  | cons next rest ih =>
    cases hf' : t.access.field segment checked' with
    | error e => exact .inr ⟨e, refused h.ne_star hf'⟩
    | ok f' =>
      cases h with
      | member hstar hf hk hb =>
        obtain rfl := Access.eq_of_field hf hf'
        exact .inl (.member hstar hf' hk hb)
      | through hstar hf hk hj hrest =>
        obtain rfl := Access.eq_of_field hf hf'
        rcases ih hrest with hlies | ⟨e, hfind, hreach⟩
        · exact .inl (.through hstar hf' hk hj hlies)
        · refine .inr ⟨e, ?_, fun wildcard => ?_⟩
          · rw [JoinTree.findFrom, hf']
            simp [bind, Except.bind, hk, hj, hfind]
          · rw [reachFrom_through hstar hf' hk, join, hj, pure_bind]
            exact hreach wildcard

end Lies

/-! ## Reached paths -/

theorem Arrives.cores_prefix
    (h : Arrives catalog checked wildcard segments tree t p tree' t' target p') :
    tree.cores <+: tree'.cores := by
  have hjoined {tree tree₁ : JoinTree} {t : Table} {name : String} {r : Relation} {j : Joined}
      {p p₁ : Progress} (hjoin : (tree.join catalog t name r).run p = .ok (tree₁, j) p₁) :
      tree.cores <+: tree₁.cores := by
    obtain ⟨_, -, hgains⟩ := (join_gains t name r).exists_of_eq_ok hjoin
    exact hgains.cores_prefix
  induction h with
  | wildcard _ | field _ _ _ | groupWildcard _ _ _ _ | member _ _ _ _ _ => exact List.prefix_refl _
  | relation _ _ _ hjoin => exact hjoined hjoin
  | through _ _ _ hjoin _ ih => exact (hjoined hjoin).trans ih

/-- A path that has been reached lies in the tree, and in whatever the tree grows to. -/
theorem Arrives.lies (h : Arrives catalog checked false segments tree t p tree' t' target p')
    (hcores : tree'.cores <+: later.cores) (hs : s.core = t.core) :
    ∃ found u, target = .found found ∧ later.Lies checked segments s u found ∧
      u.core = t'.core := by
  have hpath : s.path = t.path := congrArg (fun c => c.1) hs
  have haccess : s.access = t.access := congrArg (fun c => c.2.2) hs
  induction h generalizing s with
  | wildcard hallowed => exact absurd hallowed Bool.false_ne_true
  | groupWildcard hallowed => exact absurd hallowed Bool.false_ne_true
  | field hstar hf hrelation =>
    exact ⟨_, s, rfl, .field hstar (haccess ▸ hf) hrelation, hs⟩
  | member hstar hf hk _ hb =>
    exact ⟨_, s, rfl, .member hstar (haccess ▸ hf) hk hb, hs⟩
  | relation hstar hf hk hjoin =>
    obtain ⟨j', hj', hcore⟩ := child?_mono hcores hpath (join_child? hjoin)
    exact ⟨_, j'.toTable, rfl, .relation hstar (haccess ▸ hf) hk hj', hcore⟩
  | through hstar hf hk hjoin hrest ih =>
    obtain ⟨j', hj', hcore⟩ :=
      child?_mono (hrest.cores_prefix.trans hcores) hpath (join_child? hjoin)
    obtain ⟨found, u, htarget, hlies, hu⟩ := ih hcores hcore
      (congrArg (fun c => c.1) hcore) (congrArg (fun c => c.2.2) hcore)
    exact ⟨found, u, htarget, .through hstar (haccess ▸ hf) hk hj' hlies, hu⟩

/-! ## What is done to a tree later -/

/-- Something is done to a tree, and succeeds: a path is reached from some table, a task is done, or it
is said of the root which rows it reads, or where the tree has its place. -/
inductive Changes (catalog : Catalog) (tree : JoinTree) : JoinTree → Prop where
  | reach {t t' : Table} {path : String} {checked wildcard : Bool} {p p' : Progress}
      {tree' : JoinTree} {target : Target} :
      (tree.reach catalog t path checked wildcard).run p = .ok (tree', t', target) p' →
      Changes catalog tree tree'
  | task {task : Task} {p p' : Progress} {tree' : JoinTree} :
      (task.run catalog tree).run p = .ok tree' p' → Changes catalog tree tree'
  | ignoreDeleted (ignoreDeleted : Bool) :
      Changes catalog tree { tree with root := { tree.root with ignoreDeleted } }
  | place (place : Option JoinPlace) : Changes catalog tree { tree with place }

theorem Task.gains (task : Task) : Reports tree.Gains (task.run catalog tree) := by
  cases task with
  | addJoins joins => exact addJoins_gains
  | addPaths paths checked => exact addPaths_gains
  | select paths => exact select_gains
  | addEnforcedPaths => exact addEnforcedPaths_gains

theorem Changes.cores_prefix (h : Changes catalog tree tree') : tree.cores <+: tree'.cores := by
  cases h with
  | reach h =>
    obtain ⟨new, -, hgains⟩ := reachFrom_gains.exists_of_eq_ok h
    exact hgains.cores_prefix
  | task h =>
    obtain ⟨new, -, hgains⟩ := (Task.gains _).exists_of_eq_ok h
    exact hgains.cores_prefix
  | ignoreDeleted _ => exact List.prefix_refl _
  | place _ => exact List.prefix_refl _

/-- A table stays, whatever is done to its tree. -/
theorem cores_prefix_of_changes (h : Relation.ReflTransGen (Changes catalog) tree later) :
    tree.cores <+: later.cores := by
  induction h with
  | refl => exact List.prefix_refl _
  | tail _ h ih => exact ih.trans h.cores_prefix

/-- Once a path has been reached from a table, it leads from there to one and the same table and field
or member, whatever else is done to the tree. Finding it says so, and reaching it again does nothing:
no table is joined, no number drawn and nothing reported. With or without regard to permissions, and
whether a wildcard might have stood in it or not, it is that table or a refusal. -/
theorem find_reached (ht : t ∈ tree.tables)
    (h : (tree.reach catalog t path checked false).run p = .ok (tree', t', target) p') :
    ∃ found, target = .found found ∧
      ∀ later, Relation.ReflTransGen (Changes catalog) tree' later →
        (∃ s ∈ later.tables, s.core = t.core) ∧
        ∀ s ∈ later.tables, s.core = t.core → ∃ u ∈ later.tables, u.core = t'.core ∧
          later.find s path checked = .ok (u, found) ∧
          later.reach catalog s path checked false = pure (later, u, .found found) ∧
          ∀ checked' : Bool,
            (later.find s path checked' = .ok (u, found) ∧ ∀ wildcard, ∃ target',
              later.reach catalog s path checked' wildcard = pure (later, u, target')) ∨
            ∃ e, later.find s path checked' = .error e ∧ ∀ wildcard,
              later.reach catalog s path checked' wildcard = reject e := by
  obtain ⟨new, -, hgains⟩ := reachFrom_gains.exists_of_eq_ok h
  obtain ⟨found, -, htarget, -, -⟩ := (arrives_of_run h).lies (List.prefix_refl _) rfl
  refine ⟨found, htarget, fun later hlater => ⟨?_, fun s hs hcore => ?_⟩⟩
  · have hmem : t.core ∈ later.cores :=
      (cores_prefix_of_changes hlater).subset (hgains.cores_prefix.subset (List.mem_map_of_mem ht))
    obtain ⟨s, hs, hcore⟩ := List.mem_map.1 hmem
    exact ⟨s, hs, hcore⟩
  · obtain ⟨found', u, htarget', hlies, hu⟩ :=
      (arrives_of_run h).lies (cores_prefix_of_changes hlater) hcore
    obtain rfl : found' = found := Target.found.inj (htarget'.symm.trans htarget)
    obtain ⟨_, hagain, hsame⟩ : ∃ target, later.reach catalog s path checked false =
        pure (later, u, target) ∧ (false = false → target = .found found') := hlies.reachFrom false
    obtain rfl := hsame rfl
    refine ⟨u, hlies.mem_tables hs, hu, hlies.findFrom, hagain, fun checked' => ?_⟩
    refine (hlies.rechecked checked').imp (fun hlies' => ⟨hlies'.findFrom, fun wildcard => ?_⟩) id
    exact (hlies'.reachFrom wildcard).imp fun _ hreach => hreach.1

/-- The manager's manager is the third table of a query, and stays it while the manager is joined
explicitly, reports are selected and deleted employees are let in. -/
theorem teams_find_reached : ∃ (tree tree' later : JoinTree) (t' : Table) (target : Target)
    (p p' : Progress),
    (tree.reach teams tree.root "manager.manager.name" true false).run p =
      .ok (tree', t', target) p' ∧
    Relation.ReflTransGen (Changes teams) tree' later ∧
    tree.numbers = [0] ∧ tree'.numbers = [0, 1, 2] ∧ later.numbers = [0, 1, 2, 3] ∧
    ∃ u ∈ later.tables, u.number = 2 ∧
      later.find later.root "manager.manager.name" true =
        .ok (u, .field ⟨"name", .basic ⟨"name", "name", true⟩⟩) ∧
      later.reach teams later.root "manager.manager.name" true false =
        pure (later, u, .found (.field ⟨"name", .basic ⟨"name", "name", true⟩⟩)) := by
  obtain ⟨access, haccess⟩ : ∃ access, teams.access "Employee" = .ok access := ⟨_, rfl⟩
  obtain ⟨tree, p, hstart⟩ : ∃ tree p, (JoinTree.single access).run {} = .ok tree p := ⟨_, _, rfl⟩
  obtain ⟨tree', t', target, p', hreach⟩ : ∃ tree' t' target p',
      (tree.reach teams tree.root "manager.manager.name" true false).run p =
        .ok (tree', t', target) p' := by
    cases haccess; cases hstart; exact ⟨_, _, _, _, rfl⟩
  obtain ⟨joined, q, hjoined⟩ : ∃ joined q, (Task.run teams tree'
      (.addJoins [{ path := "manager", type := .inner }])).run p' = .ok joined q := by
    cases haccess; cases hstart; cases hreach; exact ⟨_, _, rfl⟩
  obtain ⟨selected, q', hselected⟩ : ∃ selected q', (Task.run teams joined
      (.select (some ["reports.name"]))).run q = .ok selected q' := by
    cases haccess; cases hstart; cases hreach; cases hjoined; exact ⟨_, _, rfl⟩
  have hlater : Relation.ReflTransGen (Changes teams) tree'
      { selected with root := { selected.root with ignoreDeleted := true } } :=
    ((Relation.ReflTransGen.single (.task hjoined)).tail (.task hselected)).tail
      (.ignoreDeleted true)
  obtain ⟨found, hfound, hall⟩ := find_reached List.mem_cons_self hreach
  obtain ⟨u, hu, hcore, hfind, hagain, -⟩ := (hall _ hlater).2 _ List.mem_cons_self (by
    cases haccess; cases hstart; cases hreach; cases hjoined; cases hselected; rfl)
  obtain ⟨hnumber, hname⟩ : t'.number = 2 ∧
      target = .found (.field ⟨"name", .basic ⟨"name", "name", true⟩⟩) := by
    cases haccess; cases hstart; cases hreach; exact ⟨rfl, rfl⟩
  obtain rfl := Target.found.inj (hfound.symm.trans hname)
  refine ⟨tree, tree', _, t', target, p, p', hreach, hlater, ?_, ?_, ?_, u, hu, ?_, hfind, hagain⟩
  · cases haccess; cases hstart; rfl
  · cases haccess; cases hstart; cases hreach; rfl
  · cases haccess; cases hstart; cases hreach; cases hjoined; cases hselected; rfl
  · exact (congrArg (fun c => c.2.1) hcore).trans hnumber

end JoinTree
end QueryCompiler
