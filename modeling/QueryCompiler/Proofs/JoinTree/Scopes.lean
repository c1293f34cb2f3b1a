import QueryCompiler.Proofs.JoinTree.Explicit

/-!
# What scopes stand for

One lemma for each thing that is looked up in a scope: the column at a path, the relationship at a
path, and the subquery over it; and one for the join of a table. A table that stands alone has columns
only.
-/

namespace QueryCompiler

open Build

/-- The segments name a column of the model; if `checked`, one that the caller may name. -/
inductive Access.Shows (a : Access) (checked : Bool) : List String → BasicField → Prop where
  | field {name : String} {f : Field} {b : BasicField} : a.field name checked = .ok f →
      f.kind = .basic b → a.Shows checked [name] b
  | member {name next : String} {f : Field} {g : GroupField} {b : BasicField} :
      a.field name checked = .ok f → f.kind = .group g → g.member? next = some b →
      a.Shows checked [name, next] b

variable {catalog : Catalog} {p p' : Progress} {path : String}

namespace JoinTree

variable {names : Names Scope} {tree : JoinTree}

theorem clause_eq_ok {j : Joined} {clause : JoinClause Predicate}
    (h : (tree.clause catalog names j).run p = .ok clause p') :
    ∃ q, j.link.equalities j.toTable = .ok clause.link ∧ clause.type = j.type ∧
      clause.model = j.access.model ∧ clause.number = j.number ∧
      (tree.enforced catalog names j.toTable (joinMark j.toTable)).run p =
        .ok clause.filter.enforced q ∧
      (Condition.resolve? catalog.dialect names j.condition ⟨tree, j.toTable, true⟩
        (joinMark j.toTable ++ "1")).run q = .ok clause.filter.requested p' := by
  rw [JoinTree.clause] at h
  obtain ⟨link, _, hrun, h⟩ := run_bind_eq_ok.1 h
  obtain ⟨hlink, rfl⟩ := run_ofExcept_eq_ok.1 hrun
  obtain ⟨filter, _, hfilter, h⟩ := run_bind_eq_ok.1 h
  obtain ⟨rfl, rfl⟩ := run_pure_eq_ok.1 h
  obtain ⟨held, q, hheld, hfilter⟩ := run_bind_eq_ok.1 hfilter
  obtain ⟨asked, _, hasked, hfilter⟩ := run_bind_eq_ok.1 hfilter
  obtain ⟨rfl, rfl⟩ := run_pure_eq_ok.1 hfilter
  exact ⟨q, hlink, rfl, rfl, rfl, hheld, hasked⟩

end JoinTree

namespace Scope

variable {s : Scope}

/-- A path stands for a column of the table that its relationships lead to. -/
theorem column_eq_ok (hw : s.tree.Walked catalog false) (ht : s.tree.Has s.table) {column : Column}
    (h : s.column path = .ok column) : ∃ t hops last b, s.tree.Has t ∧ Path.all path = hops ++ last ∧
      t.path = s.table.path ++ hops ∧
      catalog.walk? s.checked s.table.access hops = some t.access ∧
      t.access.Shows s.checked last b ∧ column = ⟨.table t.number, b.column⟩ := by
  rw [Scope.column] at h
  obtain ⟨⟨t, found⟩, hfind, h⟩ := except_bind_eq_ok.1 h
  obtain ⟨hhas, hops, last, hall, hpath, hwalk, hends⟩ := JoinTree.find_eq_ok hw ht hfind
  have hshows : ∃ b, t.access.Shows s.checked last b ∧ column = ⟨.table t.number, b.column⟩ := by
    cases hends with
    | @relation f hf =>
      obtain ⟨r, hk⟩ := Field.isRelation_iff.1 hf
      simp only [hk] at h
      exact absurd h nofun
    | @field name f hf _ =>
      cases hk : f.kind with
      | relation r => simp only [hk] at h; exact absurd h nofun
      | basic b =>
        simp only [hk] at h
        exact ⟨b, .field hf hk, (Except.ok.inj h).symm⟩
      | group g => simp only [hk] at h; exact absurd h nofun
    | @member name next f g b hf hk hb => exact ⟨b, .member hf hk hb, (Except.ok.inj h).symm⟩
  obtain ⟨b, hb, hcolumn⟩ := hshows
  exact ⟨t, hops, last, b, hhas, hall, hpath, hwalk, hb, hcolumn⟩

/-- The relationship at a path is one of the table that the segments before it lead to. -/
theorem link_eq_ok (hw : s.tree.Walked catalog false) (ht : s.tree.Has s.table) {link : Link}
    (h : s.link path = .ok link) : ∃ t hops name f r, s.tree.Has t ∧
      Path.all path = hops ++ [name] ∧ t.path = s.table.path ++ hops ∧
      catalog.walk? s.checked s.table.access hops = some t.access ∧
      t.access.field name s.checked = .ok f ∧ f.kind = .relation r ∧
      link = ⟨name, r, t.number, t.access.model⟩ := by
  rw [Scope.link] at h
  obtain ⟨⟨t, name⟩, howner, h⟩ := except_bind_eq_ok.1 h
  obtain ⟨f, hf, h⟩ := except_bind_eq_ok.1 h
  cases hk : f.kind with
  | basic b => simp only [hk] at h; exact absurd h nofun
  | group g => simp only [hk] at h; exact absurd h nofun
  | relation r =>
    simp only [hk] at h
    obtain rfl := Except.ok.inj h
    rw [Scope.owner] at howner
    split at howner
    case h_1 hsplit =>
      cases howner
      refine ⟨s.table, [], path, f, r, ht, ?_, (List.append_nil _).symm, rfl, hf, hk, rfl⟩
      exact Path.all_of_splitLast_eq_none hsplit
    case h_2 before last hsplit =>
      obtain ⟨⟨t₁, found⟩, hfind, howner⟩ := except_bind_eq_ok.1 howner
      obtain ⟨hhas, hleads⟩ := JoinTree.find_eq_ok hw ht hfind
      simp only at howner
      split at howner
      case isFalse => exact absurd howner nofun
      case isTrue hrelation =>
        cases howner
        obtain ⟨hpath, hwalk⟩ := hleads.of_relation hrelation
        refine ⟨t, Path.all before, name, f, r, hhas, ?_, hpath, hwalk, hf, hk, rfl⟩
        exact Path.all_of_splitLast_eq_some hsplit

theorem subquery_eq {names : Names Scope} {joins : List Join} {paths : List String} (s : Scope)
    (path : String) :
    s.subquery catalog names path joins paths = (do
      let link ← Build.ofExcept (s.link path)
      let access ← Build.ofExcept (catalog.target link.parentModel link.name link.relation)
      Build.report (.subquery access.model.name)
      let tree ← JoinTree.ofSubquery catalog access joins paths s.checked
      let equalities ← Build.ofExcept (link.equalities tree.root)
      let clauses ← tree.clauses catalog names
      let enforced ← tree.enforced catalog names tree.root (JoinTree.joinMark tree.root)
      return (⟨access.model, tree.root.number, equalities, clauses, enforced⟩,
        ⟨tree, tree.root, s.checked⟩)) := by
  simp only [subquery, JoinTree.ofSubquery, bind_assoc]

theorem subquery_eq_ok {names : Names Scope} {joins : List Join} {paths : List String}
    {body : Subquery Predicate} {s' : Scope}
    (h : (s.subquery catalog names path joins paths).run p = .ok (body, s') p') :
    ∃ link access tree q q', s.link path = .ok link ∧
      catalog.target link.parentModel link.name link.relation = .ok access ∧
      JoinTree.Made catalog s.checked access joins p.nextNumber tree q.nextNumber ∧
      tree.Serves catalog false (Keyed.sortBy JoinOf.path joins) ∧
      body.model = access.model ∧ body.number = tree.root.number ∧
      link.equalities tree.root = .ok body.link ∧
      (tree.clauses catalog names).run q = .ok body.joins q' ∧
      (tree.enforced catalog names tree.root (JoinTree.joinMark tree.root)).run q' =
        .ok body.enforced p' ∧ s' = ⟨tree, tree.root, s.checked⟩ := by
  rw [subquery_eq] at h
  obtain ⟨link, _, hrun, h⟩ := run_bind_eq_ok.1 h
  obtain ⟨hlink, rfl⟩ := run_ofExcept_eq_ok.1 hrun
  obtain ⟨access, _, hrun', h⟩ := run_bind_eq_ok.1 h
  obtain ⟨htarget, rfl⟩ := run_ofExcept_eq_ok.1 hrun'
  obtain ⟨_, _, hreport, h⟩ := run_bind_eq_ok.1 h
  rw [run_report] at hreport
  obtain ⟨-, rfl⟩ := EStateM.Result.ok.inj hreport
  obtain ⟨tree, q, htree, h⟩ := run_bind_eq_ok.1 h
  obtain ⟨equalities, _, hrun'', h⟩ := run_bind_eq_ok.1 h
  obtain ⟨hequalities, rfl⟩ := run_ofExcept_eq_ok.1 hrun''
  obtain ⟨clauses, q', hclauses, h⟩ := run_bind_eq_ok.1 h
  obtain ⟨enforced, _, henforced, h⟩ := run_bind_eq_ok.1 h
  obtain ⟨heq, rfl⟩ := run_pure_eq_ok.1 h
  obtain ⟨rfl, rfl⟩ := Prod.mk.inj heq
  have hmade := JoinTree.ofSubquery_made htree
  exact ⟨link, access, tree, q, q', hlink, htarget, hmade, JoinTree.ofSubquery_serves htree, rfl,
    rfl, hequalities, hclauses, henforced, rfl⟩

end Scope

theorem Names.ofTable_column_eq_ok {a : Access} {qualifier : Qualifier} {checked : Bool}
    {column : Column} (h : (Names.ofTable a qualifier).column checked path = .ok column) :
    ∃ b, a.Shows checked ((Path.splitFirst path).1 :: (Path.splitFirst path).2.toList) b ∧
      column = ⟨qualifier, b.column⟩ := by
  rcases hsplit : Path.splitFirst path with ⟨name, rest⟩
  simp only [Names.ofTable, hsplit] at h
  obtain ⟨f, hf, h⟩ := except_bind_eq_ok.1 h
  cases hk : f.kind with
  | relation r => simp only [hk] at h; exact absurd h nofun
  | basic b =>
    cases rest with
    | some rest => simp only [hk] at h; exact absurd h nofun
    | none =>
      simp only [hk] at h
      exact ⟨b, .field hf hk, (Except.ok.inj h).symm⟩
  | group g =>
    cases rest with
    | none => simp only [hk] at h; exact absurd h nofun
    | some next =>
      simp only [hk] at h
      cases hb : g.member? next with
      | none => simp only [hb] at h; exact absurd h nofun
      | some b =>
        simp only [hb] at h
        exact ⟨b, .member hf hk hb, (Except.ok.inj h).symm⟩

end QueryCompiler
