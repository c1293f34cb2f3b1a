import QueryCompiler.Proofs.Access.Grounded
import QueryCompiler.Proofs.Build.Resolve

/-!
# Resolved conditions are grounded

A condition that is resolved with the caller's permissions in mind reads what its paths lead to. The
induction is on how deep subqueries may nest, and for each depth on the condition: the inner condition
of a subquery is resolved at the depth of the condition around it, the conditions of its joins one
below.
-/

namespace QueryCompiler

open Build

variable {catalog : Catalog} {p p' : Progress}

namespace JoinTree

theorem Sound.reachable {a : Access} {joins : List Join} {tree : JoinTree}
    (h : Sound catalog a joins tree) :
    Reachable catalog a joins tree.root (tree.inOrder.map Joined.toTable) where
  path := h.path
  access := h.access
  explicit join hjoin := by
    obtain ⟨t, ht, hpath, hwalk⟩ := h.explicit join hjoin
    obtain ⟨t', ht', hpath', -, haccess⟩ := ht.listed
    exact ⟨t', ht', hpath'.trans hpath, by rw [hpath', haccess]; exact hwalk⟩
  others t ht := by
    have hmem : t ∈ tree.tables := tree.listed_perm.subset (List.mem_cons_of_mem _ ht)
    refine (h.others t (List.mem_map_of_mem hmem)).imp_right ?_
    rintro ⟨owner, howner, hwalk, hforced⟩
    exact ⟨owner, tree.listed_perm.symm.subset howner, hwalk, hforced⟩

end JoinTree

namespace Scope

/-- A scope of the caller over a tree that stands where its paths lead. -/
structure Minded (catalog : Catalog) (s : Scope) : Prop where
  checked : s.checked = true
  walked : s.tree.Walked catalog false
  has : s.tree.Has s.table

/-- Where the paths of a scope are read. -/
def view (s : Scope) : View :=
  .tables s.tree.listed s.table

variable {s : Scope} {path : String}

theorem Minded.reads (h : s.Minded catalog) {column : Column} (hc : s.column path = .ok column) :
    s.view.Reads catalog path column := by
  obtain ⟨t, hops, last, b, hhas, hall, hpath, hwalk, hshows, rfl⟩ :=
    Scope.column_eq_ok h.walked h.has hc
  rw [h.checked] at hwalk hshows
  obtain ⟨t', ht', hpath', hnumber, haccess⟩ := hhas.listed
  refine ⟨hops, last, t', b, hall, ht', hpath'.trans hpath, ?_, haccess ▸ hshows, ?_⟩
  · rw [haccess]; exact hwalk
  · rw [hnumber]

theorem Minded.relates (h : s.Minded catalog) {link : Link} {target : Access}
    (hlink : s.link path = .ok link)
    (htarget : catalog.target link.parentModel link.name link.relation = .ok target) :
    s.view.Relates catalog path target := by
  obtain ⟨t, hops, name, f, r, hhas, hall, hpath, hwalk, hf, hk, rfl⟩ :=
    Scope.link_eq_ok h.walked h.has hlink
  rw [h.checked] at hwalk hf
  obtain ⟨t', ht', hpath', -, haccess⟩ := hhas.listed
  refine ⟨hops, name, t', hall, ht', hpath'.trans hpath, ?_, ?_⟩
  · rw [haccess]; exact hwalk
  · rw [haccess]; exact Catalog.hop?_eq_some.2 ⟨f, r, hf, hk, htarget⟩

end Scope

/-! ## Conditions over faithful names -/

/-- What names stand for, in scopes that mind the caller's permissions, is what a view reads. -/
structure Names.Faithful {σ : Type} (catalog : Catalog) (names : Names σ) (minded : σ → Prop)
    (view : σ → View) : Prop where
  column : ∀ {s path column}, minded s → names.column s path = .ok column →
    (view s).Reads catalog path column
  subquery : ∀ {s path joins paths body s' p p'}, minded s →
    (names.subquery s path joins paths).run p = .ok (body, s') p' →
    ∃ a root rest, (view s).Relates catalog path a ∧ Reachable catalog a joins root rest ∧
      body.model = a.model ∧ body.number = root.number ∧
      GroundedJoins catalog (root :: rest) joins body.joins rest ∧
      minded s' ∧ view s' = .tables (root :: rest) root

namespace Condition

variable {σ : Type} {d : Dialect} {names : Names σ} {minded : σ → Prop} {view : σ → View}

theorem fill_reads (hn : names.Faithful catalog minded view) {s : σ} (hs : minded s)
    {template : String} {paths : List String} {base : String} {sql : Filled}
    (h : names.fill s template paths base = .ok sql) :
    ∃ columns, List.Forall₂ ((view s).Reads catalog) paths columns ∧
      sql = ⟨template, columns, Params.valuePath base⟩ := by
  obtain ⟨columns, hcolumns, rfl⟩ := Names.fill_iff.1 h
  exact ⟨columns, hcolumns.imp fun path column hc => hn.column hs hc, rfl⟩

mutual

theorem resolve_grounded (hn : names.Faithful catalog minded view) :
    ∀ (c : Condition) {s : σ} {base : String} {r : Predicate} {p p' : Progress}, minded s →
      (c.resolve d names s base).run p = .ok r p' → Grounded catalog (view s) c r
  | .compare path op value skipEmpty, s, base, r, p, p', hs, h => by
    obtain ⟨-, ⟨hnothing, rfl⟩ | ⟨-, column, hc, hr⟩⟩ := resolve_compare_eq_ok.1 h
    · exact .nothing hnothing
    · exact .compare (hn.column hs hc) hr
  | .group k members, s, base, r, p, p', hs, h => by
    obtain ⟨parts, hparts, rfl⟩ := resolve_group_eq_ok.1 h
    exact .group (resolveMembers_grounded hn members hs hparts)
  | .negate inner, s, base, r, p, p', hs, h => by
    obtain ⟨q, hq, rfl⟩ := resolve_negate_eq_ok.1 h
    exact .negate (resolve_grounded hn inner hs hq)
  | .custom template paths value, s, base, r, p, p', hs, h => by
    obtain ⟨-, sql, hfill, rfl⟩ := resolve_custom_eq_ok.1 h
    obtain ⟨columns, hcolumns, rfl⟩ := fill_reads hn hs hfill
    exact .custom hcolumns
  | .search path value mode, s, base, r, p, p', hs, h => by
    obtain ⟨-, template, -, sql, hfill, rfl⟩ := resolve_search_eq_ok.1 h
    obtain ⟨columns, hcolumns, rfl⟩ := fill_reads hn hs hfill
    cases hcolumns with
    | cons hcolumn hnil =>
      cases hnil
      exact .search hcolumn
  | .related path inner joins negated, s, base, r, p, p', hs, h => by
    obtain ⟨hempty, -, rfl⟩ | ⟨-, body, s', mid, q, hbody, hq, rfl⟩ := resolve_related_eq_ok.1 h
    · exact .nowhere hempty
    · obtain ⟨a, root, rest, hrelates, hreach, hmodel, hnumber, hjoins, hs', hview⟩ :=
        hn.subquery hs hbody
      obtain ⟨model, number, link, clauses, enforced⟩ := body
      obtain rfl : model = a.model := hmodel
      obtain rfl : number = root.number := hnumber
      cases inner with
      | none =>
        obtain ⟨rfl, -⟩ := run_pure_eq_ok.1 hq
        exact .some hrelates hreach hjoins
      | some inner =>
        exact .meeting hrelates hreach hjoins (hview ▸ resolve_grounded hn inner hs' hq)

theorem resolveMembers_grounded (hn : names.Faithful catalog minded view) :
    ∀ (cs : List Condition) {s : σ} {base : String} {i : Nat} {rs : List Predicate}
      {p p' : Progress}, minded s → (resolveMembers d names cs s base i).run p = .ok rs p' →
      GroundedAll catalog (view s) cs rs
  | [], s, base, i, rs, p, p', _, h => by
    obtain ⟨-, rfl⟩ := resolveMembers_nil_eq_ok.1 h
    exact .nil
  | c :: cs, s, base, i, rs, p, p', hs, h => by
    obtain ⟨r, mid, rs', hr, hrs, rfl⟩ := resolveMembers_cons_eq_ok.1 h
    exact .cons (resolve_grounded hn c hs hr) (resolveMembers_grounded hn cs hs hrs)

end
end Condition

/-! ## Joins and subqueries -/

namespace JoinTree

variable {names : Names Scope} {a : Access} {joins : List Join} {tree : JoinTree}

theorem Sound.minded (h : Sound catalog a joins tree) {t : Table} (ht : tree.Has t) :
    Scope.Minded catalog ⟨tree, t, true⟩ :=
  ⟨rfl, h.walked, ht⟩

theorem clauses_grounded (hn : names.Faithful catalog (Scope.Minded catalog) Scope.view)
    (hsound : Sound catalog a joins tree) {clauses : List (JoinClause Predicate)}
    (h : (tree.clauses catalog names).run p = .ok clauses p') :
    GroundedJoins catalog tree.listed joins clauses (tree.inOrder.map Joined.toTable) := by
  have hmem : ∀ j ∈ tree.inOrder, j ∈ tree.joined := fun j hj => tree.inOrder_perm.subset hj
  have hruns := run_mapM h
  clear h
  generalize tree.inOrder = js at hruns hmem
  induction hruns with
  | nil => exact .nil
  | @cons j clause js clauses hrun _ ih =>
    have hrest := ih fun j' hj' => hmem j' (List.mem_cons_of_mem _ hj')
    have hj := hmem j List.mem_cons_self
    obtain ⟨q, q', hclause⟩ := hrun
    obtain ⟨_, -, -, hmodel, hnumber, -, hasked⟩ := JoinTree.clause_eq_ok hclause
    cases hc : j.condition with
    | none =>
      rw [hc] at hasked
      obtain ⟨habsent, -⟩ := run_pure_eq_ok.1 hasked
      exact .silent hnumber hmodel habsent.symm hrest
    | some c =>
      rw [hc] at hasked
      obtain ⟨join, hjoin, hcondition, hpath⟩ := hsound.settled.conditions j hj c hc
      have hview := c.resolve_grounded hn (hsound.minded (.of_mem hj)) hasked
      exact .asking hnumber hmodel hjoin hcondition hpath hview hrest

end JoinTree

/-- At every depth, the names of a join tree are what the caller may read. -/
theorem Names.faithful_ofTree (depth : Nat) :
    (Names.ofTree catalog depth).Faithful catalog (Scope.Minded catalog) Scope.view := by
  induction depth with
  | zero => exact ⟨fun hs hc => hs.reads hc, fun _ h => absurd h nofun⟩
  | succ depth ih =>
    refine ⟨fun hs hc => hs.reads hc, ?_⟩
    intro s path joins paths body s' p p' hs h
    change (s.subquery catalog (Names.ofTree catalog depth) path joins paths).run p = _ at h
    obtain ⟨link, access, tree, _, _, hlink, htarget, hmade, -, hmodel, hnumber, -, hclauses, -, rfl⟩ :=
      Scope.subquery_eq_ok h
    have hsound := (hs.checked ▸ hmade).sound
    refine ⟨access, tree.root, tree.inOrder.map Joined.toTable, hs.relates hlink htarget,
      hsound.reachable, hmodel, hnumber, JoinTree.clauses_grounded ih hsound hclauses, ?_, rfl⟩
    exact ⟨hs.checked, hsound.walked, .root⟩

theorem Names.faithful_ofTable (a : Access) (qualifier : Qualifier) :
    (Names.ofTable a qualifier).Faithful catalog (· = true) fun _ => .alone a qualifier := by
  refine ⟨?_, fun _ h => absurd h nofun⟩
  rintro s path column rfl hc
  exact Names.ofTable_column_eq_ok hc

end QueryCompiler
