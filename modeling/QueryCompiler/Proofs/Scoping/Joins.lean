import QueryCompiler.Proofs.Scoping.Resolve
import QueryCompiler.Proofs.Hierarchy.Table

/-!
# What joins name

The joins of a query name columns of its tables only, whatever the depth to which subqueries may nest.
The tables of a query have the numbers that were drawn while its tree was made, and the numbers that
their conditions draw come after these.
-/

namespace QueryCompiler

open Build

variable {catalog : Catalog} {names : Names Scope} {tree : JoinTree} {p p' : Progress}

/-- Steps over the items of a list that draw numbers one after the other. What holds of every step
that begins with the number `p.nextNumber` or a later one holds of each of them. -/
theorem Build.run_mapM_from {α β : Type} {f : α → Build β} {R : α → Nat → Nat → β → Prop}
    {as : List α} {bs : List β}
    (hf : ∀ a ∈ as, ∀ {q q' : Progress} {b : β}, p.nextNumber ≤ q.nextNumber →
      (f a).run q = .ok b q' → q.nextNumber ≤ q'.nextNumber ∧ R a q.nextNumber q'.nextNumber b)
    (h : (as.mapM f).run p = .ok bs p') : p.nextNumber ≤ p'.nextNumber ∧
      List.Forall₂ (fun a b => ∃ lo hi, p.nextNumber ≤ lo ∧ hi ≤ p'.nextNumber ∧ R a lo hi b) as bs := by
  induction as generalizing bs p with
  | nil =>
    rw [List.mapM_nil] at h
    obtain ⟨rfl, rfl⟩ := run_pure_eq_ok.1 h
    exact ⟨le_rfl, .nil⟩
  | cons a as ih =>
    rw [List.mapM_cons] at h
    obtain ⟨b, q, hb, h⟩ := run_bind_eq_ok.1 h
    obtain ⟨bs', q', hbs, h⟩ := run_bind_eq_ok.1 h
    obtain ⟨rfl, rfl⟩ := run_pure_eq_ok.1 h
    obtain ⟨hle, hR⟩ := hf a List.mem_cons_self le_rfl hb
    obtain ⟨hle', hRs⟩ := ih (fun a ha _ _ _ hq => hf a (List.mem_cons_of_mem _ ha) (hle.trans hq)) hbs
    refine ⟨hle.trans hle', .cons ⟨_, _, le_rfl, hle', hR⟩ (hRs.imp ?_)⟩
    rintro a b ⟨lo, hi, hlo, hhi, hR⟩
    exact ⟨lo, hi, hle.trans hlo, hhi, hR⟩

theorem forall₂_split {α β : Type} {R : α → β → Prop} {as : List α} {before after : List β} {b : β}
    (h : List.Forall₂ R as (before ++ b :: after)) : ∃ front a back, as = front ++ a :: back ∧
      List.Forall₂ R front before ∧ R a b ∧ List.Forall₂ R back after := by
  have hfront := List.forall₂_take_append as before (b :: after) h
  have hrest := List.forall₂_drop_append as before (b :: after) h
  obtain ⟨a, back, hab, hback, hdrop⟩ := List.forall₂_cons_right_iff.1 hrest
  exact ⟨_, a, back, by rw [← hdrop, List.take_append_drop], hfront, hab, hback⟩

theorem JoinTree.Made.numbers {checked : Bool} {access : Access} {joins : List Join} {n n' : Nat}
    (h : Made catalog checked access joins n tree n') :
    n < n' ∧ ∀ m ∈ tree.numbers, n ≤ m ∧ m < n' := by
  obtain ⟨start, hstart, hgrows⟩ := h.growsTo
  obtain ⟨hle, new, hnew, -, hrange⟩ := hgrows.numbers
  have hle : n + 1 ≤ n' := hle
  have hnew : tree.numbers = start.numbers ++ new := hnew
  refine ⟨hle, fun m hm => ?_⟩
  rw [hnew, hstart.numbers_eq, List.mem_append, List.mem_singleton] at hm
  rcases hm with rfl | hm
  · exact ⟨le_rfl, hle⟩
  · obtain ⟨hlo, hhi⟩ := hrange m hm
    have hlo : n + 1 ≤ m := hlo
    exact ⟨by omega, hhi⟩

/-! ## Joins -/

/-- The join of a table, whose conditions draw the numbers from `lo` on and below `hi`. -/
structure JoinClause.SeenFrom (catalog : Catalog) (tree : JoinTree) (j : Joined) (lo hi : Nat)
    (clause : JoinClause Predicate) : Prop extends clause.ReadsOn tree j where
  opened : ∀ n ∈ clause.filter.opened, lo ≤ n ∧ n < hi
  ons : ∀ on ∈ clause.filter.ons, on.Stands catalog

/-- The clauses are the joins of the tables, whose conditions draw numbers from `lo` on and below
`hi`. -/
def JoinClause.AllSeen (catalog : Catalog) (tree : JoinTree) (lo hi : Nat) (js : List Joined)
    (clauses : List (JoinClause Predicate)) : Prop :=
  List.Forall₂ (fun j clause => ∃ lo' hi', lo ≤ lo' ∧ hi' ≤ hi ∧
    JoinClause.SeenFrom catalog tree j lo' hi' clause) js clauses

theorem JoinClause.AllSeen.numbers {lo hi : Nat} {js : List Joined}
    {clauses : List (JoinClause Predicate)}
    (h : JoinClause.AllSeen catalog tree lo hi js clauses) :
    clauses.map JoinClause.number = js.map fun j => j.number := by
  induction h with
  | nil => rfl
  | cons hseen _ ih =>
    obtain ⟨_, _, -, -, hseen⟩ := hseen
    rw [List.map_cons, List.map_cons, ih, hseen.number]

/-- The joins of a query over the tables of a tree. -/
structure JoinTree.JoinsSeen (catalog : Catalog) (tree : JoinTree) (lo hi : Nat)
    (clauses : List (JoinClause Predicate)) : Prop where
  le : lo ≤ hi
  walked : tree.Walked catalog false
  isTree : tree.IsTree
  all : JoinClause.AllSeen catalog tree lo hi tree.inOrder clauses

namespace JoinTree

theorem number_mem_numbers {j : Joined} (hj : j ∈ tree.inOrder) : j.number ∈ tree.numbers := by
  have hhas : tree.Has j.toTable := .of_mem (tree.inOrder_perm.subset hj)
  exact List.mem_map_of_mem (f := fun c => c.2.1) hhas

theorem mem_numbers {n : Nat} :
    n ∈ tree.numbers ↔ n ∈ tree.root.number :: tree.inOrder.map fun j => j.number := by
  have hperm := (tree.listed_perm.map Table.core).map fun c => c.2.1
  rw [numbers, cores, ← hperm.mem_iff]
  simp [listed, Table.core, Function.comp_def]

theorem clause_seen (hn : names.Scoping catalog) {j : Joined} {clause : JoinClause Predicate}
    (hs : Scope.Below catalog ⟨tree, j.toTable, false⟩ p.nextNumber)
    (h : (tree.clause catalog names j).run p = .ok clause p') : p.nextNumber ≤ p'.nextNumber ∧
      clause.SeenFrom catalog tree j p.nextNumber p'.nextNumber := by
  obtain ⟨q, hlink, -, -, hnumber, henforced, hasked⟩ := clause_eq_ok h
  have hheld := Condition.resolve?_seen hn hs henforced
  have hs' : Scope.Below catalog ⟨tree, j.toTable, true⟩ q.nextNumber :=
    ⟨⟨hs.stands.walked, hs.stands.has⟩, hs.isTree, (hs.mono hheld.le).numbers⟩
  have hrequested := Condition.resolve?_seen hn hs' hasked
  refine ⟨hheld.le.trans hrequested.le, ⟨hnumber, Link.equalities_pairs hlink, fun c => ?_,
    fun c hc => hheld.known c (Option.mem_toList.2 hc),
    fun c hc => hrequested.known c (Option.mem_toList.2 hc)⟩, fun n hn => ?_, fun on hon => ?_⟩
  · rw [Filter.free, List.mem_append, hheld.free, hrequested.free]
    simp only [Option.mem_toList, Option.mem_def]
  · rcases List.mem_append.1 hn with hn | hn
    · exact ⟨(hheld.opened n hn).1, (hheld.opened n hn).2.trans_le hrequested.le⟩
    · exact ⟨hheld.le.trans (hrequested.opened n hn).1, (hrequested.opened n hn).2⟩
  · exact (List.mem_append.1 hon).elim (hheld.ons on) (hrequested.ons on)

/-- The link of a joined table names columns of the tree's tables. -/
theorem IsTree.isOf_link (htree : tree.IsTree) {j : Joined} (hj : j ∈ tree.inOrder)
    {es : List Equality} (hlink : j.link.Pairs j.toTable es) {c : Column}
    (hc : c ∈ Equality.columns es) : c.isOf tree.numbers = true := by
  rcases Equality.mem_columns.1 hc with hc | hc
  · obtain ⟨name, -, b, -, rfl⟩ := hlink.child.mem_iff.1 hc
    exact Column.isOf_table.2 (number_mem_numbers hj)
  · obtain ⟨name, -, b, -, rfl⟩ := hlink.parent.mem_iff.1 hc
    obtain ⟨t, ht, hhangs⟩ := htree.exists_hangsOn (tree.inOrder_perm.subset hj)
    rw [hhangs.parentNumber]
    have hhas : tree.Has t := List.mem_map_of_mem ht
    exact Column.isOf_table.2 (List.mem_map_of_mem (f := fun c => c.2.1) hhas)

theorem clauses_seen (hn : names.Scoping catalog) (hw : tree.Walked catalog false)
    (htree : tree.IsTree) (hbelow : ∀ m ∈ tree.numbers, m < p.nextNumber)
    {clauses : List (JoinClause Predicate)}
    (h : (tree.clauses catalog names).run p = .ok clauses p') :
    tree.JoinsSeen catalog p.nextNumber p'.nextNumber clauses := by
  have hclause : ∀ j ∈ tree.inOrder, ∀ {q q' : Progress} {clause : JoinClause Predicate},
      p.nextNumber ≤ q.nextNumber → (tree.clause catalog names j).run q = .ok clause q' →
      q.nextNumber ≤ q'.nextNumber ∧
        clause.SeenFrom catalog tree j q.nextNumber q'.nextNumber := by
    intro j hj q q' clause hle hrun
    refine clause_seen hn ⟨⟨hw, .of_mem (tree.inOrder_perm.subset hj)⟩, htree, fun m hm => ?_⟩ hrun
    exact (hbelow m hm).trans_le hle
  obtain ⟨hle, hall⟩ := run_mapM_from (R := fun j lo hi clause =>
    JoinClause.SeenFrom catalog tree j lo hi clause) hclause h
  exact ⟨hle, hw, htree, hall⟩

namespace JoinsSeen

variable {lo hi : Nat} {clauses : List (JoinClause Predicate)}

/-- A column that the joins name, outside their subqueries, is of a link, or it is read by a condition
on one of the tables. -/
theorem mem_free (h : tree.JoinsSeen catalog lo hi clauses) {c : Column}
    (hc : c ∈ Predicate.joinsFree clauses) : ∃ j ∈ tree.inOrder,
      (∃ es, j.link.Pairs j.toTable es ∧ c ∈ Equality.columns es) ∨
        ∃ t, tree.Has t ∧ j.path <+: t.path ∧ c.qualifier = .table t.number := by
  obtain ⟨clause, hmem, hc⟩ := Predicate.mem_joinsFree.1 hc
  obtain ⟨j, hj, lo, hi, -, -, hseen⟩ := forall₂_mem_right h.all hmem
  refine ⟨j, hj, (List.mem_append.1 hc).imp (fun hc => ⟨_, hseen.link, hc⟩) fun hc => ?_⟩
  have hhas : tree.Has j.toTable := .of_mem (tree.inOrder_perm.subset hj)
  rcases (hseen.free c).1 hc with ⟨e, -, he⟩ | ⟨e, -, he⟩
  · exact Scope.Reads.has (s := ⟨tree, j.toTable, false⟩) ⟨h.walked, hhas⟩ he
  · exact Scope.Reads.has (s := ⟨tree, j.toTable, true⟩) ⟨h.walked, hhas⟩ he

/-- Outside their subqueries, the joins of a query name its own tables only. -/
theorem isOf_of_free (h : tree.JoinsSeen catalog lo hi clauses) {c : Column}
    (hc : c ∈ Predicate.joinsFree clauses) : c.isOf tree.numbers = true := by
  obtain ⟨j, hj, ⟨es, hlink, hc⟩ | ⟨t, ht, -, hqualifier⟩⟩ := h.mem_free hc
  · exact h.isTree.isOf_link hj hlink hc
  · exact Column.isOf_iff.2 ⟨t.number, List.mem_map_of_mem (f := fun c => c.2.1) ht, hqualifier⟩

theorem opened (h : tree.JoinsSeen catalog lo hi clauses) {n : Nat}
    (hn : n ∈ Predicate.joinsOpened clauses) :
    n ∈ tree.inOrder.map (fun j => j.number) ∨ lo ≤ n ∧ n < hi := by
  obtain ⟨clause, hmem, hn⟩ := Predicate.mem_joinsOpened.1 hn
  obtain ⟨j, hj, lo', hi', hlo, hhi, hseen⟩ := forall₂_mem_right h.all hmem
  rcases hn with rfl | hn
  · rw [hseen.number]
    exact .inl (List.mem_map_of_mem (f := fun j : Joined => j.number) hj)
  · obtain ⟨hlo', hhi'⟩ := hseen.opened n hn
    exact .inr ⟨hlo.trans hlo', hhi'.trans_le hhi⟩

theorem ons (h : tree.JoinsSeen catalog lo hi clauses) {on : On}
    (hon : on ∈ Predicate.joinsOns [tree.root.number] clauses) : on.Stands catalog := by
  rcases Predicate.mem_joinsOns hon with ⟨before, clause, after, rfl, rfl⟩ | ⟨clause, hmem, hon⟩
  · -- the listed tables split where the clauses do
    obtain ⟨front, j, back, hsplit, hfront, ⟨lo', hi', -, -, hseen⟩, hback⟩ := forall₂_split h.all
    have hfront : JoinClause.AllSeen catalog tree lo hi front before := hfront
    have hback : JoinClause.AllSeen catalog tree lo hi back after := hback
    exact ⟨tree, j, h.isTree, h.walked,
      ⟨front, back, hsplit, by rw [hfront.numbers]; rfl, hback.numbers⟩, hseen.toReadsOn⟩
  · obtain ⟨j, hj, lo', hi', -, -, hseen⟩ := forall₂_mem_right h.all hmem
    exact hseen.ons on hon

end JoinsSeen
end JoinTree

/-! ## Names -/

/-- At every depth, the names of a join tree stand for columns of its tables. -/
theorem Names.scoping_ofTree (catalog : Catalog) (depth : Nat) :
    (Names.ofTree catalog depth).Scoping catalog := by
  induction depth with
  | zero => exact ⟨rfl, fun _ h => absurd h nofun⟩
  | succ depth ih =>
    refine ⟨rfl, ?_⟩
    intro s path joins paths body s' p p' hs h
    change (s.subquery catalog (Names.ofTree catalog depth) path joins paths).run p = _ at h
    obtain ⟨link, access, tree, q, q', hlink, -, hmade, -, -, hnumber, hequalities, hclauses,
      henforced, rfl⟩ := Scope.subquery_eq_ok h
    obtain ⟨hlt, hnumbers⟩ := hmade.numbers
    have hw := hmade.walked
    have hbelow : ∀ m ∈ tree.numbers, m < q.nextNumber := fun m hm => (hnumbers m hm).2
    have hjoins := JoinTree.clauses_seen ih hw hmade.isTree hbelow hclauses
    have hroot : Scope.Below catalog ⟨tree, tree.root, false⟩ q'.nextNumber :=
      ⟨⟨hw, .root⟩, hmade.isTree, fun m hm => (hbelow m hm).trans_le hjoins.le⟩
    have hheld := Condition.resolve?_seen ih hroot henforced
    have hle := hjoins.le.trans hheld.le
    have hbelow' : ∀ m ∈ tree.numbers, m < p'.nextNumber :=
      fun m hm => (hbelow m hm).trans_le hle
    refine ⟨link, hlink, hlt.le.trans hle, ⟨⟨hw, .root⟩, hmade.isTree, hbelow'⟩,
      fun m hm => (hnumbers m hm).1, Link.equalities_pairs hequalities, hnumber, fun n => ?_,
      fun c hc => ?_, fun n hn => ?_, fun on hon => ?_⟩
    · rw [hnumber, hjoins.all.numbers, ← JoinTree.mem_numbers]
    · rcases List.mem_append.1 hc with hc | hc
      · exact hjoins.isOf_of_free hc
      · obtain ⟨e, -, he⟩ := (hheld.free c).1 hc
        exact Scope.Reads.isOf (s := ⟨tree, tree.root, false⟩) hroot.stands he
    · rcases List.mem_append.1 hn with hn | hn
      · rcases hjoins.opened hn with hn | hn
        · have hn := JoinTree.mem_numbers.2 (List.mem_cons_of_mem _ hn)
          exact ⟨(hnumbers n hn).1, hbelow' n hn⟩
        · exact ⟨hlt.le.trans hn.1, hn.2.trans_le hheld.le⟩
      · exact ⟨(hlt.le.trans hjoins.le).trans (hheld.opened n hn).1, (hheld.opened n hn).2⟩
    · rw [hnumber] at hon
      exact (List.mem_append.1 hon).elim hjoins.ons (hheld.ons on)

/-! ## Tables that stand alone -/

/-- Names under which no subquery opens. -/
def Names.Shut {σ : Type} (names : Names σ) : Prop :=
  ∀ {s path joins paths p b p'}, (names.subquery s path joins paths).run p ≠ .ok b p'

/-- A condition without relationships, resolved to a predicate without subqueries. -/
structure Condition.Alone {σ : Type} (names : Names σ) (s : σ) (c : Condition) (r : Predicate) :
    Prop where
  columns : ∀ path ∈ c.readPaths, ∃ column, names.column s path = .ok column
  relatedPaths : c.relatedPaths = []
  opened : r.opened = []
  ons : r.ons = []

namespace Condition

variable {σ : Type} {d : Dialect} {names : Names σ}

theorem columns_of_fill {s : σ} {template base : String} {paths : List String} {sql : Filled}
    (h : names.fill s template paths base = .ok sql) :
    ∀ path ∈ paths, ∃ column, names.column s path = .ok column := by
  obtain ⟨columns, hcolumns, -⟩ := Names.fill_iff.1 h
  intro path hpath
  obtain ⟨column, -, hcolumn⟩ := forall₂_mem_right hcolumns.flip hpath
  exact ⟨column, hcolumn⟩

mutual

theorem resolve_alone (hn : names.Shut) :
    ∀ (c : Condition) {s : σ} {base : String} {r : Predicate} {p p' : Progress},
      (c.resolve d names s base).run p = .ok r p' → p' = p ∧ c.Alone names s r
  | .compare path op value skipEmpty, s, base, r, p, p', h => by
    obtain ⟨rfl, ⟨hnothing, rfl⟩ | ⟨hcompares, column, hcolumn, hr⟩⟩ := resolve_compare_eq_ok.1 h
    · refine ⟨rfl, ?_, rfl, rfl, rfl⟩
      rw [readPaths, if_pos hnothing]
      exact nofun
    · obtain ⟨-, hopened, hons⟩ := Operator.resolve_leaf hr
      refine ⟨rfl, ?_, rfl, hopened, hons⟩
      rw [readPaths, if_neg hcompares, List.forall_mem_singleton]
      exact ⟨column, hcolumn⟩
  | .group k members, s, base, r, p, p', h => by
    obtain ⟨parts, hparts, rfl⟩ := resolve_group_eq_ok.1 h
    exact resolveMembers_alone hn members k hparts
  | .negate inner, s, base, r, p, p', h => by
    obtain ⟨q, hq, rfl⟩ := resolve_negate_eq_ok.1 h
    obtain ⟨hp, hinner⟩ := resolve_alone hn inner hq
    exact ⟨hp, hinner.columns, hinner.relatedPaths, hinner.opened, hinner.ons⟩
  | .custom template paths value, s, base, r, p, p', h => by
    obtain ⟨rfl, sql, hfill, rfl⟩ := resolve_custom_eq_ok.1 h
    exact ⟨rfl, columns_of_fill hfill, rfl, rfl, rfl⟩
  | .search path value mode, s, base, r, p, p', h => by
    obtain ⟨rfl, template, -, sql, hfill, rfl⟩ := resolve_search_eq_ok.1 h
    exact ⟨rfl, columns_of_fill hfill, rfl, rfl, rfl⟩
  | .related path inner joins negated, s, base, r, p, p', h => by
    obtain ⟨hempty, rfl, rfl⟩ | ⟨-, body, s', mid, q, hbody, -⟩ := resolve_related_eq_ok.1 h
    · exact ⟨rfl, nofun, by rw [relatedPaths, if_pos hempty], rfl, rfl⟩
    · exact absurd hbody hn

theorem resolveMembers_alone (hn : names.Shut) :
    ∀ (cs : List Condition) (k : Connective) {s : σ} {base : String} {i : Nat}
      {rs : List Predicate} {p p' : Progress},
      (resolveMembers d names cs s base i).run p = .ok rs p' →
      p' = p ∧ (Condition.group k cs).Alone names s (.group k rs)
  | [], k, s, base, i, rs, p, p', h => by
    obtain ⟨rfl, rfl⟩ := resolveMembers_nil_eq_ok.1 h
    exact ⟨rfl, nofun, rfl, rfl, rfl⟩
  | c :: cs, k, s, base, i, rs, p, p', h => by
    obtain ⟨r, mid, rs', hr, hrs, rfl⟩ := resolveMembers_cons_eq_ok.1 h
    obtain ⟨rfl, hfirst⟩ := resolve_alone hn c hr
    obtain ⟨rfl, hrest⟩ := resolveMembers_alone hn cs k hrs
    obtain ⟨hcolumns, hpaths, hopened, hons⟩ := hrest
    have hpaths : relatedPathsOf cs = [] := hpaths
    have hopened : Predicate.openedOf rs' = [] := hopened
    have hons : Predicate.onsOf rs' = [] := hons
    refine ⟨rfl, ?_, ?_, ?_, ?_⟩
    · rw [readPaths, readPathsOf, List.forall_mem_append]
      exact ⟨hfirst.columns, hcolumns⟩
    · rw [relatedPaths, relatedPathsOf, hfirst.relatedPaths, hpaths, List.append_nil]
    · rw [Predicate.opened, Predicate.openedOf, hfirst.opened, hopened, List.append_nil]
    · rw [Predicate.ons, Predicate.onsOf, hfirst.ons, hons, List.append_nil]

end

theorem resolve?_alone (hn : names.Shut) {c : Option Condition} {s : σ} {base : String}
    {r : Predicate} (h : (resolve? d names c s base).run p = .ok r p') :
    p' = p ∧ r.ons = [] ∧ ∀ e ∈ c, e.Alone names s r := by
  cases c with
  | none =>
    obtain ⟨rfl, rfl⟩ := run_pure_eq_ok.1 h
    exact ⟨rfl, rfl, fun _ h => absurd h (Option.not_mem_none _)⟩
  | some c =>
    obtain ⟨hp, halone⟩ := c.resolve_alone hn h
    refine ⟨hp, halone.ons, fun e he => ?_⟩
    obtain rfl := Option.some.inj he
    exact halone

end Condition

theorem Names.shut_ofTable (a : Access) (qualifier : Qualifier) : (Names.ofTable a qualifier).Shut :=
  nofun

/-- A growing table draws no numbers and has no joins of its own, and the condition on its rows names
columns of its model only. -/
theorem HierarchyQuery.table_alone {q : HierarchyQuery} {access : Access} {start : Predicate}
    {table : Hierarchy} {r : Progress} (hstart : (q.start? catalog access).run p = .ok start r)
    (htable : (q.table catalog access start).run r = .ok table p') :
    p' = p ∧ table.ons = [] ∧ ∀ c ∈ access.enforced? q.query.ignoreDeleted,
      c.Alone (Names.ofTable access .row) false table.anchor.enforced := by
  obtain ⟨rfl, hnone, -⟩ := Condition.resolve?_alone (Names.shut_ofTable access .row) hstart
  obtain ⟨keys, parents, held, r', step, -, -, -, hheld, hstep, rfl⟩ := table_eq_ok htable
  obtain ⟨rfl, hnone', halone⟩ := Condition.resolve?_alone (Names.shut_ofTable access .row) hheld
  have hons : ∀ rest : List On, held.ons ++ start.ons ++ rest = rest := by
    intro rest
    rw [hnone, hnone', List.nil_append, List.nil_append]
  cases step with
  | none => exact ⟨hstep.2.symm, hons [], halone⟩
  | some mark =>
    obtain ⟨rfl, hmark⟩ := notDeleted.resolve_alone (Names.shut_ofTable access .row) hstep.2
    exact ⟨rfl, (hons mark.ons).trans hmark.ons, halone⟩

end QueryCompiler
