import QueryCompiler.Proofs.Scoping.Columns
import QueryCompiler.Proofs.Enforcement.Rendering
import QueryCompiler.Proofs.Build.Resolve

/-!
# What resolved conditions name

A condition that is resolved in a scope names columns of the scope's tables: those at its paths, and
the fields that tie the owner of a relationship to related rows (`Scope.Reads`). All else that it
names is of tables which its subqueries bring in, and these have numbers that nothing else has
(`Predicate.SeenFrom`). The induction is on how deep subqueries may nest, and for each depth on the
condition; `On.Of` is what it leaves behind of each `ON` clause.
-/

namespace QueryCompiler

open Build

variable {catalog : Catalog} {p p' : Progress}

/-! ## What a condition reads -/

namespace Condition

mutual

/-- The paths whose columns the condition is resolved to, outside its conditions over related
rows. -/
def readPaths : Condition → List String
  | .compare path op value skipEmpty => if comparesNothing path op value skipEmpty then [] else [path]
  | .group _ members => readPathsOf members
  | .negate inner => inner.readPaths
  | .related _ _ _ _ => []
  | .custom _ paths _ => paths
  | .search path _ _ => [path]

/-- The paths that the members of a group read. -/
def readPathsOf : List Condition → List String
  | [] => []
  | c :: cs => c.readPaths ++ readPathsOf cs

end

theorem mem_readPathsOf {cs : List Condition} {path : String} :
    path ∈ readPathsOf cs ↔ ∃ c ∈ cs, path ∈ c.readPaths := by
  induction cs with
  | nil => simp [readPathsOf]
  | cons c cs ih => simp [readPathsOf, ih]

mutual

/-- The columns that a condition is resolved to are among those that it names. -/
theorem readPaths_subset : ∀ (c : Condition), c.readPaths ⊆ c.columnPaths
  | .compare path op value skipEmpty => by
    rw [readPaths, columnPaths, comparesNothing]
    cases path.isEmpty <;> split <;> simp_all
  | .group _ members => readPathsOf_subset members
  | .negate inner => readPaths_subset inner
  | .related _ _ _ _ => List.Subset.refl _
  | .custom _ _ _ => List.Subset.refl _
  | .search _ _ _ => List.Subset.refl _

theorem readPathsOf_subset : ∀ (cs : List Condition), readPathsOf cs ⊆ columnPathsOf cs
  | [] => List.Subset.refl _
  | c :: cs => by
    have hfirst : c.readPaths ⊆ c.columnPaths := readPaths_subset c
    have hrest : readPathsOf cs ⊆ columnPathsOf cs := readPathsOf_subset cs
    rw [readPathsOf, columnPathsOf]
    exact List.append_subset.2 ⟨fun _ h => List.mem_append_left _ (hfirst h),
      fun _ h => List.mem_append_right _ (hrest h)⟩

end

theorem mem_relatedPathsOf {cs : List Condition} {path : String} :
    path ∈ relatedPathsOf cs ↔ ∃ c ∈ cs, path ∈ c.relatedPaths := by
  induction cs with
  | nil => simp [relatedPathsOf]
  | cons c cs ih => simp [relatedPathsOf, ih]

end Condition

/-- The condition names the column in the scope, outside the subqueries that it opens: it is the
column at a path, or one by which the owner of a relationship is tied to related rows. -/
inductive Scope.Reads (s : Scope) (c : Condition) : Column → Prop where
  | path {path : String} {column : Column} : path ∈ c.readPaths → s.column path = .ok column →
      s.Reads c column
  | owner {path name : String} {l : Link} {b : BasicField} : path ∈ c.relatedPaths →
      s.link path = .ok l → name ∈ l.parentNames → l.parentModel.basicField? name = some b →
      s.Reads c ⟨.table l.parentNumber, b.column⟩

/-- All that the condition reads in the scope is there. -/
structure Scope.Knows (s : Scope) (c : Condition) : Prop where
  columns : ∀ path ∈ c.readPaths, ∃ column, s.column path = .ok column
  owners : ∀ path ∈ c.relatedPaths, ∃ l name b, s.link path = .ok l ∧ name ∈ l.parentNames ∧
    l.parentModel.basicField? name = some b

namespace Scope

variable {s : Scope} {column : Column}

theorem reads_group {k : Connective} {cs : List Condition} :
    s.Reads (.group k cs) column ↔ ∃ c ∈ cs, s.Reads c column := by
  constructor
  · rintro (⟨hpath, hcolumn⟩ | ⟨hpath, hlink, hname, hb⟩)
    · obtain ⟨c, hc, hpath⟩ := Condition.mem_readPathsOf.1 hpath
      exact ⟨c, hc, .path hpath hcolumn⟩
    · obtain ⟨c, hc, hpath⟩ := Condition.mem_relatedPathsOf.1 hpath
      exact ⟨c, hc, .owner hpath hlink hname hb⟩
  · rintro ⟨c, hc, ⟨hpath, hcolumn⟩ | ⟨hpath, hlink, hname, hb⟩⟩
    · exact .path (Condition.mem_readPathsOf.2 ⟨c, hc, hpath⟩) hcolumn
    · exact .owner (Condition.mem_relatedPathsOf.2 ⟨c, hc, hpath⟩) hlink hname hb

theorem reads_negate {c : Condition} : s.Reads (.negate c) column ↔ s.Reads c column := by
  constructor
  · rintro (⟨hpath, hcolumn⟩ | ⟨hpath, hlink, hname, hb⟩)
    · exact .path hpath hcolumn
    · exact .owner hpath hlink hname hb
  · rintro (⟨hpath, hcolumn⟩ | ⟨hpath, hlink, hname, hb⟩)
    · exact .path hpath hcolumn
    · exact .owner hpath hlink hname hb

theorem knows_group {k : Connective} {cs : List Condition} (h : ∀ c ∈ cs, s.Knows c) :
    s.Knows (.group k cs) where
  columns path hpath := by
    obtain ⟨c, hc, hpath⟩ := Condition.mem_readPathsOf.1 hpath
    exact (h c hc).columns path hpath
  owners path hpath := by
    obtain ⟨c, hc, hpath⟩ := Condition.mem_relatedPathsOf.1 hpath
    exact (h c hc).owners path hpath

/-- A condition without relationships reads the columns at its paths. -/
theorem reads_iff_of_relatedPaths {c : Condition} (h : c.relatedPaths = []) :
    s.Reads c column ↔ ∃ path ∈ c.readPaths, s.column path = .ok column := by
  constructor
  · rintro (⟨hpath, hcolumn⟩ | ⟨hpath, -⟩)
    · exact ⟨_, hpath, hcolumn⟩
    · exact absurd (h ▸ hpath) List.not_mem_nil
  · rintro ⟨path, hpath, hcolumn⟩
    exact .path hpath hcolumn

/-- The scope's table is one of its tree, whose tables have numbers below `n`. -/
structure Below (catalog : Catalog) (s : Scope) (n : Nat) : Prop where
  stands : s.Stands catalog
  isTree : s.tree.IsTree
  numbers : ∀ m ∈ s.tree.numbers, m < n

theorem Below.mono {n n' : Nat} (h : s.Below catalog n) (hle : n ≤ n') : s.Below catalog n' :=
  ⟨h.stands, h.isTree, fun m hm => (h.numbers m hm).trans_le hle⟩

/-- A condition names columns of the tables that stand where its paths lead. -/
theorem Reads.has {c : Condition} (hs : s.Stands catalog) (h : s.Reads c column) :
    ∃ t, s.tree.Has t ∧ s.table.path <+: t.path ∧ column.qualifier = .table t.number := by
  cases h with
  | path _ hcolumn =>
    obtain ⟨t, hops, last, b, hhas, -, hpath, -, -, rfl⟩ := column_eq_ok hs.walked hs.has hcolumn
    exact ⟨t, hhas, hpath ▸ List.prefix_append _ _, rfl⟩
  | owner _ hlink =>
    obtain ⟨t, hops, name, f, r, hhas, -, hpath, -, -, -, rfl⟩ := link_eq_ok hs.walked hs.has hlink
    exact ⟨t, hhas, hpath ▸ List.prefix_append _ _, rfl⟩

theorem Reads.isOf {c : Condition} (hs : s.Stands catalog) (h : s.Reads c column) :
    column.isOf s.tree.numbers = true := by
  obtain ⟨t, hhas, -, hqualifier⟩ := h.has hs
  refine Column.isOf_iff.2 ⟨t.number, ?_, hqualifier⟩
  exact List.mem_map_of_mem (f := fun c => c.2.1) hhas

end Scope

/-! ## `ON` clauses -/

/-- The join of a table names the columns by which the table is tied to the one it hangs on, and what
the conditions on the table read. -/
structure JoinClause.ReadsOn (tree : JoinTree) (j : Joined) (clause : JoinClause Predicate) : Prop where
  number : clause.number = j.number
  link : j.link.Pairs j.toTable clause.link
  free : ∀ column, column ∈ clause.filter.free ↔
    (∃ c ∈ j.access.enforced? j.ignoreDeleted, Scope.Reads ⟨tree, j.toTable, false⟩ c column) ∨
      ∃ c ∈ j.condition, Scope.Reads ⟨tree, j.toTable, true⟩ c column
  enforced : ∀ c ∈ j.access.enforced? j.ignoreDeleted, Scope.Knows ⟨tree, j.toTable, false⟩ c
  requested : ∀ c ∈ j.condition, Scope.Knows ⟨tree, j.toTable, true⟩ c

/-- The `ON` clause of a table of a query. In front of it stand the root and the tables that are
listed before its own, behind it those that are listed after. -/
structure On.Of (catalog : Catalog) (on : On) (tree : JoinTree) (j : Joined) : Prop where
  isTree : tree.IsTree
  walked : tree.Walked catalog false
  order : ∃ front back, tree.inOrder = front ++ j :: back ∧
    on.front = tree.root.number :: front.map (fun k => k.number) ∧
    on.back = back.map fun k => k.number
  clause : on.clause.ReadsOn tree j

/-- The `ON` clause is that of a table of some query. -/
def On.Stands (catalog : Catalog) (on : On) : Prop :=
  ∃ tree j, on.Of catalog tree j

/-! ## Predicates -/

/-- A predicate names the columns that conditions read in a scope; its subqueries bring in tables with
numbers from `lo` on and below `hi`, and their `ON` clauses are those of tables. -/
structure Predicate.SeenFrom (catalog : Catalog) (s : Scope) (cs : List Condition) (lo hi : Nat)
    (r : Predicate) : Prop where
  le : lo ≤ hi
  known : ∀ c ∈ cs, s.Knows c
  free : ∀ column, column ∈ r.free ↔ ∃ c ∈ cs, s.Reads c column
  opened : ∀ n ∈ r.opened, lo ≤ n ∧ n < hi
  ons : ∀ on ∈ r.ons, on.Stands catalog

/-- The subquery over a relationship, with the scope inside it. -/
structure Subquery.Opens (catalog : Catalog) (l : Link) (lo hi : Nat) (body : Subquery Predicate)
    (s : Scope) : Prop where
  le : lo ≤ hi
  below : s.Below catalog hi
  fresh : ∀ n ∈ s.tree.numbers, lo ≤ n
  link : l.Pairs s.tree.root body.link
  number : body.number = s.tree.root.number
  numbers : ∀ n, n ∈ body.number :: body.joins.map JoinClause.number ↔ n ∈ s.tree.numbers
  inside : ∀ c ∈ Predicate.joinsFree body.joins ++ body.enforced.free,
    c.isOf s.tree.numbers = true
  opened : ∀ n ∈ Predicate.joinsOpened body.joins ++ body.enforced.opened, lo ≤ n ∧ n < hi
  ons : ∀ on ∈ Predicate.joinsOns [body.number] body.joins ++ body.enforced.ons, on.Stands catalog

/-- Paths stand for the columns of a scope, and subqueries bring in tables of their own. -/
structure Names.Scoping (catalog : Catalog) (names : Names Scope) : Prop where
  column : names.column = Scope.column
  subquery : ∀ {s path joins paths body s' p p'}, s.Below catalog p.nextNumber →
    (names.subquery s path joins paths).run p = .ok (body, s') p' →
    ∃ l, s.link path = .ok l ∧ body.Opens catalog l p.nextNumber p'.nextNumber s'

theorem Model.HasColumns.mem_iff {m : Model} {n : Nat} {names : List String} {columns : List Column}
    (h : m.HasColumns n names columns) {c : Column} :
    c ∈ columns ↔ ∃ name ∈ names, ∃ b, m.basicField? name = some b ∧ c = ⟨.table n, b.column⟩ := by
  constructor
  · exact fun hc => forall₂_mem_right h hc
  · rintro ⟨name, hname, b, hb, rfl⟩
    obtain ⟨c, hc, b', hb', rfl⟩ := forall₂_mem_right (List.Forall₂.flip h) hname
    obtain rfl := Option.some.inj (hb.symm.trans hb')
    exact hc

namespace Predicate

variable {s : Scope} {c : Condition} {cs : List Condition} {r : Predicate} {lo mid hi : Nat}

/-- A predicate that names nothing, for no condition. -/
theorem SeenFrom.nothing (hfree : r.free = []) (hopened : r.opened = []) (hons : r.ons = []) (n : Nat) :
    r.SeenFrom catalog s [] n n where
  le := le_rfl
  known := fun _ h => absurd h List.not_mem_nil
  free column := by simp [hfree]
  opened := by rw [hopened]; exact nofun
  ons := by rw [hons]; exact nofun

/-- A predicate without subqueries, for a condition without any. -/
theorem SeenFrom.leaf (hrelated : c.relatedPaths = []) (hopened : r.opened = []) (hons : r.ons = [])
    (hknown : ∀ path ∈ c.readPaths, ∃ column, s.column path = .ok column)
    (hfree : ∀ column, column ∈ r.free ↔ ∃ path ∈ c.readPaths, s.column path = .ok column) (n : Nat) :
    r.SeenFrom catalog s [c] n n where
  le := le_rfl
  known e he := by
    obtain rfl := List.mem_singleton.1 he
    exact ⟨hknown, by rw [hrelated]; exact nofun⟩
  free column := by
    rw [hfree, ← Scope.reads_iff_of_relatedPaths hrelated]
    simp
  opened := by rw [hopened]; exact nofun
  ons := by rw [hons]; exact nofun

/-- Of what a subquery names, all but the columns by which the owner of its relationship is tied to
its rows is of its own tables. The tables of the query around it are older than these. -/
theorem mem_free_related {s' : Scope} {cs : List Condition} {negated : Bool} {l : Link}
    {body : Subquery Predicate} {q : Predicate} (hbody : body.Opens catalog l lo mid s')
    (howner : l.parentNumber < lo) (hq : q.SeenFrom catalog s' cs mid hi) {c : Column} :
    c ∈ (Predicate.related negated body q).free ↔ c ∈ body.link.map Equality.right := by
  have hnumbers := hbody.numbers
  have hfrees := hbody.inside
  have hlinks := hbody.link
  obtain ⟨model, number, link, clauses, enforced⟩ := body
  simp only at hnumbers hfrees hlinks
  have hown : c.isOf s'.tree.numbers = true → c.isOf (number :: clauses.map JoinClause.number) = true :=
    Column.isOf_mono fun n hn => (hnumbers n).2 hn
  rw [Predicate.free, List.mem_filter]
  simp only [List.mem_append]
  constructor
  · rintro ⟨hc, hout⟩
    have hout : c.isOf (number :: clauses.map JoinClause.number) ≠ true := by simpa using hout
    rcases hc with hc | hc | hc | hc
    · refine (Equality.mem_columns.1 hc).resolve_left fun hc => hout ?_
      obtain ⟨name, -, b, -, rfl⟩ := hlinks.child.mem_iff.1 hc
      exact Column.isOf_table.2 ((hnumbers _).2 List.mem_cons_self)
    · exact absurd (hown (hfrees c (List.mem_append_left _ hc))) hout
    · exact absurd (hown (hfrees c (List.mem_append_right _ hc))) hout
    · obtain ⟨e, -, he⟩ := (hq.free c).1 hc
      exact absurd (hown (he.isOf hbody.below.stands)) hout
  · intro hc
    refine ⟨.inl (Equality.mem_columns.2 (.inr hc)), ?_⟩
    obtain ⟨name, -, b, -, rfl⟩ := hlinks.parent.mem_iff.1 hc
    rw [Bool.not_eq_true', Bool.eq_false_iff, Ne, Column.isOf_table]
    exact fun hmem => absurd (hbody.fresh _ ((hnumbers _).1 hmem)) (by omega)

/-- A subquery names the columns by which the owner of its relationship is tied to its rows, and
beyond these only columns of its own tables. -/
theorem SeenFrom.related {s' : Scope} {path : String} {inner : Option Condition} {joins : List Join}
    {negated : Bool} {l : Link} {body : Subquery Predicate} {q : Predicate} (hs : s.Below catalog lo)
    (hpath : path.isEmpty ≠ true) (hlink : s.link path = .ok l)
    (hbody : body.Opens catalog l lo mid s')
    (hq : q.SeenFrom catalog s' inner.toList mid hi) :
    (Predicate.related negated body q).SeenFrom catalog s [.related path inner joins negated] lo hi := by
  have hpaths : (Condition.related path inner joins negated).relatedPaths = [path] := by
    rw [Condition.relatedPaths, if_neg hpath]
  obtain ⟨t, _, name, _, r, hhas, -, -, -, -, -, hl⟩ :=
    Scope.link_eq_ok hs.stands.walked hs.stands.has hlink
  have howner : l.parentNumber < lo := by
    rw [hl]
    exact hs.numbers _ (List.mem_map_of_mem (f := fun c => c.2.1) hhas)
  have hknown : s.Knows (.related path inner joins negated) := by
    refine ⟨nofun, fun path' hpath' => ?_⟩
    obtain rfl := List.mem_singleton.1 (hpaths ▸ hpath')
    obtain ⟨e, he⟩ := List.exists_mem_of_ne_nil _ hbody.link.some
    obtain ⟨name, hname, b, hb, -⟩ := hbody.link.parent.mem_iff.1 (List.mem_map_of_mem he)
    exact ⟨l, name, b, hlink, hname, hb⟩
  refine ⟨hbody.le.trans hq.le, List.forall_mem_singleton.2 hknown, fun c => ?_, fun n hn => ?_,
    fun on hon => ?_⟩
  · rw [mem_free_related hbody howner hq]
    simp only [List.mem_singleton, exists_eq_left]
    constructor
    · intro hc
      obtain ⟨name, hname, b, hb, rfl⟩ := hbody.link.parent.mem_iff.1 hc
      exact .owner (hpaths ▸ List.mem_singleton_self path) hlink hname hb
    · rintro (⟨hmem, -⟩ | @⟨path', name, l', b, hmem, hlink', hname, hb⟩)
      · exact absurd hmem List.not_mem_nil
      · obtain rfl := List.mem_singleton.1 (hpaths ▸ hmem)
        obtain rfl := Except.ok.inj (hlink.symm.trans hlink')
        exact hbody.link.parent.mem_iff.2 ⟨name, hname, b, hb, rfl⟩
  · obtain ⟨model, number, link, clauses, enforced⟩ := body
    rw [Predicate.opened, List.mem_cons, ← List.append_assoc, List.mem_append] at hn
    rcases hn with rfl | hn | hn
    · have hmem := (hbody.numbers _).1 List.mem_cons_self
      exact ⟨hbody.fresh _ hmem, (hbody.below.numbers _ hmem).trans_le hq.le⟩
    · exact ⟨(hbody.opened n hn).1, (hbody.opened n hn).2.trans_le hq.le⟩
    · exact ⟨hbody.le.trans (hq.opened n hn).1, (hq.opened n hn).2⟩
  · obtain ⟨model, number, link, clauses, enforced⟩ := body
    rw [Predicate.ons, ← List.append_assoc, List.mem_append] at hon
    exact hon.elim (hbody.ons on) (hq.ons on)

/-- Predicates that are resolved one after the other. -/
theorem SeenFrom.cons {k : Connective} {rs : List Predicate} (h : r.SeenFrom catalog s [c] lo mid)
    (h' : (Predicate.group k rs).SeenFrom catalog s cs mid hi) :
    (Predicate.group k (r :: rs)).SeenFrom catalog s (c :: cs) lo hi := by
  have hfree : ∀ column, column ∈ r.free ↔ s.Reads c column := fun column => by
    rw [h.free]
    simp
  have hfree' : ∀ column, column ∈ freeOf rs ↔ ∃ c ∈ cs, s.Reads c column := h'.free
  have hopened' : ∀ n ∈ openedOf rs, mid ≤ n ∧ n < hi := h'.opened
  have hons' : ∀ on ∈ onsOf rs, on.Stands catalog := h'.ons
  refine ⟨h.le.trans h'.le, ?_, fun column => ?_, fun n hn => ?_, fun on hon => ?_⟩
  · exact List.forall_mem_cons.2 ⟨h.known c List.mem_cons_self, h'.known⟩
  · rw [Predicate.free, freeOf, List.mem_append, hfree, hfree']
    exact (List.exists_mem_cons_iff (fun e => s.Reads e column) c cs).symm
  · rcases List.mem_append.1 hn with hn | hn
    · exact ⟨(h.opened n hn).1, (h.opened n hn).2.trans_le h'.le⟩
    · exact ⟨h.le.trans (hopened' n hn).1, (hopened' n hn).2⟩
  · exact (List.mem_append.1 hon).elim (h.ons on) (hons' on)

end Predicate

theorem Operator.resolve_leaf {op : Operator} {column : Column} {base : String} {value : Value}
    {r : Predicate} (h : op.resolve column base value = .ok r) :
    r.free = [column] ∧ r.opened = [] ∧ r.ons = [] := by
  obtain ⟨_, _, _, -, rfl⟩ | ⟨_, _, rfl⟩ := resolve_eq_ok h <;> exact ⟨rfl, rfl, rfl⟩

/-! ## Conditions -/

namespace Condition

variable {names : Names Scope}

theorem fill_eq_ok (hn : names.Scoping catalog) {s : Scope} {template : String}
    {paths : List String} {base : String} {sql : Filled}
    (h : names.fill s template paths base = .ok sql) :
    (∀ path ∈ paths, ∃ c, s.column path = .ok c) ∧
      ∀ c, c ∈ sql.columns ↔ ∃ path ∈ paths, s.column path = .ok c := by
  obtain ⟨columns, hcolumns, rfl⟩ := Names.fill_iff.1 h
  rw [hn.column] at hcolumns
  have hknown : ∀ path ∈ paths, ∃ c ∈ columns, s.column path = .ok c :=
    fun path hpath => forall₂_mem_right hcolumns.flip hpath
  refine ⟨fun path hpath => ?_, fun c => ⟨fun hc => forall₂_mem_right hcolumns hc, ?_⟩⟩
  · obtain ⟨c, -, hc⟩ := hknown path hpath
    exact ⟨c, hc⟩
  · rintro ⟨path, hpath, hc⟩
    obtain ⟨c', hc', heq⟩ := hknown path hpath
    obtain rfl := Except.ok.inj (hc.symm.trans heq)
    exact hc'

mutual

theorem resolve_seen (hn : names.Scoping catalog) :
    ∀ (c : Condition) {s : Scope} {base : String} {r : Predicate} {p p' : Progress},
      s.Below catalog p.nextNumber → (c.resolve catalog.dialect names s base).run p = .ok r p' →
      r.SeenFrom catalog s [c] p.nextNumber p'.nextNumber
  | .compare path op value skipEmpty, s, base, r, p, p', hs, h => by
    obtain ⟨rfl, ⟨hnothing, rfl⟩ | ⟨hcompares, column, hcolumn, hr⟩⟩ := resolve_compare_eq_ok.1 h
    · refine .leaf rfl rfl rfl ?_ ?_ _ <;>
        simp [readPaths, hnothing, Predicate.free]
    · obtain ⟨hfree, hopened, hons⟩ := Operator.resolve_leaf hr
      rw [hn.column] at hcolumn
      have hpaths : (Condition.compare path op value skipEmpty).readPaths = [path] := by
        rw [readPaths, if_neg hcompares]
      refine .leaf rfl hopened hons ?_ (fun c => ?_) _
      · rw [hpaths, List.forall_mem_singleton]
        exact ⟨column, hcolumn⟩
      · rw [hpaths, hfree]
        simp only [List.mem_singleton, exists_eq_left]
        rw [hcolumn, Except.ok.injEq, eq_comm]
  | .group k members, s, base, r, p, p', hs, h => by
    obtain ⟨parts, hparts, rfl⟩ := resolve_group_eq_ok.1 h
    have hmembers := resolveMembers_seen hn members k hs hparts
    refine ⟨hmembers.le, List.forall_mem_singleton.2 (Scope.knows_group hmembers.known),
      fun c => (hmembers.free c).trans ?_, hmembers.opened, hmembers.ons⟩
    simp [Scope.reads_group]
  | .negate inner, s, base, r, p, p', hs, h => by
    obtain ⟨q, hq, rfl⟩ := resolve_negate_eq_ok.1 h
    have hinner := resolve_seen hn inner hs hq
    have hknown := hinner.known inner List.mem_cons_self
    refine ⟨hinner.le, List.forall_mem_singleton.2 ⟨hknown.columns, hknown.owners⟩,
      fun c => (hinner.free c).trans ?_, hinner.opened, hinner.ons⟩
    simp [Scope.reads_negate]
  | .custom template paths value, s, base, r, p, p', hs, h => by
    obtain ⟨rfl, sql, hfill, rfl⟩ := resolve_custom_eq_ok.1 h
    obtain ⟨hknown, hcolumns⟩ := fill_eq_ok hn hfill
    refine .leaf rfl rfl rfl ?_ ?_ _
    · exact hknown
    · exact hcolumns
  | .search path value mode, s, base, r, p, p', hs, h => by
    obtain ⟨rfl, template, -, sql, hfill, rfl⟩ := resolve_search_eq_ok.1 h
    obtain ⟨hknown, hcolumns⟩ := fill_eq_ok hn hfill
    refine .leaf rfl rfl rfl ?_ ?_ _
    · exact hknown
    · exact hcolumns
  | .related path inner joins negated, s, base, r, p, p', hs, h => by
    obtain ⟨hempty, rfl, rfl⟩ | ⟨hpath, body, s', mid, q, hbody, hq, rfl⟩ := resolve_related_eq_ok.1 h
    · refine .leaf (by rw [relatedPaths, if_pos hempty]) rfl rfl ?_ ?_ _ <;>
        simp [readPaths, Predicate.free]
    · obtain ⟨l, hlink, hopens⟩ := hn.subquery hs hbody
      exact .related hs hpath hlink hopens (resolve?_seen hn hopens.below hq)

theorem resolve?_seen (hn : names.Scoping catalog) {c : Option Condition} {s : Scope}
    {base : String} {r : Predicate} {p p' : Progress} (hs : s.Below catalog p.nextNumber)
    (h : (resolve? catalog.dialect names c s base).run p = .ok r p') :
    r.SeenFrom catalog s c.toList p.nextNumber p'.nextNumber := by
  cases c with
  | none =>
    obtain ⟨rfl, rfl⟩ := run_pure_eq_ok.1 h
    exact .nothing rfl rfl rfl _
  | some c => exact resolve_seen hn c hs h

theorem resolveMembers_seen (hn : names.Scoping catalog) :
    ∀ (cs : List Condition) (k : Connective) {s : Scope} {base : String} {i : Nat}
      {rs : List Predicate} {p p' : Progress}, s.Below catalog p.nextNumber →
      (resolveMembers catalog.dialect names cs s base i).run p = .ok rs p' →
      (Predicate.group k rs).SeenFrom catalog s cs p.nextNumber p'.nextNumber
  | [], k, s, base, i, rs, p, p', _, h => by
    obtain ⟨rfl, rfl⟩ := resolveMembers_nil_eq_ok.1 h
    exact .nothing rfl rfl rfl _
  | c :: cs, k, s, base, i, rs, p, p', hs, h => by
    obtain ⟨r, mid, rs', hr, hrs, rfl⟩ := resolveMembers_cons_eq_ok.1 h
    have hfirst := resolve_seen hn c hs hr
    exact hfirst.cons (resolveMembers_seen hn cs k (hs.mono hfirst.le) hrs)

end

end Condition
end QueryCompiler
