import QueryCompiler.Proofs.JoinTree.Scopes
import QueryCompiler.Proofs.JoinTree.Shape
import QueryCompiler.Proofs.Build.Resolve

/-!
# How conditions are rendered

`Renders` relates a condition to its predicate over the tables of a query. A condition over related
rows becomes a subquery with tables of its own, and wherever a table comes in, as the target of a
subquery or by a join, it brings along what it is held to (`Enforces`): rows marked as deleted are
left out unless they are asked for, and the caller's rule on rows is rendered on the table. `Carries`
says so of joins, together with the columns that tie each table to the one it hangs on.
-/

namespace QueryCompiler

open Build

/-! ## Links -/

/-- The columns of a model's fields, in the order of the fields, behind the alias of a table. -/
def Model.HasColumns (m : Model) (number : Nat) (names : List String) (columns : List Column) :
    Prop :=
  List.Forall₂ (fun name c => ∃ b, m.basicField? name = some b ∧ c = ⟨.table number, b.column⟩)
    names columns

/-- The fields of the joined table that a link compares. -/
def Link.childNames (l : Link) (child : Model) : List String :=
  match l.relation.cardinality with
  | .one => child.key
  | .many => l.relation.on

/-- The fields of the owner of a link that it compares. -/
def Link.parentNames (l : Link) : List String :=
  match l.relation.cardinality with
  | .one => l.relation.on
  | .many => l.parentModel.key

/-- Equalities pair the key of the table at the one end, field by field, with the fields at the many
end that refer to it. -/
structure Link.Pairs (l : Link) (t : Table) (es : List Equality) : Prop where
  some : es ≠ []
  child : t.access.model.HasColumns t.number (l.childNames t.access.model) (es.map Equality.left)
  parent : l.parentModel.HasColumns l.parentNumber l.parentNames (es.map Equality.right)

theorem Model.basicFields_columns {m : Model} {names : List String} {bs : List BasicField}
    (h : m.basicFields names = .ok bs) (n : Nat) :
    m.HasColumns n names (bs.map fun b => ⟨.table n, b.column⟩) := by
  rw [Model.HasColumns, List.forall₂_map_right_iff]
  refine (except_mapM_eq_ok.1 h).imp fun name b hb => ?_
  cases hfield : m.basicField? name with
  | none => simp [hfield] at hb
  | some b' =>
    simp only [hfield] at hb
    exact ⟨b, congrArg some (Except.ok.inj hb), rfl⟩

theorem Link.fields_columns {l : Link} {t : Table} {child parent : List BasicField}
    (h : l.fields t.access.model = .ok (child, parent)) :
    t.access.model.HasColumns t.number (l.childNames t.access.model)
        (child.map fun b => ⟨.table t.number, b.column⟩) ∧
      l.parentModel.HasColumns l.parentNumber l.parentNames
        (parent.map fun b => ⟨.table l.parentNumber, b.column⟩) := by
  rw [Link.fields] at h
  rw [childNames, parentNames]
  cases hcard : l.relation.cardinality with
  | one =>
    simp only [hcard] at h ⊢
    obtain ⟨keys, hkeys, h⟩ := except_bind_eq_ok.1 h
    obtain ⟨refs, hrefs, h⟩ := except_bind_eq_ok.1 h
    obtain ⟨rfl, rfl⟩ := Prod.mk.inj (Except.ok.inj h)
    exact ⟨Model.basicFields_columns hkeys _, Model.basicFields_columns hrefs _⟩
  | many =>
    simp only [hcard] at h ⊢
    obtain ⟨refs, hrefs, h⟩ := except_bind_eq_ok.1 h
    obtain ⟨keys, hkeys, h⟩ := except_bind_eq_ok.1 h
    obtain ⟨rfl, rfl⟩ := Prod.mk.inj (Except.ok.inj h)
    exact ⟨Model.basicFields_columns hrefs _, Model.basicFields_columns hkeys _⟩

theorem Link.equalities_pairs {l : Link} {t : Table} {es : List Equality}
    (h : l.equalities t = .ok es) : l.Pairs t es := by
  rw [Link.equalities] at h
  obtain ⟨⟨child, parent⟩, hfields, h⟩ := except_bind_eq_ok.1 h
  obtain ⟨hchild, hparent⟩ := Link.fields_columns hfields
  simp only at h
  split at h
  case isTrue => exact absurd h nofun
  case isFalse hcounts =>
    obtain rfl := Except.ok.inj h
    obtain ⟨hsome, hlength⟩ : child ≠ [] ∧ child.length = parent.length := by simpa using hcounts
    have hleft : (child.zip parent).map Prod.fst = child := List.map_fst_zip hlength.le
    have hright : (child.zip parent).map Prod.snd = parent := List.map_snd_zip hlength.ge
    refine ⟨?_, ?_, ?_⟩
    · intro hnil
      rw [List.map_eq_nil_iff] at hnil
      rw [hnil] at hleft
      exact hsome hleft.symm
    · rw [← hleft, List.map_map] at hchild
      rw [List.map_map]
      exact hchild
    · rw [← hright, List.map_map] at hparent
      rw [List.map_map]
      exact hparent

/-! ## Rendering -/

/-- The predicate that leaves out the rows marked as deleted. It is missing where the model has no
column for the mark, and where such rows are asked for. -/
def Table.Hides (t : Table) (mark : Predicate) : Prop :=
  match t.access.model.basicField? deleteFlag, t.ignoreDeleted with
  | some flag, false => ∃ path, mark = .filled
      ⟨"$COL = #\x7bEXPR\x7d", [⟨.table t.number, flag.column⟩], path⟩ [⟨path, .bool false⟩]
  | _, _ => mark = .absent

/-- A path leads to a relationship of a table of the query. -/
def Scope.Relates (s : Scope) (path : String) (l : Link) : Prop :=
  ∃ t hops name f r, s.tree.Has t ∧ Path.all path = hops ++ [name] ∧
    t.path = s.table.path ++ hops ∧ t.access.field name s.checked = .ok f ∧
    f.kind = .relation r ∧ l = ⟨name, r, t.number, t.access.model⟩

mutual

/-- The predicate of a condition in a scope. -/
inductive Renders (catalog : Catalog) : Scope → Condition → Predicate → Prop where
  | nothing {s : Scope} {path : String} {op : Operator} {value : Value} {skipEmpty : Bool} :
      Condition.comparesNothing path op value skipEmpty = true →
      Renders catalog s (.compare path op value skipEmpty) .absent
  | compare {s : Scope} {path base : String} {op : Operator} {value : Value} {skipEmpty : Bool}
      {column : Column} {p : Predicate} :
      Condition.comparesNothing path op value skipEmpty = false → s.column path = .ok column →
      op.resolve column base value = .ok p → Renders catalog s (.compare path op value skipEmpty) p
  | group {s : Scope} {k : Connective} {cs : List Condition} {ps : List Predicate} :
      RendersAll catalog s cs ps → Renders catalog s (.group k cs) (.group k ps)
  | negate {s : Scope} {c : Condition} {p : Predicate} : Renders catalog s c p →
      Renders catalog s (.negate c) (.negate p)
  | custom {s : Scope} {template base : String} {paths : List String} {value : Option Value}
      {columns : List Column} : paths.mapM s.column = .ok columns →
      Renders catalog s (.custom template paths value)
        (.filled ⟨template, columns, Params.valuePath base⟩
          ((value.map (Binding.withItems (Params.valuePath base))).getD []))
  | search {s : Scope} {path base template : String} {value : Value} {mode : SearchMode}
      {column : Column} : catalog.dialect.searchTemplate mode = .ok template →
      s.column path = .ok column → Renders catalog s (.search path value mode)
        (.filled ⟨template, [column], Params.valuePath base⟩ [⟨Params.valuePath base, value⟩])
  | nowhere {s : Scope} {inner : Option Condition} {joins : List Join} {negated : Bool} :
      Renders catalog s (.related "" inner joins negated) .absent
  /-- A subquery is over the rows of its target that are linked to a row of the query around it. -/
  | related {s : Scope} {path : String} {inner : Option Condition} {joins : List Join}
      {negated : Bool} {l : Link} {tree : JoinTree} {link : List Equality}
      {clauses : List (JoinClause Predicate)} {enforced p : Predicate} : path ≠ "" →
      s.Relates path l → catalog.target l.parentModel l.name l.relation = .ok tree.root.access →
      tree.IsTree → tree.Serves catalog false (Keyed.sortBy JoinOf.path joins) →
      l.Pairs tree.root link → Carries catalog tree tree.inOrder clauses →
      Enforces catalog tree tree.root enforced →
      RendersOpt catalog ⟨tree, tree.root, s.checked⟩ inner p →
      Renders catalog s (.related path inner joins negated) (.related negated
        ⟨tree.root.access.model, tree.root.number, link, clauses, enforced⟩ p)

/-- The predicates of the members of a group. -/
inductive RendersAll (catalog : Catalog) : Scope → List Condition → List Predicate → Prop where
  | nil {s : Scope} : RendersAll catalog s [] []
  | cons {s : Scope} {c : Condition} {cs : List Condition} {p : Predicate} {ps : List Predicate} :
      Renders catalog s c p → RendersAll catalog s cs ps → RendersAll catalog s (c :: cs) (p :: ps)

/-- The predicate of a condition that may be missing. -/
inductive RendersOpt (catalog : Catalog) : Scope → Option Condition → Predicate → Prop where
  | none {s : Scope} : RendersOpt catalog s none .absent
  | some {s : Scope} {c : Condition} {p : Predicate} : Renders catalog s c p →
      RendersOpt catalog s (some c) p

/-- What the rows of a table are held to: the mark of deleted rows, and the caller's rule. -/
inductive Enforces (catalog : Catalog) : JoinTree → Table → Predicate → Prop where
  | unruled {tree : JoinTree} {t : Table} {mark : Predicate} : t.access.rows? = none →
      t.Hides mark → Enforces catalog tree t mark
  | ruled {tree : JoinTree} {t : Table} {c : Condition} {rule : Predicate} :
      t.access.rows? = some c → t.Hides .absent → Renders catalog ⟨tree, t, false⟩ c rule →
      Enforces catalog tree t rule
  | both {tree : JoinTree} {t : Table} {c : Condition} {mark rule : Predicate} :
      t.access.rows? = some c → t.Hides mark → Renders catalog ⟨tree, t, false⟩ c rule →
      Enforces catalog tree t (.group .and [mark, rule])

/-- The joins of tables: each has the table's link, what the table is held to, and what the request
asks of it. -/
inductive Carries (catalog : Catalog) : JoinTree → List Joined → List (JoinClause Predicate) → Prop
    where
  | nil {tree : JoinTree} : Carries catalog tree [] []
  | cons {tree : JoinTree} {j : Joined} {js : List Joined} {clause : JoinClause Predicate}
      {clauses : List (JoinClause Predicate)} : (∃ t ∈ tree.tables, j.HangsOn t) →
      clause.type = j.type → clause.model = j.access.model → clause.number = j.number →
      j.link.Pairs j.toTable clause.link → Enforces catalog tree j.toTable clause.filter.enforced →
      RendersOpt catalog ⟨tree, j.toTable, true⟩ j.condition clause.filter.requested →
      Carries catalog tree js clauses → Carries catalog tree (j :: js) (clause :: clauses)

end

/-! ## What is compiled is rendered -/

/-- A scope over tables that stand where their paths lead. -/
structure Scope.Stands (catalog : Catalog) (s : Scope) : Prop where
  walked : s.tree.Walked catalog false
  has : s.tree.Has s.table

/-- Paths stand for the columns of a scope, and the subqueries of relationships carry what their
tables are held to. -/
structure Names.Render (catalog : Catalog) (names : Names Scope) : Prop where
  column : names.column = Scope.column
  subquery : ∀ {s path joins paths body s' p p'}, s.Stands catalog →
    (names.subquery s path joins paths).run p = .ok (body, s') p' →
    ∃ l tree, s.Relates path l ∧
      catalog.target l.parentModel l.name l.relation = .ok tree.root.access ∧ tree.IsTree ∧
      tree.Serves catalog false (Keyed.sortBy JoinOf.path joins) ∧
      l.Pairs tree.root body.link ∧ body.model = tree.root.access.model ∧
      body.number = tree.root.number ∧ Carries catalog tree tree.inOrder body.joins ∧
      Enforces catalog tree tree.root body.enforced ∧ s' = ⟨tree, tree.root, s.checked⟩ ∧
      s'.Stands catalog

namespace Condition

variable {catalog : Catalog} {names : Names Scope}

theorem fill_column (hn : names.Render catalog) {s : Scope} {template : String}
    {paths : List String} {base : String} {sql : Filled}
    (h : names.fill s template paths base = .ok sql) : ∃ columns, paths.mapM s.column = .ok columns ∧
      sql = ⟨template, columns, Params.valuePath base⟩ := by
  rw [Names.fill, hn.column] at h
  obtain ⟨columns, hcolumns, h⟩ := except_bind_eq_ok.1 h
  exact ⟨columns, hcolumns, (Except.ok.inj h).symm⟩

mutual

theorem resolve_renders (hn : names.Render catalog) :
    ∀ (c : Condition) {s : Scope} {base : String} {r : Predicate} {p p' : Progress},
      s.Stands catalog → (c.resolve catalog.dialect names s base).run p = .ok r p' →
      Renders catalog s c r
  | .compare path op value skipEmpty, s, base, r, p, p', hs, h => by
    obtain ⟨-, ⟨hnothing, rfl⟩ | ⟨hcompares, column, hcolumn, hr⟩⟩ := resolve_compare_eq_ok.1 h
    · exact .nothing hnothing
    · rw [hn.column] at hcolumn
      exact .compare (Bool.eq_false_iff.2 hcompares) hcolumn hr
  | .group k members, s, base, r, p, p', hs, h => by
    obtain ⟨parts, hparts, rfl⟩ := resolve_group_eq_ok.1 h
    exact .group (resolveMembers_renders hn members hs hparts)
  | .negate inner, s, base, r, p, p', hs, h => by
    obtain ⟨q, hq, rfl⟩ := resolve_negate_eq_ok.1 h
    exact .negate (resolve_renders hn inner hs hq)
  | .custom template paths value, s, base, r, p, p', hs, h => by
    obtain ⟨-, sql, hfill, rfl⟩ := resolve_custom_eq_ok.1 h
    obtain ⟨columns, hcolumns, rfl⟩ := fill_column hn hfill
    exact .custom hcolumns
  | .search path value mode, s, base, r, p, p', hs, h => by
    obtain ⟨-, template, htemplate, sql, hfill, rfl⟩ := resolve_search_eq_ok.1 h
    obtain ⟨columns, hcolumns, rfl⟩ := fill_column hn hfill
    cases except_mapM_eq_ok.1 hcolumns with
    | cons hcolumn hnil =>
      cases hnil
      exact .search htemplate hcolumn
  | .related path inner joins negated, s, base, r, p, p', hs, h => by
    obtain ⟨hempty, -, rfl⟩ | ⟨hempty, body, s', mid, q, hbody, hq, rfl⟩ := resolve_related_eq_ok.1 h
    · obtain rfl := String.isEmpty_iff.1 hempty
      exact .nowhere
    · obtain ⟨l, tree, hrelates, htarget, htree, hserves, hpairs, hmodel, hnumber, hcarries, henforces,
        rfl, hs'⟩ := hn.subquery hs hbody
      obtain ⟨model, number, link, clauses, enforced⟩ := body
      obtain rfl : model = tree.root.access.model := hmodel
      obtain rfl : number = tree.root.number := hnumber
      have hpath : path ≠ "" := fun heq => hempty (String.isEmpty_iff.2 heq)
      have hinner := resolve?_renders hn hs' hq
      exact .related hpath hrelates htarget htree hserves hpairs hcarries henforces hinner

theorem resolve?_renders (hn : names.Render catalog) {c : Option Condition} {s : Scope}
    {base : String} {r : Predicate} {p p' : Progress} (hs : s.Stands catalog)
    (h : (resolve? catalog.dialect names c s base).run p = .ok r p') : RendersOpt catalog s c r := by
  cases c with
  | none =>
    obtain ⟨rfl, -⟩ := run_pure_eq_ok.1 h
    exact .none
  | some c => exact .some (resolve_renders hn c hs h)

theorem resolveMembers_renders (hn : names.Render catalog) :
    ∀ (cs : List Condition) {s : Scope} {base : String} {i : Nat} {rs : List Predicate}
      {p p' : Progress}, s.Stands catalog →
      (resolveMembers catalog.dialect names cs s base i).run p = .ok rs p' →
      RendersAll catalog s cs rs
  | [], s, base, i, rs, p, p', _, h => by
    obtain ⟨-, rfl⟩ := resolveMembers_nil_eq_ok.1 h
    exact .nil
  | c :: cs, s, base, i, rs, p, p', hs, h => by
    obtain ⟨r, mid, rs', hr, hrs, rfl⟩ := resolveMembers_cons_eq_ok.1 h
    exact .cons (resolve_renders hn c hs hr) (resolveMembers_renders hn cs hs hrs)

end

end Condition

/-! ## What tables are held to -/

namespace JoinTree

variable {catalog : Catalog} {names : Names Scope} {tree : JoinTree} {t : Table} {p p' : Progress}

theorem column_deleteFlag {flag : BasicField}
    (hflag : t.access.model.basicField? deleteFlag = some flag) :
    Scope.column ⟨tree, t, false⟩ deleteFlag = .ok ⟨.table t.number, flag.column⟩ := by
  obtain ⟨f, hf, hk⟩ := Model.basicField?_eq_some hflag
  have hfield : t.access.field deleteFlag false = .ok f := Access.field_eq_ok.2 ⟨hf, nofun⟩
  have hfind : tree.find t deleteFlag false = .ok (t, .field f) := by
    show tree.findFrom deleteFlag false [] t deleteFlag = _
    rw [findFrom, hfield]
    simp only [bind, Except.bind, hk]
  rw [Scope.column, hfind]
  simp only [bind, Except.bind, hk]

/-- The mark of deleted rows, resolved on a table that has it and leaves them out. -/
theorem notDeleted_hides (hn : names.Render catalog) {base : String} {mark : Predicate}
    (hmarks : (!t.ignoreDeleted && t.access.model.marksDeleted) = true)
    (h : (notDeleted.resolve catalog.dialect names ⟨tree, t, false⟩ base).run p = .ok mark p') :
    t.Hides mark := by
  obtain ⟨hignore, hmarked⟩ := Bool.and_eq_true_iff.1 hmarks
  obtain ⟨flag, hflag⟩ := Option.isSome_iff_exists.1 hmarked
  have hread : t.ignoreDeleted = false := by simpa using hignore
  rw [Table.Hides, hflag, hread]
  rw [notDeleted, Condition.resolve, if_neg (by decide)] at h
  obtain ⟨column, _, hcolumn, h⟩ := run_bind_eq_ok.1 h
  obtain ⟨hcolumn, -⟩ := run_ofExcept_eq_ok.1 hcolumn
  obtain ⟨hmark, -⟩ := run_ofExcept_eq_ok.1 h
  rw [hn.column, column_deleteFlag hflag] at hcolumn
  obtain rfl := Except.ok.inj hcolumn
  exact ⟨Params.valuePath base, (Except.ok.inj hmark).symm⟩

theorem hides_absent (h : (!t.ignoreDeleted && t.access.model.marksDeleted) ≠ true) :
    t.Hides .absent := by
  rw [Table.Hides]
  split
  case h_1 flag hflag hignore =>
    rw [hignore, Model.marksDeleted, hflag] at h
    exact absurd rfl h
  case h_2 => rfl

theorem enforced_enforces (hn : names.Render catalog) {base : String} {held : Predicate}
    (hs : Scope.Stands catalog ⟨tree, t, false⟩)
    (h : (tree.enforced catalog names t base).run p = .ok held p') :
    Enforces catalog tree t held := by
  rw [JoinTree.enforced, Access.enforced?] at h
  cases hrows : t.access.rows? with
  | none =>
    rw [hrows] at h
    refine .unruled hrows ?_
    split at h
    case isTrue hmarks => exact notDeleted_hides hn hmarks h
    case isFalse hmarks =>
      obtain ⟨rfl, -⟩ := run_pure_eq_ok.1 h
      exact hides_absent hmarks
  | some c =>
    rw [hrows] at h
    split at h
    case isTrue hmarks =>
      obtain ⟨parts, _, hparts, h⟩ := run_bind_eq_ok.1 h
      obtain ⟨rfl, -⟩ := run_pure_eq_ok.1 h
      obtain ⟨mark, _, hmark, hparts⟩ := run_bind_eq_ok.1 hparts
      obtain ⟨rest, _, hrest, hparts⟩ := run_bind_eq_ok.1 hparts
      obtain ⟨rfl, -⟩ := run_pure_eq_ok.1 hparts
      cases Condition.resolveMembers_renders hn [c] hs hrest with
      | cons hrule hnil =>
        cases hnil
        exact .both hrows (notDeleted_hides hn hmarks hmark) hrule
    case isFalse hmarks =>
      exact .ruled hrows (hides_absent hmarks) (c.resolve_renders hn hs h)

theorem clauses_carry (hn : names.Render catalog) (hw : tree.Walked catalog false)
    (htree : tree.IsTree) {clauses : List (JoinClause Predicate)}
    (h : (tree.clauses catalog names).run p = .ok clauses p') :
    Carries catalog tree tree.inOrder clauses := by
  have hmem : ∀ j ∈ tree.inOrder, j ∈ tree.joined := fun j hj => tree.inOrder_perm.subset hj
  have hruns := run_mapM h
  clear h
  generalize tree.inOrder = js at hruns hmem
  induction hruns with
  | nil => exact .nil
  | @cons j clause js clauses hrun _ ih =>
    have hj := hmem j List.mem_cons_self
    have hhas : tree.Has j.toTable := .of_mem hj
    obtain ⟨q, q', hclause⟩ := hrun
    obtain ⟨_, hlink, htype, hmodel, hnumber, henforced, hasked⟩ := clause_eq_ok hclause
    refine .cons (htree.exists_hangsOn hj) htype hmodel hnumber (Link.equalities_pairs hlink) ?_ ?_ ?_
    · exact enforced_enforces hn ⟨hw, hhas⟩ henforced
    · exact Condition.resolve?_renders hn ⟨hw, hhas⟩ hasked
    · exact ih fun j' hj' => hmem j' (List.mem_cons_of_mem _ hj')

end JoinTree

/-- At every depth, the names of a join tree carry what their tables are held to. -/
theorem Names.render_ofTree (catalog : Catalog) (depth : Nat) :
    (Names.ofTree catalog depth).Render catalog := by
  induction depth with
  | zero => exact ⟨rfl, fun _ h => absurd h nofun⟩
  | succ depth ih =>
    refine ⟨rfl, ?_⟩
    intro s path joins paths body s' p p' hs h
    change (s.subquery catalog (Names.ofTree catalog depth) path joins paths).run p = _ at h
    obtain ⟨link, access, tree, _, _, hlink, htarget, hmade, hserves, hmodel, hnumber, hequalities,
      hclauses, henforced, rfl⟩ := Scope.subquery_eq_ok h
    obtain ⟨t, hops, name, f, r, hhas, hall, hpath, -, hf, hk, rfl⟩ :=
      Scope.link_eq_ok hs.walked hs.has hlink
    have hw := hmade.walked
    have htree := hmade.isTree
    obtain rfl := hmade.access_eq
    refine ⟨_, tree, ⟨t, hops, name, f, r, hhas, hall, hpath, hf, hk, rfl⟩, htarget, htree, hserves,
      Link.equalities_pairs hequalities, hmodel, hnumber, ?_, ?_, rfl, hw, .root⟩
    · exact JoinTree.clauses_carry ih hw htree hclauses
    · exact JoinTree.enforced_enforces ih ⟨hw, .root⟩ henforced

end QueryCompiler
