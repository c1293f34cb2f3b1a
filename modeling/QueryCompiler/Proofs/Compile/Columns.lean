import QueryCompiler.Compile.Tables
import QueryCompiler.Proofs.Build.Run
import QueryCompiler.Proofs.JoinTree.Growth

/-!
# What columns and terms of the order are made of

One lemma for each kind of column. The selected columns are those of the tables, whether or not they
are grouped; computed columns, aggregates and terms of the order stand for items of the request.
-/

namespace QueryCompiler

variable {names : Names Scope} {tree : JoinTree} {l : Leaf}

/-! ## Leaves -/

namespace ResultColumn

theorem mem_leaves {cs : List ResultColumn} : l ∈ leaves cs ↔ ∃ c ∈ cs, l ∈ c.leavesOf := by
  induction cs with
  | nil => simp [leaves]
  | cons c cs ih => simp [leaves, ih]

theorem leaves_append (cs ds : List ResultColumn) : leaves (cs ++ ds) = leaves cs ++ leaves ds := by
  induction cs with
  | nil => rfl
  | cons c cs ih => rw [List.cons_append, leaves, leaves, ih, List.append_assoc]

theorem mem_leaves_append {cs ds : List ResultColumn} :
    l ∈ leaves (cs ++ ds) ↔ l ∈ leaves cs ∨ l ∈ leaves ds := by
  rw [leaves_append, List.mem_append]

theorem leaves_map_leaf (ls : List Leaf) : leaves (ls.map .leaf) = ls := by
  induction ls with
  | nil => rfl
  | cons l ls ih => rw [List.map_cons, leaves, leavesOf, ih, List.singleton_append]

/-- Columns that are one leaf for each of the items of a list. -/
theorem leaves_forall₂ {α : Type} {R : α → Leaf → Prop} {as : List α} {cs : List ResultColumn}
    (h : List.Forall₂ (fun a c => ∃ l, c = .leaf l ∧ R a l) as cs) :
    List.Forall₂ R as (leaves cs) := by
  induction h with
  | nil => exact .nil
  | @cons a c as cs hc _ ih =>
    obtain ⟨l, rfl, hl⟩ := hc
    exact .cons hl ih

theorem mem_groupKeys {columns : List ResultColumn} {e : Expression} (h : e ∈ groupKeys columns) :
    ∃ l ∈ leaves columns, l.expression = e := by
  obtain ⟨l, hl, he⟩ := List.mem_filterMap.1 h
  split at he
  · exact ⟨l, hl, Option.some.inj he⟩
  · exact absurd he nofun

end ResultColumn

/-! ## Selected columns -/

theorem Table.isChosen_iff {t : Table} {name : String} :
    t.isChosen name = true ↔ ∃ choice, (name, choice) ∈ t.chosen := by
  simp [isChosen]

theorem Table.mem_leaves {t : Table} (h : l ∈ t.leaves) :
    ∃ f ∈ t.access.model.fields, ∃ b : BasicField, t.isChosen f.name = true ∧
      (f.name = deleteFlag → t.ignoreDeleted = true) ∧
      l.expression = .column ⟨.table t.number, b.column⟩ ∧
      (f.kind = .basic b ∧ l.property = columnMark t.path ++ f.name ∨
        ∃ g, f.kind = .group g ∧ b ∈ g.fields ∧
          l.property = columnMark t.path ++ f.name ++ "." ++ b.name) := by
  obtain ⟨f, hf, hl⟩ := List.mem_flatMap.1 h
  rw [fieldLeaves] at hl
  split at hl
  · exact absurd hl List.not_mem_nil
  case isFalse hshown =>
    simp only [Bool.or_eq_true, Bool.not_eq_true', Bool.and_eq_true, beq_iff_eq, not_or,
      not_and, Bool.not_eq_false] at hshown
    obtain ⟨hchosen, hflag⟩ := hshown
    cases hk : f.kind with
    | relation r => simp [hk] at hl
    | basic b =>
      simp only [hk, List.mem_singleton] at hl
      subst hl
      exact ⟨f, hf, b, hchosen, hflag, rfl, .inl ⟨hk, rfl⟩⟩
    | group g =>
      simp only [hk] at hl
      obtain ⟨b, hb, rfl⟩ := List.mem_map.1 hl
      exact ⟨f, hf, b, hchosen, hflag, rfl, .inr ⟨g, hk, (List.mem_filter.1 hb).1, rfl⟩⟩

namespace JoinTree

/-- What is grouped below a table are its columns, and then those of the groups behind it. -/
theorem leaves_groupBelow (j : Joined) (after : List (TablePath × ResultColumn)) :
    ResultColumn.leaves ((groupBelow j after).map (·.2)) =
      j.toTable.leaves ++ ResultColumn.leaves (after.map (·.2)) := by
  have hafter := congrArg (fun es => ResultColumn.leaves (es.map (·.2)))
    (List.takeWhile_append_dropWhile (p := fun e => j.path.isPrefixOf e.1) (l := after))
  simp only [List.map_append, ResultColumn.leaves_append] at hafter
  have hown : ResultColumn.leaves (j.toTable.leaves.map ResultColumn.leaf ++
      (after.takeWhile fun e => j.path.isPrefixOf e.1).map (·.2)) =
      j.toTable.leaves ++
        ResultColumn.leaves ((after.takeWhile fun e => j.path.isPrefixOf e.1).map (·.2)) := by
    rw [ResultColumn.leaves_append, ResultColumn.leaves_map_leaf]
  rw [groupBelow]
  simp only
  split
  case h_1 hnone =>
    rw [hnone, ResultColumn.leaves] at hown
    obtain ⟨hleaves, hinner⟩ := List.append_eq_nil_iff.1 hown.symm
    rw [hleaves, List.nil_append, ← hafter, hinner, List.nil_append]
  case h_2 columns hcolumns =>
    rw [List.map_cons, ResultColumn.leaves, ResultColumn.leavesOf, hown, List.append_assoc, hafter]

/-- With and without grouping, the selected columns are those of the tables, table by table. -/
theorem leaves_columns (tree : JoinTree) (nested : Bool) :
    ResultColumn.leaves (tree.columns nested) = tree.listed.flatMap Table.leaves := by
  rw [columns, ResultColumn.leaves_append, ResultColumn.leaves_map_leaf, listed, List.flatMap_cons]
  congr 1
  rw [List.flatMap_map]
  cases nested with
  | false => rw [if_neg Bool.false_ne_true, ResultColumn.leaves_map_leaf]
  | true =>
    rw [if_pos rfl]
    induction tree.inOrder with
    | nil => rfl
    | cons j js ih => rw [List.foldr_cons, leaves_groupBelow, ih, List.flatMap_cons]

theorem mem_leaves_columns {nested : Bool}
    (h : l ∈ ResultColumn.leaves (tree.columns nested)) : ∃ t ∈ tree.tables, l ∈ t.leaves := by
  rw [leaves_columns] at h
  obtain ⟨t, ht, hl⟩ := List.mem_flatMap.1 h
  exact ⟨t, tree.listed_perm.subset ht, hl⟩

/-! ## Columns and terms of the request -/

/-- The column of a computed column, which is the one at place `i` of the request. -/
def Computes (names : Names Scope) (tree : JoinTree) (c : ComputedColumn) (i : Nat)
    (column : ResultColumn) : Prop :=
  ∃ sql, names.fill tree.callerScope c.template c.paths ("select[" ++ Nat.repr i ++ "]") = .ok sql ∧
    column = .leaf ⟨.filled sql, c.name, false, false⟩

theorem computedColumns_eq_ok {computed : List ComputedColumn} {columns : List ResultColumn}
    {bindings : List Binding} (h : tree.computedColumns names computed = .ok (columns, bindings)) :
    List.Forall₂ (fun e column => Computes names tree e.1 e.2 column) computed.zipIdx columns ∧
      bindings = computed.zipIdx.flatMap fun e =>
        templateBinding ("select[" ++ Nat.repr e.2 ++ "]") e.1.value := by
  obtain ⟨pairs, hpairs, heq⟩ := except_bind_eq_ok.1 h
  obtain ⟨rfl, rfl⟩ := Prod.mk.inj (Except.ok.inj heq)
  replace hpairs := except_mapM_eq_ok.1 hpairs
  generalize computed.zipIdx = es at hpairs ⊢
  clear h heq
  induction hpairs with
  | nil => exact ⟨.nil, rfl⟩
  | @cons e pair es pairs hpair _ ih =>
    obtain ⟨hcolumns, hbindings⟩ := ih
    obtain ⟨sql, hsql, hpair⟩ := except_bind_eq_ok.1 hpair
    obtain rfl := Except.ok.inj hpair
    refine ⟨.cons ⟨sql, hsql, rfl⟩ hcolumns, ?_⟩
    rw [List.flatMap_cons, List.flatMap_cons, hbindings]

theorem aggregateColumn_eq_ok {d : Dialect} {i : AggregateItem} {column : ResultColumn}
    (h : tree.aggregateColumn d names i = .ok column) :
    i.countsRows = true ∧ column = .leaf ⟨.rowCount, i.resultName, false, false⟩ ∨
      ∃ c e, names.column tree.callerScope i.path = .ok c ∧
        column = .leaf ⟨e, i.resultName, false, i.function.isGroupKey⟩ ∧
        (e = .aggregate i.function d c ∨
          ∃ template, i.template = some template ∧ e = .groupKey template c) := by
  rw [aggregateColumn] at h
  split at h
  case isTrue hrows => exact .inl ⟨hrows, (Except.ok.inj h).symm⟩
  case isFalse =>
    obtain ⟨c, hc, h⟩ := except_bind_eq_ok.1 h
    refine .inr ⟨c, _, hc, (Except.ok.inj h).symm, ?_⟩
    split
    case h_1 template htemplate =>
      split
      · exact .inr ⟨template, htemplate, rfl⟩
      · exact .inl rfl
    case h_2 => exact .inl rfl

/-- Every term of the order stands for one of the request: a template over its column, or the
column. -/
theorem mem_orderKeys {order : List OrderTerm} {keys : List OrderKey}
    (h : tree.orderKeys names order = .ok keys) {key : OrderKey} (hkey : key ∈ keys) :
    ∃ o i, (o, i) ∈ order.zipIdx ∧
      ((∃ template sql, o.template = some template ∧
          names.fill tree.callerScope template o.path.toList ("o" ++ Nat.repr i) = .ok sql ∧
          key = ⟨.filled sql, o.ascending, templateBinding ("o" ++ Nat.repr i) o.value⟩) ∨
        ∃ path column, o.template = none ∧ o.path = some path ∧
          names.column tree.callerScope path = .ok column ∧
          key = ⟨.column column, o.ascending, []⟩) := by
  obtain ⟨keys?, hkeys, h⟩ := except_bind_eq_ok.1 h
  obtain rfl := Except.ok.inj h
  obtain ⟨key?, hmem, rfl⟩ := List.mem_filterMap.1 hkey
  obtain ⟨⟨o, i⟩, ho, hrun⟩ := forall₂_mem_right (except_mapM_eq_ok.1 hkeys) hmem
  refine ⟨o, i, ho, ?_⟩
  change tree.orderKey? names o i = .ok (some key) at hrun
  unfold orderKey? at hrun
  cases htemplate : o.template with
  | some template =>
    simp only [htemplate] at hrun
    obtain ⟨sql, hsql, hrun⟩ := except_bind_eq_ok.1 hrun
    exact .inl ⟨template, sql, rfl, hsql, (Option.some.inj (Except.ok.inj hrun)).symm⟩
  | none =>
    cases hpath : o.path with
    | none =>
      simp only [htemplate, hpath] at hrun
      exact absurd (Except.ok.inj hrun) nofun
    | some path =>
      simp only [htemplate, hpath] at hrun
      obtain ⟨column, hcolumn, hrun⟩ := except_bind_eq_ok.1 hrun
      exact .inr ⟨path, column, rfl, rfl, hcolumn, (Option.some.inj (Except.ok.inj hrun)).symm⟩

end JoinTree
end QueryCompiler
