import QueryCompiler.Proofs.Parameters.Bag
import QueryCompiler.Proofs.Parameters.Texts
import QueryCompiler.Proofs.Sql.Identifiers

/-!
# The placeholders of commands

The text of a command names what the command binds if each of its parts does. The order may differ: a
growing table binds first what its text names last, and some dialects name the offset of a page before
its size.
-/

namespace QueryCompiler

open Params (IsPath isPath_of_all)

variable {d : Dialect} {s t : String}

/-! ## Result columns -/

/-- A name stays plain between quote marks. -/
theorem Dialect.marks_quoteName (h : Marks s []) : Marks (d.quoteName s) [] := by
  have hmark : d.quoteMark ≠ '#' ∧ d.quoteMark ≠ '\x7b' := by cases d <;> decide
  have hdouble : ∀ {cs : List Char}, Piece.Marked cs [] →
      Piece.Marked (doubled d.quoteMark cs) [] := by
    intro cs
    induction cs with
    | nil => exact fun _ => .nil
    | cons c cs ih =>
      intro h
      cases h with
      | char hseam h =>
        rw [doubled, List.flatMap_cons, ← doubled]
        split
        · exact .char (fun heq => absurd heq hmark.1) (.char (fun heq => absurd heq hmark.1) (ih h))
        · refine .char (fun hhash => ?_) (ih h)
          cases cs with
          | nil => simp [doubled]
          | cons c' cs =>
            have hc' := hseam hhash
            show (doubled d.quoteMark (c' :: cs)).head? ≠ _
            rw [doubled, List.flatMap_cons]
            split
            · simpa using hmark.2
            · simpa using hc'
  rw [Marks, toList_quoteName]
  refine .char (fun heq => absurd heq hmark.1) ?_
  have hend : Piece.Marked [d.quoteMark] [] := .char (fun heq => absurd heq hmark.1) .nil
  exact (hdouble h).append hend (by simpa using hmark.2)

/-- The leaf has a plain name, and its expression names these paths. -/
structure Leaf.Marks (l : Leaf) (paths : List String) : Prop where
  expression : QueryCompiler.Marks l.expression.text paths
  property : QueryCompiler.Marks l.property []

/-- The columns have plain names, and their expressions name these paths. -/
def ResultColumn.Marks (columns : List ResultColumn) (paths : List String) : Prop :=
  ∃ pathss, List.Forall₂ Leaf.Marks (leaves columns) pathss ∧ pathss.flatten = paths

theorem ResultColumn.Marks.selectText {columns : List ResultColumn} {paths : List String}
    (h : ResultColumn.Marks columns paths) :
    QueryCompiler.Marks (ResultColumn.selectText d columns) paths := by
  obtain ⟨pathss, h, rfl⟩ := h
  rw [ResultColumn.selectText]
  split
  case h_1 hnone =>
    rw [hnone] at h
    cases h
    exact .text "*" (by decide)
  · refine .intercalate ", " (by decide) ?_
    rw [List.forall₂_map_left_iff]
    refine h.imp fun l paths hl => ?_
    have hboth := hl.expression.between " AS " (by decide) (Dialect.marks_quoteName (d := d) hl.property)
    rwa [List.append_nil] at hboth

/-! ## Clauses -/

theorem Filter.marks_text {f : Filter Predicate} (henforced : Marks f.enforced.text f.enforced.paths)
    (hrequested : Marks f.requested.text f.requested.paths) :
    Marks f.text (f.bindings.map Binding.path) := by
  have h := Marks.joinFragments (.cons henforced (.cons hrequested .nil)) .and
  simpa [Filter.text, Filter.bindings, Predicate.paths] using h

theorem Limit.accounts (l : Limit) : Accounts (l.text d) (l.bindings.map Binding.path) := by
  have hrows : Marks (Params.placeholder rowsParam) [rowsParam] :=
    .placeholder (isPath_of_all (by decide))
  have hoffset : Marks (Params.placeholder offsetParam) [offsetParam] :=
    .placeholder (isPath_of_all (by decide))
  have hfirst : Marks ("LIMIT " ++ Params.placeholder rowsParam) [rowsParam] :=
    .text_append _ (by decide) hrows
  have hpast := hfirst.between " OFFSET " (by decide) hoffset
  rw [Limit.text, Limit.bindings]
  refine .text_append " " (by decide) ?_
  split
  · cases d with
    | oracle =>
      have hskip : Marks ("OFFSET " ++ Params.placeholder offsetParam) [offsetParam] :=
        .text_append _ (by decide) hoffset
      have hall := (hskip.between " ROWS FETCH NEXT " (by decide) hrows).append_gap " ROWS ONLY"
        (by decide)
      exact ⟨_, hall, .swap _ _ _⟩
    | h2 | mysql | oceanBase | postgresql | sqlite => exact .of_marks hpast
  · cases d with
    | oracle =>
      have hfetch : Marks ("FETCH FIRST " ++ Params.placeholder rowsParam) [rowsParam] :=
        .text_append _ (by decide) hrows
      exact .of_marks (hfetch.append_gap " ROWS ONLY" (by decide))
    | h2 | mysql | oceanBase | postgresql | sqlite => exact .of_marks hfirst

theorem Marks.optionalClause {paths : List String} (word : String) (hword : '#' ∉ word.toList)
    (h : Marks s paths) : Marks (optionalClause word s) paths := by
  rw [QueryCompiler.optionalClause]
  split
  case isTrue hempty => rwa [String.isEmpty_iff.1 hempty] at h
  · exact text_append word hword h

theorem optionalClause_head (word : String) (hword : isGap word = true) (s : String) :
    (optionalClause word s).toList.head? ≠ some '\x7b' := by
  rw [optionalClause]
  split
  · decide
  · exact Marks.gap_head hword s

/-- Every part of the clauses has plain names and names what it binds. -/
structure Tail.Marked (t : Tail) : Prop where
  model : ∀ m ∈ t.source.model, m.isPlain = true
  joins : ∀ j ∈ t.source.joins, Predicate.JoinMarks j
  enforced : Marks t.filter.enforced.text t.filter.enforced.paths
  requested : Marks t.filter.requested.text t.filter.requested.paths
  groupKeys : ∀ e ∈ t.groupKeys, Marks e.text []
  order : ∀ k ∈ t.order, Marks k.expression.text (k.bindings.map Binding.path)

theorem From.marks_text {f : From} (hmodel : ∀ m ∈ f.model, m.isPlain = true)
    (hjoins : ∀ j ∈ f.joins, Predicate.JoinMarks j) :
    Marks f.text (Predicate.joinsPaths f.joins) := by
  rw [From.text]
  refine Marks.append (show Marks _ [] from .text_append " FROM " (by decide) ?_)
    (Predicate.marks_joinsText hjoins) (Predicate.joinsText_head f.joins)
  split
  case h_1 m hm =>
    exact (Model.marks_qualifiedTable (hmodel m hm)).between " AS " (by decide)
      (marks_tableAlias f.number)
  case h_2 => exact marks_tableAlias _

theorem OrderKey.marks_texts {keys : List OrderKey}
    (h : ∀ k ∈ keys, Marks k.expression.text (k.bindings.map Binding.path)) :
    Marks (", ".intercalate (keys.map OrderKey.text))
      ((keys.flatMap OrderKey.bindings).map Binding.path) := by
  have hall : List.Forall₂ Marks (keys.map OrderKey.text)
      (keys.map fun k => k.bindings.map Binding.path) := by
    rw [List.forall₂_map_left_iff, List.forall₂_map_right_iff, List.forall₂_same]
    intro k hk
    rw [OrderKey.text]
    cases k.ascending with
    | true => simpa using h k hk
    | false => exact (h k hk).append_gap " DESC" (by decide)
  have hflatten : (keys.map fun k => k.bindings.map Binding.path).flatten =
      (keys.flatMap OrderKey.bindings).map Binding.path := by
    rw [List.map_flatMap, List.flatMap_def]
  rw [← hflatten]
  exact .intercalate _ (by decide) hall

theorem Tail.accounts {t : Tail} (h : t.Marked) :
    Accounts (t.text d) (t.bindings.map Binding.path) := by
  have hwhere := (Filter.marks_text h.enforced h.requested).optionalClause " WHERE " (by decide)
  have hsource := (From.marks_text h.model h.joins).append hwhere
    (optionalClause_head " WHERE " (by decide) _)
  have hgroup : Marks (if t.groupKeys.isEmpty then ""
      else " GROUP BY " ++ ", ".intercalate (t.groupKeys.map Expression.text)) [] := by
    split
    · exact .empty
    · have hall : List.Forall₂ Marks (t.groupKeys.map Expression.text) (t.groupKeys.map fun _ => [])
          := by
        rw [List.forall₂_map_left_iff, List.forall₂_map_right_iff, List.forall₂_same]
        exact h.groupKeys
      have hnone : (t.groupKeys.map fun _ => ([] : List String)).flatten = [] := by simp
      rw [← hnone]
      exact .text_append _ (by decide) (.intercalate ", " (by decide) hall)
  have hgroupHead : (if t.groupKeys.isEmpty then ""
      else " GROUP BY " ++ ", ".intercalate (t.groupKeys.map Expression.text)).toList.head? ≠
        some '\x7b' := by
    split
    · decide
    · exact Marks.gap_head (by decide) _
  have horder := (OrderKey.marks_texts h.order).optionalClause " ORDER BY " (by decide)
  have hclauses := (hsource.append hgroup hgroupHead).append horder
    (optionalClause_head " ORDER BY " (by decide) _)
  have hpaths : t.bindings.map Binding.path = Predicate.joinsPaths t.source.joins ++
      t.filter.bindings.map Binding.path ++ [] ++
      (t.order.flatMap OrderKey.bindings).map Binding.path ++
      ((t.limit.map Limit.bindings).getD []).map Binding.path := by
    simp [Tail.bindings, Predicate.joinsPaths]
  rw [hpaths]
  refine (Accounts.of_marks hclauses).append ?_ ?_
  · cases t.limit with
    | none => exact .of_marks .empty
    | some l => exact l.accounts
  · cases t.limit with
    | none => simp
    | some l => exact Marks.gap_head (by decide) _

theorem Tail.text_head (t : Tail) : (t.text d).toList.head? ≠ some '\x7b' := by
  simp [t.head?_text d]

/-- Every part of the growing table has plain names and names what it binds. -/
structure Hierarchy.Marked (h : Hierarchy) : Prop where
  columns : ∀ c ∈ h.columns, Text.isPlain c = true
  model : h.model.isPlain = true
  enforced : Marks h.anchor.enforced.text h.anchor.enforced.paths
  requested : Marks h.anchor.requested.text h.anchor.requested.paths
  step : ∀ p ∈ h.step, Marks p.text p.paths
  link : ∀ e ∈ h.link, e.isPlain = true

theorem Hierarchy.accounts {h : Hierarchy} (hm : h.Marked) :
    Accounts (h.text d) (h.bindings.map Binding.path) := by
  have hnone : ∀ cs : List String, (cs.map fun _ => ([] : List String)).flatten = [] := by simp
  have hcolumns : Marks (", ".intercalate h.columns) [] := by
    rw [← hnone h.columns]
    refine .intercalate _ (by decide) ?_
    rw [List.forall₂_map_right_iff, List.forall₂_same]
    exact fun c hc => marks_of_isPlain (hm.columns c hc)
  have hrow : Marks (", ".intercalate (h.columns.map fun c => (Column.mk .row c).text)) [] := by
    rw [← hnone h.columns]
    refine .intercalate _ (by decide) ?_
    rw [List.forall₂_map_left_iff, List.forall₂_map_right_iff, List.forall₂_same]
    exact fun c hc => Column.marks (hm.columns c hc)
  have hsource : Marks (h.model.qualifiedTable ++ " " ++ rowAlias) [] :=
    (Model.marks_qualifiedTable hm.model).between " " (by decide) (.text _ (by decide))
  have hword : '#' ∉ (d.recursiveWith ++ " ").toList := by cases d <;> decide
  have halias := Marks.text_append _ hword (marks_tableAlias hierarchyAlias)
  have hhead := (halias.between "(" (by decide) hcolumns).between ") AS (SELECT " (by decide) hrow
  have hanchor := (hhead.between " FROM " (by decide) hsource).between " WHERE " (by decide)
    (Filter.marks_text hm.enforced hm.requested)
  have hgrow := ((hanchor.between " UNION ALL SELECT " (by decide) hrow).between " FROM "
    (by decide) hsource).between " JOIN " (by decide) (marks_tableAlias hierarchyAlias)
  refine ⟨_, (hgrow.between_append " ON " (by decide) (show Marks _
    (((h.step.map Predicate.bindings).getD []).map Binding.path) from ?_)).append_gap ") "
    (by decide), ?_⟩
  · have hlink := Equality.marks_texts hm.link
    cases hs : h.step with
    | none =>
      simp only [String.empty_append]
      exact hlink
    | some p =>
      have hboth := (hm.step p hs).between " AND " (by decide) hlink
      rw [List.append_nil] at hboth
      exact hboth
  · simp only [Filter.bindings, Hierarchy.bindings, List.map_append, List.nil_append,
      List.append_nil]
    exact List.perm_append_comm.append_right _

/-! ## Commands -/

/-- Every part of a query has plain names and names what it binds. -/
structure Select.Marked (s : Select) : Prop where
  hierarchy : ∀ h ∈ s.hierarchy, h.Marked
  list : s.list = .one ∧ s.listBindings = [] ∨ ∃ columns, s.list = .columns columns ∧
    ResultColumn.Marks columns (s.listBindings.map Binding.path)
  tail : s.tail.Marked

theorem Select.accounts {s : Select} (h : s.Marked) :
    Accounts (s.text d) (s.bindings.map Binding.path) := by
  have hlist : Marks (s.list.text d) (s.listBindings.map Binding.path) := by
    rcases h.list with ⟨hone, hnone⟩ | ⟨columns, hcolumns, hmarks⟩
    · rw [hone, hnone]
      exact .text "1" (by decide)
    · rw [hcolumns]
      exact hmarks.selectText
  have hpaths : s.bindings.map Binding.path =
      ((s.hierarchy.map Hierarchy.bindings).getD []).map Binding.path ++
        s.listBindings.map Binding.path ++ s.tail.bindings.map Binding.path := by
    simp [Select.bindings]
  rw [hpaths]
  refine (Accounts.between ?_ "SELECT " (by decide) (.of_marks hlist)).append
    (Tail.accounts h.tail) s.tail.text_head
  cases hs : s.hierarchy with
  | none => exact .of_marks .empty
  | some table => exact Hierarchy.accounts (h.hierarchy table hs)

end QueryCompiler
