import QueryCompiler.Proofs.Parameters.Paths
import QueryCompiler.Proofs.Parameters.Plain
import QueryCompiler.Proofs.Sql.Filling

/-!
# The placeholders of predicates

The text of a predicate over plain names marks the paths of the predicate's bindings, in their order.
There is one lemma for each way in which texts are put together, so that conditions can be followed as
they are resolved.
-/

namespace QueryCompiler

open Params (IsPath)

variable {s t path : String}

/-! ## Names -/

theorem Text.isPlain_iff : Text.isPlain s = true ↔
    occursIn ['#', '\x7b'] s.toList = false ∧ occursIn "EXPR".toList s.toList = false := by
  simp [isPlain, contains]

theorem marks_of_isPlain (h : Text.isPlain s = true) : Marks s [] :=
  Piece.marked_of_not_occursIn (Text.isPlain_iff.1 h).1

theorem Text.occursIn_append_of_notMem {x : Char} {p a : List Char} (hx : x ∉ a) (b : List Char) :
    occursIn (x :: p) (a ++ b) = occursIn (x :: p) b := by
  induction a with
  | nil => rfl
  | cons c a ih =>
    rw [List.mem_cons, not_or] at hx
    have hpre : (x :: p).isPrefixOf (c :: (a ++ b)) = false := by
      rw [List.isPrefixOf, beq_false_of_ne hx.1, Bool.false_and]
    rw [List.cons_append, occursIn, hpre, Bool.false_or, ih hx.2]

/-- What stands before the name of a column. -/
def Qualifier.mark : Qualifier → String
  | .bare => ""
  | .row => rowAlias ++ "."
  | .table n => tableAlias n ++ "."

theorem Column.text_eq (c : Column) : c.text = c.qualifier.mark ++ c.name := by
  obtain ⟨qualifier, name⟩ := c
  cases qualifier <;> simp [Column.text, Qualifier.mark]

theorem Qualifier.not_mem_mark {c : Char} (hc : c = '#' ∨ c = 'E') (q : Qualifier) :
    c ∉ q.mark.toList := by
  cases q with
  | bare => simp [mark]
  | row => rcases hc with rfl | rfl <;> decide
  | table n =>
    have hrepr := Params.not_mem_repr (c := c) (by rcases hc with rfl | rfl <;> decide) n
    rw [Nat.toList_repr] at hrepr
    rcases hc with rfl | rfl <;> simp [mark, tableAlias, hrepr]

theorem Column.marks {c : Column} (h : Text.isPlain c.name = true) : Marks c.text [] := by
  rw [Column.text_eq]
  exact .text_append _ (c.qualifier.not_mem_mark (.inl rfl)) (marks_of_isPlain h)

/-- The slot of a path does not stand in a column. -/
theorem Column.replaceAll_path {c : Column} (h : Text.isPlain c.name = true) (path : List Char) :
    Text.replaceAll "EXPR".toList path c.text.toList = c.text.toList := by
  refine Text.replaceAll_of_not_occursIn ?_
  rw [Column.text_eq, String.toList_append]
  exact (Text.occursIn_append_of_notMem (c.qualifier.not_mem_mark (.inr rfl)) _).trans
    (Text.isPlain_iff.1 h).2

theorem marks_tableAlias (n : Nat) : Marks (tableAlias n) [] := by
  have hrepr := Params.not_mem_repr (c := '#') (by decide) n
  rw [Nat.toList_repr] at hrepr
  exact .text _ (by simp [tableAlias, hrepr])

theorem Model.marks_qualifiedTable {m : Model} (h : m.isPlain = true) :
    Marks m.qualifiedTable [] := by
  simp only [isPlain, Bool.and_eq_true] at h
  obtain ⟨⟨hschema, htable⟩, -⟩ := h
  have htable := marks_of_isPlain htable
  rw [qualifiedTable]
  cases hm : m.schema with
  | none => exact htable
  | some schema =>
    rw [hm, Option.all_some] at hschema
    exact (marks_of_isPlain hschema).between "." (by decide) htable

/-- Columns that are set equal have plain names. -/
def Equality.isPlain (e : Equality) : Bool :=
  Text.isPlain e.left.name && Text.isPlain e.right.name

theorem Equality.marks_texts {es : List Equality} (h : ∀ e ∈ es, e.isPlain = true) :
    Marks (Equality.texts es) [] := by
  have hall : List.Forall₂ Marks (es.map Equality.text) (es.map fun _ => []) := by
    rw [List.forall₂_map_left_iff, List.forall₂_map_right_iff, List.forall₂_same]
    intro e he
    have hplain := Bool.and_eq_true_iff.1 (h e he)
    exact (Column.marks hplain.1).between " = " (by decide) (Column.marks hplain.2)
  have hnone : (es.map fun _ => ([] : List String)).flatten = [] := by simp
  rw [← hnone]
  exact .intercalate _ (by decide) hall

/-! ## Templates -/

/-- The template names its path in one placeholder, behind its only column. -/
def Slot.Framed (slots : List Slot) : Prop :=
  ∃ lead gap tail : String, '#' ∉ lead.toList ∧ isGap gap = true ∧ '#' ∉ tail.toList ∧
    ∀ column path : List Char, slots.flatMap (Slot.filled column path) =
      lead.toList ++ column ++ gap.toList ++ '#' :: '\x7b' :: (path ++ '\x7d' :: tail.toList)

/-- The template is made of slots that name its path in one placeholder. -/
def NamesOnce (template : String) : Prop :=
  ∃ slots, Slot.Framed slots ∧ Slot.spaced slots = true ∧
    template.toList = slots.flatMap Slot.source

/-- The text of the template, whatever its path is. -/
theorem NamesOnce.exists_text {template : String} {column : Column} (h : NamesOnce template)
    (hcolumn : Text.isPlain column.name = true) : ∃ lead gap tail : String, '#' ∉ lead.toList ∧
      isGap gap = true ∧ '#' ∉ tail.toList ∧ ∀ path, Filled.text ⟨template, [column], path⟩ =
        lead ++ column.text ++ gap ++ (Params.placeholder path ++ tail) := by
  obtain ⟨slots, ⟨lead, gap, tail, hlead, hgap, htail, heq⟩, hspaced, htemplate⟩ := h
  refine ⟨lead, gap, tail, hlead, hgap, htail, fun path => ?_⟩
  rw [← String.toList_inj]
  refine (Slot.toList_fillTemplate htemplate hspaced).trans ?_
  rw [Column.replaceAll_path hcolumn, heq]
  simp [Params.placeholder]

theorem NamesOnce.marks {template : String} {column : Column} (h : NamesOnce template)
    (hcolumn : Text.isPlain column.name = true) (hpath : IsPath path) :
    Marks (Filled.text ⟨template, [column], path⟩) [path] := by
  obtain ⟨lead, gap, tail, hlead, hgap, htail, htext⟩ := h.exists_text hcolumn
  rw [htext]
  exact (Marks.text_append lead hlead (Column.marks hcolumn)).between gap hgap
    (.placeholder_append hpath (.text tail htail))

theorem Slot.framed_infixed {sign : String} (h : '#' ∉ sign.toList) :
    Slot.Framed (Slot.infixed sign) := by
  refine ⟨"", " " ++ sign ++ " ", "", by decide, ?_, by decide, fun _ _ => ?_⟩
  · simp [isGap, h]
  · simp [infixed, filled]

theorem Operator.framed_slots {op : Operator} {template : String}
    (h : op.template? = some template) (hvalue : op.needsValue = true) : Slot.Framed op.slots := by
  cases op with
  | eq | ne | lt | lte | gt | gte | like => exact Slot.framed_infixed (by decide)
  | contains =>
    exact ⟨"", " LIKE CONCAT(CONCAT('%', ", "), '%')", by decide, by decide, by decide,
      fun _ _ => by simp [slots, Slot.filled]⟩
  | startsWith =>
    exact ⟨"", " LIKE CONCAT(", ", '%')", by decide, by decide, by decide,
      fun _ _ => by simp [slots, Slot.filled]⟩
  | endsWith =>
    exact ⟨"", " LIKE CONCAT('%', ", ")", by decide, by decide, by decide,
      fun _ _ => by simp [slots, Slot.filled]⟩
  | isNull | isNotNull | isBlank | isNotBlank => exact absurd hvalue Bool.false_ne_true
  | isIn | notIn | eqOrIn => simp [template?] at h

/-- Operators that read their value name it once. -/
theorem Operator.namesOnce_template {op : Operator} {template : String}
    (h : op.template? = some template) (hvalue : op.needsValue = true) : NamesOnce template :=
  ⟨op.slots, framed_slots h hvalue, op.spaced_slots, toList_template h⟩

theorem Dialect.framed_searchSlots {d : Dialect} {mode : SearchMode} {template : String}
    (h : d.searchTemplate mode = .ok template) : Slot.Framed (d.searchSlots mode) := by
  have hmatch : ∀ tail : String, '#' ∉ tail.toList → Slot.Framed
      [.text "MATCH (", .column, .text ") AGAINST (#\x7b", .path, .text ("\x7d" ++ tail)] :=
    fun tail htail => ⟨"MATCH (", ") AGAINST (", tail, by decide, by decide, htail,
      fun _ _ => by simp [Slot.filled]⟩
  cases d with
  | mysql | oceanBase =>
    cases mode with
    | boolean => exact hmatch " IN BOOLEAN MODE)" (by decide)
    | natural => exact hmatch " IN NATURAL LANGUAGE MODE)" (by decide)
  | postgresql =>
    cases mode with
    | boolean => simp [searchTemplate] at h
    | natural =>
      exact ⟨"to_tsvector('chinese', ", ") @@ to_tsquery('chinese', ", ")", by decide, by decide,
        by decide, fun _ _ => by simp [searchSlots, Slot.filled]⟩
  | h2 | oracle | sqlite => simp [searchTemplate] at h

/-- A search names its text once. -/
theorem Dialect.namesOnce_searchTemplate {d : Dialect} {mode : SearchMode} {template : String}
    (h : d.searchTemplate mode = .ok template) : NamesOnce template :=
  ⟨d.searchSlots mode, framed_searchSlots h, d.spaced_searchSlots mode, toList_searchTemplate h⟩

theorem Marks.bracket {paths : List String} (h : Marks s paths) :
    Marks (Text.bracket s) paths := by
  rw [Text.bracket]
  split
  case isTrue hempty => rwa [String.isEmpty_iff.1 hempty] at h
  split
  · exact h
  · exact (text_append "(" (by decide) h).append_gap ")" (by decide)

/-- Empty parts mark nothing, so leaving them out changes nothing. -/
theorem marks_filter {ss : List String} {pathss : List (List String)}
    (h : List.Forall₂ Marks ss pathss) : ∃ kept, kept.flatten = pathss.flatten ∧
      List.Forall₂ Marks (ss.filter fun s => !s.isEmpty) kept := by
  induction h with
  | nil => exact ⟨[], rfl, .nil⟩
  | @cons s paths ss pathss hs _ ih =>
    obtain ⟨kept, hflatten, hkept⟩ := ih
    rw [List.filter_cons]
    split
    · exact ⟨paths :: kept, by rw [List.flatten_cons, hflatten, List.flatten_cons], .cons hs hkept⟩
    case isFalse hempty =>
      have hs' : s = "" := by simpa using hempty
      rw [hs'] at hs
      exact ⟨kept, by rw [hflatten, hs.of_empty, List.flatten_cons, List.nil_append], hkept⟩

theorem Marks.joinFragments {ss : List String} {pathss : List (List String)}
    (h : List.Forall₂ Marks ss pathss) (k : Connective) :
    Marks (Text.joinFragments k ss) pathss.flatten := by
  obtain ⟨kept, hflatten, hkept⟩ := marks_filter h
  rw [Text.joinFragments, ← hflatten]
  split
  case h_1 hnone =>
    rw [hnone] at hkept
    cases hkept
    exact .empty
  case h_2 s hone =>
    rw [hone] at hkept
    obtain ⟨paths, rfl⟩ : ∃ paths, kept = [paths] := by
      cases hkept with
      | cons _ hnil => cases hnil; exact ⟨_, rfl⟩
    have hs : Marks s paths := (List.forall₂_cons.1 hkept).1
    simpa using hs
  · exact (Marks.intercalate _ (by cases k <;> decide) hkept).bracket

theorem Marks.negateText {paths : List String} (h : Marks s paths) :
    Marks (Predicate.negateText s) paths := by
  rw [Predicate.negateText]
  split
  case isTrue hempty =>
    rw [String.isEmpty_iff.1 hempty] at h
    exact h
  · exact (text_append "NOT " (by decide) h).bracket

theorem Marks.andText {paths : List String} (h : Marks s paths) :
    Marks (Predicate.andText s) paths := by
  rw [Predicate.andText]
  split
  case isTrue hempty => rwa [String.isEmpty_iff.1 hempty] at h
  · exact text_append " AND " (by decide) h

theorem Predicate.andText_head (s : String) : (Predicate.andText s).toList.head? ≠ some '\x7b' := by
  rw [Predicate.andText]
  split
  · decide
  · simp

/-! ## Predicates -/

namespace Predicate

/-- The paths that a predicate binds. -/
def paths (p : Predicate) : List String :=
  p.bindings.map Binding.path

/-- The paths that joins bind. -/
def joinsPaths (js : List (JoinClause Predicate)) : List String :=
  (joinsBindings js).map Binding.path

theorem marks_membership {column : Column} {negated : Bool} {items : List Binding}
    (hcolumn : Text.isPlain column.name = true) (hitems : ∀ b ∈ items, IsPath b.path) :
    Marks (membershipText column negated items) (items.map Binding.path) := by
  have hall : List.Forall₂ Marks (items.map fun b => Params.placeholder b.path)
      (items.map fun b => [b.path]) := by
    rw [List.forall₂_map_left_iff, List.forall₂_map_right_iff, List.forall₂_same]
    exact fun b hb => .placeholder (hitems b hb)
  have hlist := Marks.intercalate "," (by decide) hall
  have hflatten : (items.map fun b => [b.path]).flatten = items.map Binding.path := by
    rw [← List.flatMap_def, List.map_eq_flatMap]
  rw [hflatten] at hlist
  have hgap : isGap (if negated then " NOT IN (" else " IN (") = true := by
    cases negated <;> decide
  exact ((Column.marks hcolumn).between _ hgap hlist).append_gap ")" (by decide)

theorem marks_group {k : Connective} {ps : List Predicate} (h : ∀ p ∈ ps, Marks p.text p.paths) :
    Marks (group k ps).text (group k ps).paths := by
  have hall : ∀ ps : List Predicate, (∀ p ∈ ps, Marks p.text p.paths) →
      List.Forall₂ Marks (texts ps) (ps.map Predicate.paths) ∧
        (bindingsOf ps).map Binding.path = (ps.map Predicate.paths).flatten := by
    intro ps
    induction ps with
    | nil => exact fun _ => ⟨.nil, rfl⟩
    | cons p ps ih =>
      intro h
      obtain ⟨hmarks, hpaths⟩ := ih fun q hq => h q (List.mem_cons_of_mem _ hq)
      refine ⟨.cons (h p List.mem_cons_self) hmarks, ?_⟩
      rw [bindingsOf, List.map_append, hpaths]
      rfl
  obtain ⟨hmarks, hpaths⟩ := hall ps h
  rw [text, paths, bindings, hpaths]
  exact .joinFragments hmarks k

theorem marks_joinHead (type : JoinType) {model : Model} (number : Nat) {link : List Equality}
    (hmodel : model.isPlain = true) (hlink : ∀ e ∈ link, e.isPlain = true) :
    Marks (joinHead type model number link) [] := by
  have hword : '#' ∉ (" " ++ type.word ++ " JOIN ").toList := by cases type <;> decide
  have htable := Marks.text_append _ hword (Model.marks_qualifiedTable hmodel)
  have halias := htable.between " AS " (by decide) (marks_tableAlias number)
  exact halias.between " ON " (by decide) (Equality.marks_texts hlink)

/-- A join of plain names whose filter marks what it binds. -/
structure JoinMarks (j : JoinClause Predicate) : Prop where
  model : j.model.isPlain = true
  link : ∀ e ∈ j.link, e.isPlain = true
  enforced : Marks j.filter.enforced.text j.filter.enforced.paths
  requested : Marks j.filter.requested.text j.filter.requested.paths

theorem joinsText_head (js : List (JoinClause Predicate)) :
    (joinsText js).toList.head? ≠ some '\x7b' := by
  cases js with
  | nil => decide
  | cons j js =>
    obtain ⟨type, model, number, link, ⟨enforced, requested⟩⟩ := j
    simp [joinsText, joinHead]

theorem marks_joinsText {js : List (JoinClause Predicate)} (h : ∀ j ∈ js, JoinMarks j) :
    Marks (joinsText js) (joinsPaths js) := by
  induction js with
  | nil => exact .empty
  | cons j js ih =>
    obtain ⟨hmodel, hlink, henforced, hrequested⟩ := h j List.mem_cons_self
    have hrest := ih fun j' hj' => h j' (List.mem_cons_of_mem _ hj')
    obtain ⟨type, model, number, link, ⟨enforced, requested⟩⟩ := j
    have hfilter := Marks.joinFragments (.cons henforced (.cons hrequested .nil)) .and
    have hclause := (marks_joinHead type number hmodel hlink).append
      hfilter.andText (andText_head _)
    have hall := hclause.append hrest (joinsText_head js)
    simpa [joinsText, joinsPaths, joinsBindings, paths, List.append_assoc] using hall

/-- A subquery of plain names whose parts mark what they bind. -/
structure SubqueryMarks (body : Subquery Predicate) : Prop where
  model : body.model.isPlain = true
  link : ∀ e ∈ body.link, e.isPlain = true
  joins : ∀ j ∈ body.joins, JoinMarks j
  enforced : Marks body.enforced.text body.enforced.paths

theorem marks_related {negated : Bool} {body : Subquery Predicate} {inner : Predicate}
    (hbody : SubqueryMarks body) (hinner : Marks inner.text inner.paths) :
    Marks (related negated body inner).text (related negated body inner).paths := by
  obtain ⟨hmodel, hlink, hjoins, henforced⟩ := hbody
  obtain ⟨model, number, link, joins, enforced⟩ := body
  have hword : '#' ∉ ((if negated then "NOT EXISTS (" else "EXISTS (") ++ "SELECT 1 FROM ").toList := by
    cases negated <;> decide
  have htable := Marks.text_append _ hword (Model.marks_qualifiedTable hmodel)
  have halias := htable.between " AS " (by decide) (marks_tableAlias number)
  have hsource := halias.append (marks_joinsText hjoins) (joinsText_head joins)
  have hwhere := hsource.between " WHERE " (by decide) (Equality.marks_texts hlink)
  have hheld := hwhere.append henforced.andText (andText_head _)
  have hall := (hheld.append hinner.andText (andText_head _)).append_gap ")" (by decide)
  simpa [text, joinsPaths, bindings, paths, List.append_assoc] using hall

end Predicate
end QueryCompiler
