import QueryCompiler.Proofs.Build.Resolve
import QueryCompiler.Proofs.Parameters.Texts

/-!
# Resolved conditions name what they bind

A plain condition that is resolved under a path becomes a predicate whose text names exactly the
paths that it binds, in their order. The induction is on how deep subqueries may nest, and for each
depth on the condition.
-/

namespace QueryCompiler

open Build Params

variable {base : String} {n : Nat}

/-! ## Comparisons -/

namespace Operator

variable {op : Operator} {column : Column} {value : Value} {r : Predicate}

/-- The text of a comparison by a template, part by part. -/
theorem toList_text {template path : String} (h : op.template? = some template)
    (hcolumn : Text.isPlain column.name = true) :
    (Filled.text ⟨template, [column], path⟩).toList =
      op.slots.flatMap (Slot.filled column.text.toList path.toList) := by
  rw [Filled.text, List.map_singleton,
    Slot.toList_fillTemplate (toList_template h) op.spaced_slots, Column.replaceAll_path hcolumn]

/-- Operators that do not read their value name nothing. -/
theorem marks_of_not_needsValue {template path : String} (h : op.template? = some template)
    (hvalue : op.needsValue = false) (hcolumn : Text.isPlain column.name = true) :
    Marks (Filled.text ⟨template, [column], path⟩) [] := by
  rw [Marks, toList_text h hcolumn]
  have hmarks := Column.marks hcolumn
  cases op with
  | eq | ne | lt | lte | gt | gte | like | contains | startsWith | endsWith | isIn | notIn |
    eqOrIn => exact absurd hvalue Bool.noConfusion
  | isNull =>
    simpa [Marks, slots, Slot.filled] using hmarks.append_gap " IS NULL" (by decide)
  | isNotNull =>
    simpa [Marks, slots, Slot.filled] using hmarks.append_gap " IS NOT NULL" (by decide)
  | isBlank =>
    have h := ((Marks.text_append "(" (by decide) hmarks).between " IS NULL OR " (by decide)
      hmarks).append_gap " = '')" (by decide)
    simpa [Marks, slots, Slot.filled] using h
  | isNotBlank =>
    have h := ((Marks.text_append "(" (by decide) hmarks).between " IS NOT NULL AND " (by decide)
      hmarks).append_gap " != '')" (by decide)
    simpa [Marks, slots, Slot.filled] using h

theorem text_filled {template : String} (h : op.template? = some template) :
    (filled op column base value).text = Filled.text ⟨template, [column], valuePath base⟩ := by
  rw [filled, h]
  rfl

theorem filled_marks {template : String} (h : op.template? = some template)
    (hcolumn : Text.isPlain column.name = true) (hbase : IsBase base n) :
    Marks (filled op column base value).text (filled op column base value).paths := by
  rw [text_filled h]
  cases hvalue : op.needsValue with
  | true =>
    have hpaths : (filled op column base value).paths = [valuePath base] := by
      simp [filled, Predicate.paths, Predicate.bindings, hvalue]
    rw [hpaths]
    exact (namesOnce_template h hvalue).marks hcolumn hbase.isPath_valuePath
  | false =>
    have hpaths : (filled op column base value).paths = [] := by
      simp [filled, Predicate.paths, Predicate.bindings, hvalue]
    rw [hpaths]
    exact marks_of_not_needsValue h hvalue hcolumn

theorem membership_marks {negated : Bool} {items : List Value}
    (hcolumn : Text.isPlain column.name = true) (hbase : IsBase base n) :
    Marks (Predicate.membership column negated (Binding.ofItems (valuePath base) items)).text
      (Predicate.membership column negated (Binding.ofItems (valuePath base) items)).paths := by
  refine Predicate.marks_membership hcolumn fun b hb => ?_
  obtain ⟨e, -, rfl⟩ := List.mem_map.1 hb
  exact isPath_itemPath hbase.isPath_valuePath e.2

theorem resolve_marks (h : op.resolve column base value = .ok r)
    (hcolumn : Text.isPlain column.name = true) (hbase : IsBase base n) : Marks r.text r.paths := by
  obtain ⟨op, template, value, htemplate, rfl⟩ | ⟨negated, items, rfl⟩ := resolve_eq_ok h
  · exact filled_marks htemplate hcolumn hbase
  · exact membership_marks hcolumn hbase

end Operator

/-! ## Conditions over plain names -/

/-- What names stand for, in sited scopes: columns with plain names, and subqueries whose text names
what they bind. -/
structure Names.Marking {σ : Type} (names : Names σ) (sited : σ → Prop) : Prop where
  column : ∀ {s path column}, sited s → names.column s path = .ok column →
    Text.isPlain column.name = true
  subquery : ∀ {s path joins paths body s' p p'}, sited s →
    Condition.arePlainJoins joins = true →
    (names.subquery s path joins paths).run p = .ok (body, s') p' →
    sited s' ∧ Predicate.SubqueryMarks body

namespace Condition

variable {σ : Type} {d : Dialect} {names : Names σ} {sited : σ → Prop}

theorem fill_marks (hn : names.Marking sited) {s : σ} (hs : sited s) {template path base : String}
    {sql : Filled} (htemplate : NamesOnce template) (hbase : IsBase base n)
    (h : names.fill s template [path] base = .ok sql) : Marks sql.text [valuePath base] := by
  obtain ⟨column, hcolumn, rfl⟩ := Names.fill_singleton_iff.1 h
  exact htemplate.marks (hn.column hs hcolumn) hbase.isPath_valuePath

mutual

theorem resolve_marks (hn : names.Marking sited) :
    ∀ (c : Condition) {s : σ} {base : String} {r : Predicate} {p p' : Progress}, sited s →
      c.isPlain = true → IsBase base n → (c.resolve d names s base).run p = .ok r p' →
      Marks r.text r.paths
  | .compare path op value skipEmpty, s, base, r, p, p', hs, hplain, hbase, h => by
    obtain ⟨rfl, ⟨-, rfl⟩ | ⟨-, column, hc, hr⟩⟩ := resolve_compare_eq_ok.1 h
    · exact .empty
    · exact Operator.resolve_marks hr (hn.column hs hc) hbase
  | .group k members, s, base, r, p, p', hs, hplain, hbase, h => by
    obtain ⟨parts, hparts, rfl⟩ := resolve_group_eq_ok.1 h
    rw [isPlain] at hplain
    exact Predicate.marks_group (resolveMembers_marks hn members hs hplain hbase hparts)
  | .negate inner, s, base, r, p, p', hs, hplain, hbase, h => by
    obtain ⟨q, hq, rfl⟩ := resolve_negate_eq_ok.1 h
    rw [isPlain] at hplain
    exact (resolve_marks hn inner hs hplain hbase.inner hq).negateText
  | .custom _ _ _, s, base, r, p, p', hs, hplain, hbase, h => by
    exact absurd hplain Bool.false_ne_true
  | .search path value mode, s, base, r, p, p', hs, hplain, hbase, h => by
    obtain ⟨rfl, template, htemplate, sql, hfill, rfl⟩ := resolve_search_eq_ok.1 h
    exact fill_marks hn hs (Dialect.namesOnce_searchTemplate htemplate) hbase hfill
  | .related path inner joins negated, s, base, r, p, p', hs, hplain, hbase, h => by
    obtain ⟨-, rfl, rfl⟩ | ⟨-, body, s', mid, q, hbody, hq, rfl⟩ := resolve_related_eq_ok.1 h
    · exact .empty
    · rw [isPlain, Bool.and_eq_true] at hplain
      obtain ⟨hs', hmarks⟩ := hn.subquery hs hplain.2 hbody
      exact Predicate.marks_related hmarks (resolve?_marks hn hs' hplain.1 hbase.inner hq)

theorem resolve?_marks (hn : names.Marking sited) {c : Option Condition} {s : σ} {base : String}
    {r : Predicate} {p p' : Progress} (hs : sited s) (hplain : isPlainOpt c = true)
    (hbase : IsBase base n) (h : (resolve? d names c s base).run p = .ok r p') :
    Marks r.text r.paths := by
  cases c with
  | none =>
    obtain ⟨rfl, rfl⟩ := run_pure_eq_ok.1 h
    exact .empty
  | some c => exact resolve_marks hn c hs hplain hbase h

theorem resolveMembers_marks (hn : names.Marking sited) :
    ∀ (cs : List Condition) {s : σ} {base : String} {i : Nat} {rs : List Predicate}
      {p p' : Progress}, sited s → arePlain cs = true → IsBase base n →
      (resolveMembers d names cs s base i).run p = .ok rs p' → ∀ r ∈ rs, Marks r.text r.paths
  | [], s, base, i, rs, p, p', hs, _, _, h => by
    obtain ⟨rfl, rfl⟩ := resolveMembers_nil_eq_ok.1 h
    exact List.forall_mem_nil _
  | c :: cs, s, base, i, rs, p, p', hs, hplain, hbase, h => by
    obtain ⟨r, mid, rs', hr, hrs, rfl⟩ := resolveMembers_cons_eq_ok.1 h
    rw [arePlain, Bool.and_eq_true] at hplain
    exact List.forall_mem_cons.2 ⟨resolve_marks hn c hs hplain.1 (hbase.member i) hr,
      resolveMembers_marks hn cs hs hplain.2 hbase hrs⟩

end

end Condition
end QueryCompiler
