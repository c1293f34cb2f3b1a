import QueryCompiler.Condition.Resolve
import QueryCompiler.Proofs.Build.Run

/-!
# Resolved conditions

What the resolution of a condition has done once it has succeeded, by the form of the condition. What
is shown of resolved conditions is shown by recursion over them, one form after the other; a condition
inside a relationship may be missing, so the recursion goes through `resolve?` as well.
-/

namespace QueryCompiler

/-- A comparison is resolved to a template over its column, or to a test for membership, under every
path to the same one. -/
theorem Operator.exists_resolve_eq {op : Operator} {column : Column} {base : String} {value : Value}
    {r : Predicate} (h : op.resolve column base value = .ok r) :
    (∃ op' template value', op'.template? = some template ∧
        ∀ base, op.resolve column base value = .ok (filled op' column base value')) ∨
      ∃ negated items, ∀ base, op.resolve column base value =
        .ok (.membership column negated (Binding.ofItems (Params.valuePath base) items)) := by
  have hmembership : ∀ {op : Operator} {negated : Bool} {value : Value},
      membership op negated column base value = .ok r → ∃ negated' items, ∀ base,
        membership op negated column base value =
          .ok (.membership column negated' (Binding.ofItems (Params.valuePath base) items)) := by
    intro op negated value h
    rw [membership] at h
    split at h
    case h_1 items hitems => exact ⟨negated, items, fun base => by rw [membership, hitems]⟩
    · exact absurd h nofun
  cases op with
  | isIn | notIn => exact .inr (hmembership h)
  | eqOrIn =>
    simp only [resolve] at h ⊢
    split at h
    · exact absurd h nofun
    · exact absurd h nofun
    · exact .inl ⟨_, _, _, rfl, fun _ => rfl⟩
    · exact .inr (hmembership h)
    · exact .inl ⟨_, _, _, rfl, fun _ => rfl⟩
  | _ => exact .inl ⟨_, _, _, rfl, fun _ => rfl⟩

/-- A comparison is resolved to a template over its column, or to a test for membership. -/
theorem Operator.resolve_eq_ok {op : Operator} {column : Column} {base : String} {value : Value}
    {r : Predicate} (h : op.resolve column base value = .ok r) :
    (∃ op' template value', op'.template? = some template ∧ filled op' column base value' = r) ∨
      ∃ negated items,
        .membership column negated (Binding.ofItems (Params.valuePath base) items) = r := by
  obtain ⟨op', template, value', htemplate, hfilled⟩ | ⟨negated, items, hmember⟩ :=
    exists_resolve_eq h
  · exact .inl ⟨op', template, value', htemplate, Except.ok.inj ((hfilled base).symm.trans h)⟩
  · exact .inr ⟨negated, items, Except.ok.inj ((hmember base).symm.trans h)⟩

/-- A template is filled once each of its paths has a column. -/
theorem Names.fill_iff {σ : Type} {names : Names σ} {s : σ} {template base : String}
    {paths : List String} {sql : Filled} : names.fill s template paths base = .ok sql ↔
      ∃ columns, List.Forall₂ (fun path column => names.column s path = .ok column) paths columns ∧
        ⟨template, columns, Params.valuePath base⟩ = sql := by
  rw [fill, except_bind_eq_ok]
  constructor
  · rintro ⟨columns, hcolumns, h⟩
    exact ⟨columns, except_mapM_eq_ok.1 hcolumns, Except.ok.inj h⟩
  · rintro ⟨columns, hcolumns, rfl⟩
    exact ⟨columns, except_mapM_eq_ok.2 hcolumns, rfl⟩

/-- A template over one path is filled with its column. -/
theorem Names.fill_singleton_iff {σ : Type} {names : Names σ} {s : σ}
    {template base path : String} {sql : Filled} : names.fill s template [path] base = .ok sql ↔
      ∃ column, names.column s path = .ok column ∧
        ⟨template, [column], Params.valuePath base⟩ = sql := by
  rw [fill_iff]
  constructor
  · rintro ⟨columns, hcolumns, rfl⟩
    cases hcolumns with
    | cons hcolumn hnil =>
      cases hnil
      exact ⟨_, hcolumn, rfl⟩
  · rintro ⟨column, hcolumn, rfl⟩
    exact ⟨[column], .cons hcolumn .nil, rfl⟩

namespace Condition

open Build

variable {σ : Type} {d : Dialect} {names : Names σ} {s : σ} {base : String} {r : Predicate}
  {p p' : Progress}

theorem resolve_compare_eq_ok {path : String} {op : Operator} {value : Value} {skipEmpty : Bool} :
    ((compare path op value skipEmpty).resolve d names s base).run p = .ok r p' ↔ p = p' ∧
      ((comparesNothing path op value skipEmpty = true ∧ .absent = r) ∨
        (¬ comparesNothing path op value skipEmpty = true ∧
          ∃ column, names.column s path = .ok column ∧ op.resolve column base value = .ok r)) := by
  rw [resolve]
  split
  case isTrue hnothing =>
    rw [run_pure_eq_ok, and_comm]
    simp [hnothing]
  case isFalse hcompares =>
    simp only [run_bind_eq_ok, run_ofExcept_eq_ok, hcompares]
    constructor
    · rintro ⟨column, _, ⟨hcolumn, rfl⟩, hr, rfl⟩
      exact ⟨rfl, .inr ⟨Bool.false_ne_true, column, hcolumn, hr⟩⟩
    · rintro ⟨rfl, ⟨hnothing, -⟩ | ⟨-, column, hcolumn, hr⟩⟩
      · exact absurd hnothing Bool.false_ne_true
      · exact ⟨column, p, ⟨hcolumn, rfl⟩, hr, rfl⟩

theorem resolve_group_eq_ok {k : Connective} {members : List Condition} :
    ((group k members).resolve d names s base).run p = .ok r p' ↔
      ∃ parts, (resolveMembers d names members s base 0).run p = .ok parts p' ∧
        Predicate.group k parts = r := by
  rw [resolve, bind_pure_comp]
  exact run_map_eq_ok

theorem resolve_negate_eq_ok {inner : Condition} :
    ((negate inner).resolve d names s base).run p = .ok r p' ↔
      ∃ q, (inner.resolve d names s (innerPath base)).run p = .ok q p' ∧ Predicate.negate q = r := by
  rw [resolve, bind_pure_comp]
  exact run_map_eq_ok

theorem resolve_custom_eq_ok {template : String} {paths : List String} {value : Option Value} :
    ((custom template paths value).resolve d names s base).run p = .ok r p' ↔ p = p' ∧
      ∃ sql, names.fill s template paths base = .ok sql ∧
        Predicate.filled sql ((value.map (Binding.withItems (Params.valuePath base))).getD []) = r := by
  rw [resolve, bind_pure_comp, run_map_eq_ok]
  simp only [run_ofExcept_eq_ok]
  tauto

theorem resolve_search_eq_ok {path : String} {value : Value} {mode : SearchMode} :
    ((search path value mode).resolve d names s base).run p = .ok r p' ↔ p = p' ∧
      ∃ template, d.searchTemplate mode = .ok template ∧
        ∃ sql, names.fill s template [path] base = .ok sql ∧
          Predicate.filled sql [⟨Params.valuePath base, value⟩] = r := by
  rw [resolve]
  simp only [bind_pure_comp, run_bind_eq_ok, run_map_eq_ok, run_ofExcept_eq_ok]
  constructor
  · rintro ⟨template, _, ⟨htemplate, rfl⟩, sql, ⟨hsql, rfl⟩, rfl⟩
    exact ⟨rfl, template, htemplate, sql, hsql, rfl⟩
  · rintro ⟨rfl, template, htemplate, sql, hsql, rfl⟩
    exact ⟨template, p, ⟨htemplate, rfl⟩, sql, ⟨hsql, rfl⟩, rfl⟩

/-- The resolution of a condition on related rows. -/
theorem resolve_related {path : String} {inner : Option Condition} {joins : List Join} {negated : Bool} :
    (related path inner joins negated).resolve d names s base =
      if path.isEmpty then pure .absent
      else do
        let (body, s') ← names.subquery s path joins ((inner.map joinPaths).getD [])
        let q ← resolve? d names inner s' (innerPath base)
        return .related negated body q := by
  cases inner with
  | none => simp [resolve, resolve?]
  | some inner => simp [resolve, resolve?]

theorem resolve_related_eq_ok {path : String} {inner : Option Condition} {joins : List Join}
    {negated : Bool} :
    ((related path inner joins negated).resolve d names s base).run p = .ok r p' ↔
      (path.isEmpty = true ∧ p = p' ∧ .absent = r) ∨ (¬ path.isEmpty = true ∧ ∃ body s' mid q,
        (names.subquery s path joins ((inner.map joinPaths).getD [])).run p = .ok (body, s') mid ∧
        (resolve? d names inner s' (innerPath base)).run mid = .ok q p' ∧
        Predicate.related negated body q = r) := by
  rw [resolve_related]
  split
  case isTrue hempty =>
    rw [run_pure_eq_ok, and_comm]
    simp [hempty]
  case isFalse hpath =>
    simp only [bind_pure_comp, run_bind_eq_ok, run_map_eq_ok, hpath]
    constructor
    · rintro ⟨⟨body, s'⟩, mid, hbody, q, hq, rfl⟩
      exact .inr ⟨nofun, body, s', mid, q, hbody, hq, rfl⟩
    · rintro (⟨hempty, -⟩ | ⟨-, body, s', mid, q, hbody, hq, rfl⟩)
      · exact absurd hempty nofun
      · exact ⟨(body, s'), mid, hbody, q, hq, rfl⟩

theorem resolveMembers_nil_eq_ok {i : Nat} {rs : List Predicate} :
    (resolveMembers d names [] s base i).run p = .ok rs p' ↔ p = p' ∧ [] = rs := by
  rw [resolveMembers, run_pure_eq_ok, and_comm]

theorem resolveMembers_cons_eq_ok {c : Condition} {cs : List Condition} {i : Nat} {rs : List Predicate} :
    (resolveMembers d names (c :: cs) s base i).run p = .ok rs p' ↔
      ∃ q mid qs, (c.resolve d names s (memberPath base i)).run p = .ok q mid ∧
        (resolveMembers d names cs s base (i + 1)).run mid = .ok qs p' ∧ q :: qs = rs := by
  rw [resolveMembers]
  simp only [bind_pure_comp, run_bind_eq_ok, run_map_eq_ok]
  tauto

end Condition
end QueryCompiler
