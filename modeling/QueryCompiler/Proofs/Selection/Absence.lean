import QueryCompiler.Proofs.Boolean.Silent
import QueryCompiler.Proofs.JoinTree.Forest
import QueryCompiler.Proofs.Selection.Laws

/-!
# What has no text and what is absent

A condition that does not apply is left out by SQL, where it has no text, and in memory, where it is
absent. For conditions that memory can decide the two are the same, but for a condition over related
rows that names no relationship. It has no text, and in memory it fails (`Condition.absent_iff_text`).

Where an inner condition has no text, SQL asks for related rows of whatever kind. Memory asks for one
on which the inner condition holds, and absent is not holding (`Condition.related_textless`).
-/

namespace QueryCompiler

theorem Verdict.ofBool_ne_absent (b : Bool) : ofBool b ≠ .absent := by
  cases b <;> exact nofun

theorem Verdict.ofBool_inj {b b' : Bool} : ofBool b = ofBool b' ↔ b = b' := by
  cases b <;> cases b' <;> decide

namespace Condition

mutual

/-- Memory can decide the condition: no template of the caller's and no full-text search stands in
it, outside its conditions over related rows. -/
def isDecided : Condition → Bool
  | .compare _ _ _ _ | .related _ _ _ _ => true
  | .group _ members => areDecided members
  | .negate inner => inner.isDecided
  | .custom _ _ _ | .search _ _ _ => false

/-- `isDecided` of all members of a group. -/
def areDecided : List Condition → Bool
  | [] => true
  | c :: cs => c.isDecided && areDecided cs

end

mutual

/-- A condition over related rows that names no relationship stands in the condition, outside its
conditions over related rows. -/
def hasNameless : Condition → Bool
  | .related path _ _ _ => path.isEmpty
  | .group _ members => haveNameless members
  | .negate inner => inner.hasNameless
  | .compare _ _ _ _ | .custom _ _ _ | .search _ _ _ => false

/-- `hasNameless` of some member of a group. -/
def haveNameless : List Condition → Bool
  | [] => false
  | c :: cs => c.hasNameless || haveNameless cs

end

/-! ## In memory -/

theorem relatedVerdict_ne_absent (related : Value) (negated : Bool) (test : Row → Bool) :
    relatedVerdict related negated test ≠ .absent := by
  unfold relatedVerdict
  cases related.items? with
  | none => exact nofun
  | some items => exact Verdict.ofBool_ne_absent _

theorem verdict_related (path : String) (inner : Option Condition) (joins : List Join)
    (negated : Bool) (row : Row) :
    (related path inner joins negated).verdict row =
      relatedVerdict (row.read path) negated fun item =>
        inner.all fun c => c.verdict item == .holds := by
  cases inner <;> rw [verdict] <;> rfl

mutual

theorem verdict_eq_absent_iff (row : Row) : ∀ c : Condition, c.isDecided = true →
    (c.verdict row = .absent ↔ c.saysNothing = true ∧ c.hasNameless = false)
  | .compare path op value skipEmpty, _ => by
    rw [verdict, saysNothing, hasNameless]
    split
    case isTrue hnothing => exact iff_of_true rfl ⟨hnothing, rfl⟩
    case isFalse hsome =>
      exact iff_of_false (Verdict.ofBool_ne_absent _) fun h => hsome h.1
  | .related path inner joins negated, _ => by
    rw [verdict_related, saysNothing, hasNameless]
    refine iff_of_false (relatedVerdict_ne_absent _ _ _) fun ⟨hempty, hnamed⟩ => ?_
    exact Bool.false_ne_true (hnamed.symm.trans hempty)
  | .negate inner, h => by
    rw [verdict_negate, Verdict.negate_eq_absent_iff]
    exact verdict_eq_absent_iff row inner h
  | .group k members, h => by
    rw [verdict, Verdict.combine_eq_absent_iff]
    exact verdicts_absent_iff row members h
  | .custom _ _ _, h => absurd h Bool.false_ne_true
  | .search _ _ _, h => absurd h Bool.false_ne_true

theorem verdicts_absent_iff (row : Row) : ∀ cs : List Condition, areDecided cs = true →
    ((∀ v ∈ verdicts cs row, v = .absent) ↔ sayNothing cs = true ∧ haveNameless cs = false)
  | [], _ => iff_of_true nofun ⟨rfl, rfl⟩
  | c :: cs, h => by
    obtain ⟨hc, hcs⟩ := Bool.and_eq_true_iff.1 h
    rw [verdicts, List.forall_mem_cons, verdict_eq_absent_iff row c hc,
      verdicts_absent_iff row cs hcs, sayNothing, haveNameless, Bool.and_eq_true_iff,
      Bool.or_eq_false_iff]
    exact and_and_and_comm

end

/-! ## In SQL -/

mutual

theorem hasTemplate_of_isDecided : ∀ c : Condition, c.isDecided = true → c.hasTemplate = false
  | .compare _ _ _ _, _ => rfl
  | .related _ _ _ _, _ => rfl
  | .negate inner, h => hasTemplate_of_isDecided inner h
  | .group _ members, h => haveTemplate_of_areDecided members h
  | .custom _ _ _, h => absurd h Bool.false_ne_true
  | .search _ _ _, h => absurd h Bool.false_ne_true

theorem haveTemplate_of_areDecided : ∀ cs : List Condition, areDecided cs = true →
    haveTemplate cs = false
  | [], _ => rfl
  | c :: cs, h => by
    obtain ⟨hc, hcs⟩ := Bool.and_eq_true_iff.1 h
    exact Bool.or_eq_false_iff.2 ⟨hasTemplate_of_isDecided c hc, haveTemplate_of_areDecided cs hcs⟩

end

open Build

variable {σ : Type} {d : Dialect} {names : Names σ} {s : σ} {base : String} {q q' : Progress}

theorem text_eq_empty_iff {c : Condition} {p : Predicate} (hc : c.isDecided = true)
    (h : (c.resolve d names s base).run q = .ok p q') : p.text = "" ↔ c.saysNothing = true := by
  refine ⟨saysNothing_of_text (hasTemplate_of_isDecided c hc) h, fun hnothing => ?_⟩
  obtain ⟨r, hr, hsilent⟩ := @resolve_of_saysNothing σ d names s c base hnothing
  rw [hr] at h
  obtain ⟨rfl, -⟩ := run_pure_eq_ok.1 h
  exact hsilent.text

/-- Absent in memory is what has no text, unless it asks for related rows and names no
relationship. -/
theorem absent_iff_text {c : Condition} {p : Predicate} (hc : c.isDecided = true)
    (h : (c.resolve d names s base).run q = .ok p q') (row : Row) :
    c.verdict row = .absent ↔ p.text = "" ∧ c.hasNameless = false := by
  rw [verdict_eq_absent_iff row c hc, text_eq_empty_iff hc h]

/-- Related rows that are asked for without naming a relationship have no text, and in memory there
are none. -/
theorem unnamed_related_fails : ∃ p,
    ((related "" none [] false).resolve .mysql Names.verbatim () "c").run {} = .ok p {} ∧
    p.text = "" ∧ (related "" none [] false).verdict (fun _ => none) = .fails ∧
    ∀ row, (related "" none [] false).verdict row ≠ .absent := by
  obtain ⟨p, hp⟩ : ∃ p,
      ((related "" none [] false).resolve .mysql Names.verbatim () "c").run {} = .ok p {} := ⟨_, rfl⟩
  refine ⟨p, hp, ?_, rfl, fun row habsent => ?_⟩
  · cases hp
    rfl
  · obtain ⟨-, hnamed⟩ := (absent_iff_text rfl hp row).1 habsent
    exact Bool.false_ne_true hnamed.symm

/-! ## Conditions on related rows -/

theorem relatedVerdict_eq_iff {related : Value} {negated : Bool} {test : Row → Bool} :
    relatedVerdict related negated test = relatedVerdict related negated (fun _ => true) ↔
      ∀ items, related.items? = some items → items = [] ∨ ∃ item ∈ items, test item.row = true := by
  unfold relatedVerdict
  cases related.items? with
  | none => exact iff_of_true rfl nofun
  | some items =>
    show Verdict.ofBool _ = Verdict.ofBool _ ↔ _
    rw [Verdict.ofBool_inj, Bool.bne_left_inj]
    cases items with
    | nil => simp
    | cons item items => simp

/-- No related row meets what is absent on all of them. -/
theorem verdict_related_of_absent {path : String} {inner : Condition} {row : Row} {items : List Value}
    (hitems : (row.read path).items? = some items)
    (h : ∀ item ∈ items, inner.verdict item.row = .absent) (joins : List Join) (negated : Bool) :
    (related path (some inner) joins negated).verdict row = .ofBool negated := by
  have hnone : (items.any fun item => inner.verdict item.row == .holds) = false :=
    List.any_eq_false.2 fun item hitem => by rw [h item hitem]; exact nofun
  rw [verdict, relatedVerdict, hitems]
  show Verdict.ofBool ((items.any fun item => inner.verdict item.row == .holds) != negated) = _
  rw [hnone, Bool.false_bne]

/-- Any related row will do where there is no inner condition. -/
theorem verdict_related_none {path : String} {row : Row} {items : List Value}
    (hitems : (row.read path).items? = some items) (hsome : items ≠ []) (joins : List Join)
    (negated : Bool) : (related path none joins negated).verdict row = .ofBool !negated := by
  obtain ⟨item, rest, rfl⟩ := List.exists_cons_of_ne_nil hsome
  rw [verdict, relatedVerdict, hitems]
  show Verdict.ofBool (true != negated) = _
  rw [Bool.true_bne]

theorem resolve_related_of_saysNothing {path : String} {inner : Condition} {joins : List Join}
    {negated : Bool} {p : Predicate} (hinner : inner.saysNothing = true)
    (h : ((related path (some inner) joins negated).resolve d names s base).run q = .ok p q') :
    (path = "" ∧ p = .absent) ∨ ∃ body s',
      (names.subquery s path joins inner.joinPaths).run q = .ok (body, s') q' ∧
      p.text = (Predicate.related negated body .absent).text ∧
      p.bindings = (Predicate.related negated body .absent).bindings := by
  obtain ⟨hempty, -, rfl⟩ | ⟨-, body, s', mid, r, hbody, hr, rfl⟩ := resolve_related_eq_ok.1 h
  · exact .inl ⟨String.isEmpty_iff.1 hempty, rfl⟩
  · obtain ⟨r', hr', hsilent⟩ := @resolve_of_saysNothing σ d names s' inner (innerPath base) hinner
    rw [resolve?, hr'] at hr
    obtain ⟨rfl, rfl⟩ := run_pure_eq_ok.1 hr
    refine .inr ⟨body, s', hbody, ?_, ?_⟩
    · rw [Predicate.text, Predicate.text, hsilent.text]
      rfl
    · rw [Predicate.bindings, Predicate.bindings, hsilent.bindings]
      rfl

/-- An inner condition without a text adds no conjunct to the subquery. In memory it makes no
difference only where there are no related rows, or it holds on one. It holds on none unless it asks
for related rows and names no relationship, and then the two verdicts on related rows are opposite. -/
theorem related_textless {inner : Condition} {r : Predicate} (hinner : inner.isDecided = true)
    (hr : (inner.resolve d names s base).run q = .ok r q') (htext : r.text = "") (path : String)
    (joins : List Join) (negated : Bool) :
    (∀ {s₁ base₁ q₁ q₂ p},
      ((related path (some inner) joins negated).resolve d names s₁ base₁).run q₁ = .ok p q₂ →
      (path = "" ∧ p = .absent) ∨ ∃ body s₂,
        (names.subquery s₁ path joins inner.joinPaths).run q₁ = .ok (body, s₂) q₂ ∧
        p.text = (Predicate.related negated body .absent).text ∧
        p.bindings = (Predicate.related negated body .absent).bindings) ∧
    ∀ row, ((related path (some inner) joins negated).verdict row =
        (related path none joins negated).verdict row ↔
      ∀ items, (row.read path).items? = some items →
        items = [] ∨ ∃ item ∈ items, inner.verdict item.row = .holds) ∧
      (inner.hasNameless = false → ∀ items, (row.read path).items? = some items → items ≠ [] →
        (related path (some inner) joins negated).verdict row = .ofBool negated ∧
        (related path none joins negated).verdict row = .ofBool !negated) := by
  have hnothing := (text_eq_empty_iff hinner hr).1 htext
  refine ⟨resolve_related_of_saysNothing hnothing, fun row => ⟨?_, ?_⟩⟩
  · rw [verdict, verdict, relatedVerdict_eq_iff]
    simp only [beq_iff_eq]
  · intro hnamed items hitems hsome
    have habsent : ∀ item ∈ items, inner.verdict item.row = .absent := fun item _ =>
      (verdict_eq_absent_iff item.row inner hinner).2 ⟨hnothing, hnamed⟩
    exact ⟨verdict_related_of_absent hitems habsent joins negated,
      verdict_related_none hitems hsome joins negated⟩

/-- Employees with reports of whatever kind: an inner condition with no members is left out of the
text, and met by no report in memory. -/
theorem teams_reports_of_nothing : ∃ tree p q q',
    ((related "reports" (some (group .and [])) [] false).resolve .mysql (Names.ofTree teams 1)
      ⟨tree, tree.root, true⟩ "c").run q = .ok p q' ∧
    (∃ body, p.text = (Predicate.related false body .absent).text) ∧
    (related "reports" (some (group .and [])) [] false).verdict
      (Row.ofFields [("reports", .list [.record []])]) = .fails ∧
    (related "reports" none [] false).verdict
      (Row.ofFields [("reports", .list [.record []])]) = .holds := by
  obtain ⟨access, haccess⟩ : ∃ access, teams.access "Employee" = .ok access := ⟨_, rfl⟩
  obtain ⟨tree, q, hstart⟩ : ∃ tree q, (JoinTree.single access).run {} = .ok tree q := ⟨_, _, rfl⟩
  obtain ⟨p, q', hp⟩ : ∃ p q', ((related "reports" (some (group .and [])) [] false).resolve .mysql
      (Names.ofTree teams 1) ⟨tree, tree.root, true⟩ "c").run q = .ok p q' := by
    cases haccess; cases hstart; exact ⟨_, _, rfl⟩
  have hinner : ((group .and []).resolve .mysql (Names.ofTree teams 1) ⟨tree, tree.root, true⟩
      "c.c").run q = .ok (.group .and []) q := rfl
  obtain ⟨htext, hverdicts⟩ := related_textless rfl hinner rfl "reports" [] false
  obtain ⟨hempty, -⟩ | ⟨body, -, -, hbody, -⟩ := htext hp
  · exact absurd hempty (by decide)
  · obtain ⟨hfails, hholds⟩ := (hverdicts (Row.ofFields [("reports", .list [.record []])])).2 rfl
      [.record []] rfl (List.cons_ne_nil _ _)
    exact ⟨tree, p, q, q', hp, ⟨body, hbody⟩, hfails, hholds⟩

end Condition
end QueryCompiler
