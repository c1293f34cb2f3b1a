import QueryCompiler.Proofs.Boolean.Bracketing

/-!
# Predicates as formulas

A predicate is a boolean formula over the texts of its leaves. What has no text is dropped from it,
and so are groups and negations that are left without members. If its leaves can be told from what
stands around them, the text of the predicate is read as a formula of the same value
(`Predicate.says_text`).
-/

namespace QueryCompiler

/-- A text as a formula; no text is no formula. -/
def Formula.leaf? (s : String) : Option Formula :=
  if s.isEmpty then none else some (.atom s.toList)

/-- A group of formulas; no members are no formula. -/
def Formula.group? (k : Connective) : List Formula → Option Formula
  | [] => none
  | fs => some (.group k fs)

/-- A text says what a formula says, or nothing where there is none. -/
def Says (f? : Option Formula) (s : String) : Prop :=
  match f? with
  | none => s = ""
  | some f => Expresses f s

namespace Says

variable {f? : Option Formula} {s : String}

theorem leaf (h : s ≠ "" → Atomic s.toList) : Says (Formula.leaf? s) s := by
  by_cases hs : s = ""
  · subst hs; rfl
  · have hempty : s.isEmpty = false := by simpa using hs
    rw [Formula.leaf?, hempty, if_neg Bool.false_ne_true]
    exact Expresses.atom (h hs)

theorem eq_empty_iff (h : Says f? s) : s = "" ↔ f? = none := by
  cases f? with
  | none => simp [show s = "" from h]
  | some f => simp [Expresses.ne_empty (show Expresses f s from h)]

end Says

/-! ## The formula of a predicate -/

namespace Predicate

mutual

/-- The formula of a predicate over the texts of its leaves. -/
def formula? : Predicate → Option Formula
  | .absent => none
  | .group k parts => Formula.group? k (formulas parts)
  | .negate inner => inner.formula?.map .negate
  | .filled sql _ => Formula.leaf? sql.text
  | .membership column negated items => Formula.leaf? (membershipText column negated items)
  | .related negated body inner => Formula.leaf? (text (.related negated body inner))

/-- The formulas of the parts of a group that have one. -/
def formulas : List Predicate → List Formula
  | [] => []
  | p :: ps => p.formula?.toList ++ formulas ps

end

mutual

/-- The templates in a predicate are filled to leaves, or to nothing. -/
def AtomicLeaves : Predicate → Prop
  | .filled sql _ => sql.text ≠ "" → Atomic sql.text.toList
  | .group _ parts => AtomicLeavesOf parts
  | .negate inner => inner.AtomicLeaves
  | .absent | .membership _ _ _ | .related _ _ _ => True

/-- `AtomicLeaves` of the parts of a group. -/
def AtomicLeavesOf : List Predicate → Prop
  | [] => True
  | p :: ps => p.AtomicLeaves ∧ AtomicLeavesOf ps

end

theorem atomic_membershipText (column : Column) (negated : Bool) (items : List Binding) :
    Atomic (membershipText column negated items).toList := by
  cases negated
  · exact ⟨⟨'I', by simp [membershipText], by decide⟩, fun _ => by simp [membershipText]⟩
  · exact ⟨⟨'I', by simp [membershipText], by decide⟩, fun _ => by simp [membershipText]⟩

theorem atomic_related (negated : Bool) (body : Subquery Predicate) (inner : Predicate) :
    Atomic (text (.related negated body inner)).toList := by
  obtain ⟨model, number, link, joins, enforced⟩ := body
  cases negated
  · exact ⟨⟨'E', by simp [text], by decide⟩, fun _ => by simp [text]⟩
  · exact ⟨⟨'E', by simp [text], by decide⟩, fun _ => by simp [text]⟩

mutual

/-- The text of a predicate says what its formula says. -/
theorem says_text : ∀ (p : Predicate), p.AtomicLeaves → Says p.formula? p.text
  | .absent, _ => rfl
  | .filled _ _, h => Says.leaf h
  | .membership _ _ _, _ => Says.leaf fun _ => atomic_membershipText _ _ _
  | .related _ _ _, _ => Says.leaf fun _ => atomic_related _ _ _
  | .negate inner, h => by
    have ih := says_text inner h
    rw [formula?, text]
    cases hf : inner.formula? with
    | none =>
      rw [hf] at ih
      rw [show inner.text = "" from ih]
      rfl
    | some f =>
      rw [hf] at ih
      exact Expresses.negate ih
  | .group k parts, h => by
    have ih := says_texts parts h
    rw [formula?, text]
    match hfs : formulas parts with
    | [] =>
      rw [hfs, List.forall₂_nil_left_iff] at ih
      rw [Text.joinFragments, ih]
      rfl
    | f :: fs =>
      rw [hfs] at ih
      exact Expresses.group k ih (by simp)

theorem says_texts : ∀ (ps : List Predicate), AtomicLeavesOf ps →
    List.Forall₂ Expresses (formulas ps) ((texts ps).filter fun s => !s.isEmpty)
  | [], _ => .nil
  | p :: ps, h => by
    have ih := says_text p h.1
    have ihs := says_texts ps h.2
    rw [formulas, texts]
    cases hf : p.formula? with
    | none =>
      rw [hf] at ih
      rw [show p.text = "" from ih]
      exact ihs
    | some f =>
      rw [hf] at ih
      have hempty : (!p.text.isEmpty) = true := by
        simpa using Expresses.ne_empty (show Expresses f p.text from ih)
      rw [List.filter_cons, if_pos hempty]
      exact .cons ih ihs

end
end Predicate

/-! ## Truth -/

namespace Predicate

variable {v : List Char → Bool}

/-- A row meets a predicate if the predicate's formula is true of it. `v` tells which leaves are. A
predicate without a formula asks for nothing. -/
def Holds (v : List Char → Bool) (p : Predicate) : Prop :=
  ∀ f ∈ p.formula?, f.eval v = true

theorem holds_absent : Holds v .absent :=
  fun _ hf => absurd hf nofun

theorem evalGroup_and_formulas : ∀ ps : List Predicate,
    Formula.evalGroup v .and (formulas ps) = true ↔ ∀ p ∈ ps, Holds v p
  | [] => by simp [formulas, Formula.evalGroup]
  | p :: ps => by
    have ih := evalGroup_and_formulas ps
    rw [formulas, List.forall_mem_cons, ← ih, Holds]
    cases p.formula? with
    | none => simp
    | some f => simp [Formula.evalGroup]

theorem holds_and {ps : List Predicate} : Holds v (.group .and ps) ↔ ∀ p ∈ ps, Holds v p := by
  rw [← evalGroup_and_formulas, Holds, formula?]
  cases formulas ps with
  | nil => simp [Formula.group?, Formula.evalGroup]
  | cons f fs => simp [Formula.group?, Formula.eval]

end Predicate
end QueryCompiler
