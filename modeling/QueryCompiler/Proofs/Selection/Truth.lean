import QueryCompiler.Proofs.Boolean.Spelling

/-!
# Three truth values

Of a row, SQL says that a condition holds, that it fails, or neither: a comparison with null is
unknown. `NOT`, `AND` and `OR` are those of Kleene. They commute with putting a boolean for what is
unknown, where a negation turns that boolean round (`Truth.getD_negate`). So a boolean that lies
between the two ways to decide the leaves of a formula still does for the whole formula
(`Truth.Between.group`, `Truth.Between.negate`).
-/

namespace QueryCompiler

/-- What SQL says of a row. -/
inductive Truth where
  | holds
  | fails
  | unknown
  deriving DecidableEq, Repr

namespace Truth

/-- The truth of what is known. -/
def ofBool (b : Bool) : Truth :=
  if b then .holds else .fails

def negate : Truth → Truth
  | .holds => .fails
  | .fails => .holds
  | .unknown => .unknown

def and : Truth → Truth → Truth
  | .fails, _ | _, .fails => .fails
  | .holds, .holds => .holds
  | _, _ => .unknown

def or : Truth → Truth → Truth
  | .holds, _ | _, .holds => .holds
  | .fails, .fails => .fails
  | _, _ => .unknown

/-- The truth as a boolean, `b` for what is unknown. -/
def getD (t : Truth) (b : Bool) : Bool :=
  match t with
  | .holds => true
  | .fails => false
  | .unknown => b

variable {t u : Truth} {lo hi m n : Bool}

@[simp] theorem getD_ofBool (b c : Bool) : (ofBool b).getD c = b := by
  cases b <;> rfl

theorem getD_false_iff : t.getD false = true ↔ t = .holds := by
  cases t <;> decide

theorem getD_true_iff : t.getD true = true ↔ t = .holds ∨ t = .unknown := by
  cases t <;> decide

theorem getD_negate (t : Truth) (b : Bool) : t.negate.getD b = !t.getD (!b) := by
  cases t <;> simp [negate, getD]

theorem getD_and (t u : Truth) (b : Bool) : (t.and u).getD b = (t.getD b && u.getD b) := by
  cases t <;> cases u <;> simp [and, getD]

theorem getD_or (t u : Truth) (b : Bool) : (t.or u).getD b = (t.getD b || u.getD b) := by
  cases t <;> cases u <;> simp [or, getD]

@[simp] theorem and_holds (t : Truth) : t.and .holds = t := by
  cases t <;> rfl

@[simp] theorem or_fails (t : Truth) : t.or .fails = t := by
  cases t <;> rfl

@[simp] theorem holds_and (t : Truth) : Truth.holds.and t = t := by
  cases t <;> rfl

@[simp] theorem fails_or (t : Truth) : Truth.fails.or t = t := by
  cases t <;> rfl

theorem and_eq_holds : t.and u = .holds ↔ t = .holds ∧ u = .holds := by
  cases t <;> cases u <;> decide

theorem or_eq_holds : t.or u = .holds ↔ t = .holds ∨ u = .holds := by
  cases t <;> cases u <;> decide

theorem eq_ofBool_of_known (h : t ≠ .unknown) (b : Bool) : t = ofBool (t.getD b) := by
  cases t with
  | unknown => exact absurd rfl h
  | holds | fails => rfl

/-! ## Bounds -/

/-- The boolean lies between what the truth is with `lo` and with `hi` for what is unknown. -/
structure Between (lo hi : Bool) (t : Truth) (m : Bool) : Prop where
  lower : t.getD lo = true → m = true
  upper : m = true → t.getD hi = true

theorem between_known (h : t ≠ .unknown → t = ofBool m) : t.Between false true m := by
  by_cases hunknown : t = .unknown
  · subst hunknown
    exact ⟨nofun, fun _ => rfl⟩
  · rw [h hunknown]
    constructor <;> simp

theorem between_self (b : Bool) (t : Truth) : t.Between b b (t.getD b) :=
  ⟨id, id⟩

theorem Between.eq_getD {b : Bool} (h : t.Between b b m) : m = t.getD b :=
  Bool.eq_iff_iff.2 ⟨h.upper, h.lower⟩

theorem Between.negate (h : t.Between lo hi m) : t.negate.Between (!hi) (!lo) (!m) where
  lower hfails := by
    rw [getD_negate, Bool.not_not, Bool.not_eq_true'] at hfails
    cases m with
    | false => rfl
    | true => exact absurd (h.upper rfl) (Bool.eq_false_iff.1 hfails)
  upper hm := by
    rw [getD_negate, Bool.not_not, Bool.not_eq_true', Bool.eq_false_iff]
    intro hholds
    rw [h.lower hholds] at hm
    exact Bool.false_ne_true hm

theorem Between.and (h : t.Between lo hi m) (h' : u.Between lo hi n) :
    (t.and u).Between lo hi (m && n) where
  lower hall := by
    rw [getD_and, Bool.and_eq_true] at hall
    exact Bool.and_eq_true_iff.2 ⟨h.lower hall.1, h'.lower hall.2⟩
  upper hall := by
    rw [Bool.and_eq_true] at hall
    rw [getD_and]
    exact Bool.and_eq_true_iff.2 ⟨h.upper hall.1, h'.upper hall.2⟩

theorem Between.or (h : t.Between lo hi m) (h' : u.Between lo hi n) :
    (t.or u).Between lo hi (m || n) where
  lower hany := by
    rw [getD_or, Bool.or_eq_true] at hany
    exact Bool.or_eq_true_iff.2 (hany.imp h.lower h'.lower)
  upper hany := by
    rw [Bool.or_eq_true] at hany
    rw [getD_or]
    exact Bool.or_eq_true_iff.2 (hany.imp h.upper h'.upper)

end Truth

/-! ## Formulas -/

namespace Formula

mutual

/-- The truth of a formula, given the truths of its atoms. -/
def truth (w : List Char → Truth) : Formula → Truth
  | .atom a => w a
  | .negate f => (f.truth w).negate
  | .group k fs => truthGroup w k fs

/-- The truth of a conjunction or a disjunction. -/
def truthGroup (w : List Char → Truth) : Connective → List Formula → Truth
  | .and, [] => .holds
  | .or, [] => .fails
  | .and, f :: fs => (f.truth w).and (truthGroup w .and fs)
  | .or, f :: fs => (f.truth w).or (truthGroup w .or fs)

end

variable {w : List Char → Truth}

theorem truth_combine (w : List Char → Truth) (k : Connective) (fs : List Formula) :
    (combine k fs).truth w = truthGroup w k fs := by
  match fs with
  | [] | _ :: _ :: _ => rfl
  | [f] => cases k <;> simp [combine, truthGroup]

theorem truthGroup_congr (k : Connective) {fs gs : List Formula}
    (h : List.Forall₂ (fun f g => f.truth w = g.truth w) fs gs) :
    truthGroup w k fs = truthGroup w k gs := by
  induction h with
  | nil => rfl
  | cons h _ ih => cases k <;> simp only [truthGroup, h, ih]

theorem truthGroup_and_concat {fs : List Formula} {f : Formula} :
    truthGroup w .and (fs ++ [f]) = .holds ↔ truthGroup w .and fs = .holds ∧ f.truth w = .holds := by
  induction fs with
  | nil => simp [truthGroup]
  | cons g fs ih =>
    rw [List.cons_append, truthGroup, truthGroup, Truth.and_eq_holds, Truth.and_eq_holds, ih, and_assoc]

theorem truthGroup_or_concat {fs : List Formula} {f : Formula} :
    truthGroup w .or (fs ++ [f]) = .holds ↔ truthGroup w .or fs = .holds ∨ f.truth w = .holds := by
  induction fs with
  | nil => simp [truthGroup]
  | cons g fs ih =>
    rw [List.cons_append, truthGroup, truthGroup, Truth.or_eq_holds, Truth.or_eq_holds, ih, or_assoc]

end Formula

/-! ## Sentences that hold -/

namespace Sentence

variable {w : List Char → Truth}

-- by induction over the sentence, for all disjuncts and conjuncts read before it
theorem truth_put : ∀ (s : Sentence) (ds cs : List Formula),
    (s.put ⟨ds, cs, 0⟩).close.truth w = .holds ↔ Formula.truthGroup w .or ds = .holds ∨
      s.PassesFrom (fun o => o.formula.truth w = .holds) (Formula.truthGroup w .and cs = .holds)
  | .last o, ds, cs => by
    show (Formula.combine .or (ds ++ [Formula.combine .and (cs ++ [o.formula])])).truth w = _ ↔ _
    rw [Formula.truth_combine, Formula.truthGroup_or_concat, Formula.truth_combine,
      Formula.truthGroup_and_concat, PassesFrom]
  | .more o k s, ds, cs => by
    cases k with
    | and =>
      show (s.put ⟨ds, cs ++ [o.formula], 0⟩).close.truth w = _ ↔ _
      rw [truth_put s, Formula.truthGroup_and_concat, PassesFrom]
    | or =>
      show (s.put ⟨ds ++ [Formula.combine .and (cs ++ [o.formula])], [], 0⟩).close.truth w = _ ↔ _
      rw [truth_put s, Formula.truthGroup_or_concat, Formula.truth_combine,
        Formula.truthGroup_and_concat, PassesFrom, or_assoc, Formula.truthGroup, eq_self]

/-- A sentence holds as it is read if it passes, operand by operand. -/
theorem truth_eq_holds {s : Sentence} :
    s.formula.truth w = .holds ↔ s.Passes fun o => o.formula.truth w = .holds := by
  have hput := s.truth_put (w := w) [] []
  rwa [Formula.truthGroup, Formula.truthGroup, eq_self, or_iff_right nofun] at hput

end Sentence

/-- The booleans of a group, all or any of them. -/
def Connective.decide : Connective → List Bool → Bool
  | .and, ms => ms.all id
  | .or, ms => ms.any id

theorem Truth.Between.group {w : List Char → Truth} {lo hi : Bool} (k : Connective)
    {fs : List Formula} {ms : List Bool}
    (h : List.Forall₂ (fun f m => (f.truth w).Between lo hi m) fs ms) :
    (Formula.truthGroup w k fs).Between lo hi (k.decide ms) := by
  induction h with
  | nil => cases k <;> exact ⟨id, id⟩
  | cons h _ ih =>
    cases k with
    | and => exact h.and ih
    | or => exact h.or ih

/-! ## Leaves that stand alone -/

/-- The sentence is one operand that states the formula, in all three truth values. -/
def Sentence.States (s : Sentence) (f : Formula) : Prop :=
  ∃ o, s = .last o ∧ o.leaves = f.atoms ∧ ∀ w, o.formula.truth w = f.truth w

namespace Sentence

variable {s : Sentence} {f : Formula}

theorem put_chain (k : Connective) (o : Operand) (os : List Operand) (l : Level) :
    (chain k (.last o) (os.map .last)).put l = l.chain k o.formula (os.map Operand.formula) := by
  induction os generalizing o l with
  | nil => rfl
  | cons o' os ih =>
    show (chain k (.last o') (os.map .last)).put ((l.take o.formula).connect k) = _
    rw [ih]
    rfl

theorem leaves_chain (k : Connective) (o : Operand) (os : List Operand) :
    (chain k (.last o) (os.map .last)).leaves = o.leaves ++ os.flatMap Operand.leaves := by
  induction os generalizing o with
  | nil => exact (List.append_nil _).symm
  | cons o' os ih =>
    show o.leaves ++ (chain k (.last o') (os.map .last)).leaves = _
    rw [ih, List.flatMap_cons]

namespace States

theorem leaf (a : List Char) : (Sentence.last (.leaf a)).States (.atom a) :=
  ⟨.leaf a, rfl, rfl, fun _ => rfl⟩

theorem negate (h : s.States f) :
    (Sentence.last (.enclosed s.negate)).States (.negate f) := by
  obtain ⟨o, rfl, hleaves, htruth⟩ := h
  refine ⟨_, rfl, hleaves, fun w => ?_⟩
  show (o.formula.truth w).negate = (f.truth w).negate
  rw [htruth w]

/-- The operands of sentences that state formulas. -/
theorem operands {ss : List Sentence} {fs : List Formula} (h : List.Forall₂ States ss fs) :
    ∃ os : List Operand, ss = os.map .last ∧ os.flatMap Operand.leaves = Formula.atomsOf fs ∧
      ∀ w, List.Forall₂ (fun f g => f.truth w = g.truth w) (os.map Operand.formula) fs := by
  induction h with
  | nil => exact ⟨[], rfl, rfl, fun _ => .nil⟩
  | cons h _ ih =>
    obtain ⟨o, rfl, hleaves, htruth⟩ := h
    obtain ⟨os, rfl, hrest, htruths⟩ := ih
    refine ⟨o :: os, rfl, ?_, fun w => .cons (htruth w) (htruths w)⟩
    rw [List.flatMap_cons, hleaves, hrest, Formula.atomsOf]

theorem group (k : Connective) {ss : List Sentence} {fs : List Formula}
    (h : List.Forall₂ States ss fs) :
    Option.Rel States (Sentence.group k ss) (Formula.group? k fs) := by
  obtain ⟨os, rfl, hleaves, htruths⟩ := operands h
  match os, fs with
  | [], [] => exact .none
  | [], _ :: _ | _ :: _, [] => exact absurd h nofun
  | [o], [f] =>
    refine .some ⟨o, rfl, by simpa [Formula.atoms] using hleaves, fun w => ?_⟩
    rw [Formula.truth, ← Formula.truthGroup_congr k (htruths w), ← Formula.truth_combine]
    rfl
  | [_], _ :: _ :: _ | _ :: _ :: _, [_] => exact absurd h (by simp)
  | o :: o' :: os, f :: f' :: fs =>
    refine .some ⟨_, rfl, ?_, fun w => ?_⟩
    · rw [Formula.atoms, ← hleaves]
      exact leaves_chain k o (o' :: os)
    · rw [Formula.truth, ← Formula.truthGroup_congr k (htruths w), ← Formula.truth_combine]
      show Formula.truth w ((chain k (.last o) ((o' :: os).map .last)).put {}).close = _
      rw [put_chain, Level.close_chain]
      rfl

end States
end Sentence

theorem Formula.leaf?_of_atomic {s : String} (h : Atomic s.toList) :
    Formula.leaf? s = some (.atom s.toList) := by
  have hne := Spells.ne_empty (Spells.leaf h)
  rw [Formula.leaf?, if_neg (by simpa using hne)]

/-- A filled template that is read as one leaf. -/
def Filled.leaf (sql : Filled) : Sentence :=
  .last (.leaf sql.text.toList)

namespace Predicate

mutual

theorem states : ∀ p : Predicate,
    Option.Rel Sentence.States (p.sentence? Filled.leaf) p.formula?
  | .absent => .none
  | .filled sql bs => by
    rw [sentence?, formula?, Formula.leaf?]
    split
    · exact .none
    · exact .some (.leaf _)
  | .membership column negated items => by
    rw [sentence?, formula?, Formula.leaf?_of_atomic (atomic_membershipText column negated items)]
    exact .some (.leaf _)
  | .related negated body inner => by
    rw [sentence?, formula?, Formula.leaf?_of_atomic (atomic_related negated body inner)]
    exact .some (.leaf _)
  | .negate inner => by
    have ih := states inner
    rw [sentence?, formula?]
    generalize inner.sentence? Filled.leaf = s?, inner.formula? = f? at ih ⊢
    cases ih with
    | none => exact .none
    | some h => exact .some h.negate
  | .group k parts => Sentence.States.group k (statesAll parts)

theorem statesAll : ∀ ps : List Predicate,
    List.Forall₂ Sentence.States (sentences Filled.leaf ps) (formulas ps)
  | [] => .nil
  | p :: ps => by
    have ih := states p
    rw [sentences, formulas]
    generalize p.sentence? Filled.leaf = s?, p.formula? = f? at ih ⊢
    cases ih with
    | none => exact statesAll ps
    | some h => exact .cons h (statesAll ps)

end

mutual

theorem spelled_of_atomicLeaves : ∀ p : Predicate, p.AtomicLeaves → p.Spelled Filled.leaf
  | .absent, _ | .membership _ _ _, _ | .related _ _ _, _ => trivial
  | .filled _ _, h => fun hne => Spells.leaf (h hne)
  | .negate inner, h => spelled_of_atomicLeaves inner h
  | .group _ parts, h => spelledOf_of_atomicLeavesOf parts h

theorem spelledOf_of_atomicLeavesOf : ∀ ps : List Predicate, AtomicLeavesOf ps →
    SpelledOf Filled.leaf ps
  | [], _ => trivial
  | p :: ps, h => ⟨spelled_of_atomicLeaves p h.1, spelledOf_of_atomicLeavesOf ps h.2⟩

end

/-- The text of a predicate is read as a formula with the truth of the predicate's formula. -/
theorem parse_truth {p : Predicate} {f : Formula} (h : p.AtomicLeaves) (hf : p.formula? = some f) :
    ∃ g, Formula.parse f.atoms p.text.toList = some g ∧ ∀ w, g.truth w = f.truth w := by
  have hstates := p.states
  have hspells := p.spells_text (spelled_of_atomicLeaves p h)
  rw [hf] at hstates
  cases hs : p.sentence? Filled.leaf with
  | none => rw [hs] at hstates; exact absurd hstates nofun
  | some s =>
    rw [hs] at hstates hspells
    obtain ⟨⟨o, rfl, hleaves, htruth⟩⟩ := hstates
    refine ⟨o.formula, ?_, htruth⟩
    rw [← hleaves]
    exact hspells.parse

end Predicate
end QueryCompiler
