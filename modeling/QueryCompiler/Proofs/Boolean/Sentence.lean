import QueryCompiler.Proofs.Boolean.Bracketing

/-!
# Boolean expressions as they are written

A `Sentence` is a boolean expression with the brackets that stand in it and no others: operands with
connectives between them. Its text is read back as its formula (`Sentence.parse`). `AND` between two
sentences binds to the operands next to it only, so of `a AND b` where `b` has a disjunction outside
brackets, all that stands behind the first `OR` of `b` holds without `a` (`Sentence.behind`).
-/

namespace QueryCompiler

mutual

/-- An operand of a boolean expression. -/
inductive Operand where
  | leaf (text : List Char)
  | not (operand : Operand)
  | enclosed (inner : Sentence)

/-- Operands with connectives between them. -/
inductive Sentence where
  | last (operand : Operand)
  | more (operand : Operand) (k : Connective) (rest : Sentence)

end

mutual

/-- The text of an operand. -/
def Operand.chars : Operand → List Char
  | .leaf a => a
  | .not o => "NOT ".toList ++ o.chars
  | .enclosed s => "(".toList ++ (s.chars ++ ")".toList)

/-- The text of a sentence. -/
def Sentence.chars : Sentence → List Char
  | .last o => o.chars
  | .more o k s => o.chars ++ (Token.separator k ++ s.chars)

end

mutual

/-- The leaves of an operand, from left to right. -/
def Operand.leaves : Operand → List (List Char)
  | .leaf a => [a]
  | .not o => o.leaves
  | .enclosed s => s.leaves

/-- The leaves of a sentence, from left to right. -/
def Sentence.leaves : Sentence → List (List Char)
  | .last o => o.leaves
  | .more o _ s => o.leaves ++ s.leaves

end

mutual

/-- The formula of an operand. -/
def Operand.formula : Operand → Formula
  | .leaf a => .atom a
  | .not o => .negate o.formula
  | .enclosed s => (s.put {}).close

/-- What reading a sentence does to the level that it stands in. -/
def Sentence.put : Sentence → Level → Level
  | .last o, l => l.take o.formula
  | .more o k s, l => s.put ((l.take o.formula).connect k)

end

/-- The formula of a sentence. -/
def Sentence.formula (s : Sentence) : Formula :=
  (s.put {}).close

mutual

/-- The leaves of the operand can be told from what stands around them. -/
def Operand.Atomic : Operand → Prop
  | .leaf a => QueryCompiler.Atomic a
  | .not o => o.Atomic
  | .enclosed s => s.Atomic

/-- The leaves of the sentence can be told from what stands around them. -/
def Sentence.Atomic : Sentence → Prop
  | .last o => o.Atomic
  | .more o _ s => o.Atomic ∧ s.Atomic

end

/-! ## Reading a sentence back -/

mutual

theorem Operand.written : ∀ o : Operand, o.Atomic → Written (·.take o.formula) o.leaves o.chars
  | .leaf _, h => .atom h
  | .not o, h => (o.written h).negate
  | .enclosed s, h => (s.written h).enclose

theorem Sentence.written : ∀ s : Sentence, s.Atomic → Written s.put s.leaves s.chars
  | .last o, h => o.written h
  | .more o _ s, h => (o.written h.1).connect (s.written h.2)

end

namespace Sentence

variable {s t : Sentence} {v : List Char → Bool}

theorem parse (h : s.Atomic) : Formula.parse s.leaves s.chars = some s.formula :=
  (s.written h).parse

/-! ## Values -/

end Sentence

mutual

/-- The value of an operand, given the values of its leaves. -/
def Operand.eval (v : List Char → Bool) : Operand → Bool
  | .leaf a => v a
  | .not o => !o.eval v
  | .enclosed s => s.evalFrom v true

/-- The value of a sentence behind a conjunction that has a value already. -/
def Sentence.evalFrom (v : List Char → Bool) : Sentence → Bool → Bool
  | .last o, b => b && o.eval v
  | .more o .and s, b => s.evalFrom v (b && o.eval v)
  | .more o .or s, b => b && o.eval v || s.evalFrom v true

end

namespace Sentence

/-- The value of a sentence. -/
def eval (v : List Char → Bool) (s : Sentence) : Bool :=
  s.evalFrom v true

end Sentence

theorem Formula.evalGroup_and_concat (v : List Char → Bool) (fs : List Formula) (f : Formula) :
    evalGroup v .and (fs ++ [f]) = (evalGroup v .and fs && f.eval v) := by
  induction fs with
  | nil => simp [evalGroup]
  | cons g fs ih => rw [List.cons_append, evalGroup, evalGroup, ih, Bool.and_assoc]

theorem Formula.evalGroup_or_concat (v : List Char → Bool) (fs : List Formula) (f : Formula) :
    evalGroup v .or (fs ++ [f]) = (evalGroup v .or fs || f.eval v) := by
  induction fs with
  | nil => simp [evalGroup]
  | cons g fs ih => rw [List.cons_append, evalGroup, evalGroup, ih, Bool.or_assoc]

mutual

theorem Operand.eval_formula (v : List Char → Bool) : ∀ o : Operand,
    o.formula.eval v = o.eval v
  | .leaf _ => rfl
  | .not o => by rw [Operand.formula, Formula.eval, o.eval_formula v, Operand.eval]
  | .enclosed s => by
    rw [Operand.formula, Sentence.eval_put v s [] [], Operand.eval]
    rfl

-- by induction over the sentence, for all disjuncts and conjuncts read before it
theorem Sentence.eval_put (v : List Char → Bool) : ∀ (s : Sentence) (ds cs : List Formula),
    (s.put ⟨ds, cs, 0⟩).close.eval v =
      (Formula.evalGroup v .or ds || s.evalFrom v (Formula.evalGroup v .and cs))
  | .last o, ds, cs => by
    show (Formula.combine .or (ds ++ [Formula.combine .and (cs ++ [o.formula])])).eval v = _
    rw [Formula.eval_combine, Formula.evalGroup_or_concat, Formula.eval_combine,
      Formula.evalGroup_and_concat, o.eval_formula v, Sentence.evalFrom]
  | .more o .and s, ds, cs => by
    show (s.put ⟨ds, cs ++ [o.formula], 0⟩).close.eval v = _
    rw [Sentence.eval_put v s, Formula.evalGroup_and_concat, o.eval_formula v, Sentence.evalFrom]
  | .more o .or s, ds, cs => by
    show (s.put ⟨ds ++ [Formula.combine .and (cs ++ [o.formula])], [], 0⟩).close.eval v = _
    rw [Sentence.eval_put v s, Formula.evalGroup_or_concat, Formula.eval_combine,
      Formula.evalGroup_and_concat, o.eval_formula v, Sentence.evalFrom, Bool.or_assoc]
    rfl

end

namespace Sentence

variable {s t : Sentence} {v : List Char → Bool}

theorem eval_formula (v : List Char → Bool) (s : Sentence) : s.formula.eval v = s.eval v :=
  s.eval_put v [] []

/-! ## Sentences behind one another -/

/-- Two sentences with a connective between them, and no brackets around either. -/
def join (k : Connective) : Sentence → Sentence → Sentence
  | .last o, t => .more o k t
  | .more o k' s, t => .more o k' (s.join k t)

/-- The value of what stands behind the first `OR` outside brackets. -/
def behind (v : List Char → Bool) : Sentence → Bool
  | .last _ => false
  | .more _ .and s => s.behind v
  | .more _ .or s => s.eval v

theorem chars_join (k : Connective) (t : Sentence) : ∀ s : Sentence,
    (s.join k t).chars = s.chars ++ (Token.separator k ++ t.chars)
  | .last _ => rfl
  | .more _ _ s => by
    rw [join, chars, chars, chars_join k t s, List.append_assoc, List.append_assoc]

theorem Atomic.join (k : Connective) : ∀ {s : Sentence}, s.Atomic → t.Atomic →
    (s.join k t).Atomic
  | .last _, hs, ht => ⟨hs, ht⟩
  | .more _ _ _, hs, ht => ⟨hs.1, hs.2.join k ht⟩

/-- No `OR` stands in the sentence outside brackets. -/
def Tight : Sentence → Prop
  | .last _ => True
  | .more _ k s => k = .and ∧ s.Tight

theorem behind_of_tight : ∀ {s : Sentence}, s.Tight → s.behind v = false
  | .last _, _ => rfl
  | .more _ .and s, h => by
    rw [behind]
    exact behind_of_tight h.2
  | .more _ .or _, h => absurd h.1 nofun

theorem tight_join (ht : t.Tight) : ∀ {s : Sentence}, s.Tight → (s.join .and t).Tight
  | .last _, _ => ⟨rfl, ht⟩
  | .more _ _ _, h => ⟨h.1, tight_join ht h.2⟩

/-! ## Which operands pass -/

/-- Whether a sentence passes behind a conjunction, given whether the conjunction does (`b`) and which
operands do. -/
def PassesFrom (P : Operand → Prop) : Sentence → Prop → Prop
  | .last o, b => b ∧ P o
  | .more o .and s, b => s.PassesFrom P (b ∧ P o)
  | .more o .or s, b => b ∧ P o ∨ s.PassesFrom P True

/-- Whether a sentence passes, given which operands do. -/
def Passes (P : Operand → Prop) (s : Sentence) : Prop :=
  s.PassesFrom P True

/-- Whether what stands behind the first `OR` outside brackets passes. -/
def PassesBehind (P : Operand → Prop) : Sentence → Prop
  | .last _ => False
  | .more _ .and s => s.PassesBehind P
  | .more _ .or s => s.Passes P

variable {P : Operand → Prop}

/-- A sentence passes by what stands before its first `OR` or by what stands behind it. -/
theorem behind_of_passesFrom : ∀ {s : Sentence} {b : Prop}, s.PassesFrom P b →
    b ∨ s.PassesBehind P
  | .last _, _, h => .inl h.1
  | .more _ .and s, _, h => by
    rw [PassesFrom] at h
    exact (behind_of_passesFrom h).imp_left And.left
  | .more _ .or s, _, h => by
    rw [PassesFrom] at h
    exact h.imp_left And.left

theorem passesFrom_of_behind : ∀ {s : Sentence} {b : Prop}, s.PassesBehind P → s.PassesFrom P b
  | .last _, _, h => absurd h not_false
  | .more _ .and s, _, h => by
    rw [PassesFrom]
    exact passesFrom_of_behind h
  | .more _ .or s, _, h => .inr h

theorem PassesFrom.passes {s : Sentence} {b : Prop} (h : s.PassesFrom P b) : s.Passes P := by
  rcases behind_of_passesFrom h with hb | hbehind
  · rwa [Passes, ← eq_true hb]
  · exact passesFrom_of_behind hbehind

theorem passesFrom_join : ∀ {s : Sentence} {b : Prop}, (s.join .and t).PassesFrom P b →
    s.PassesFrom P b ∨ t.PassesBehind P
  | .last _, _, h => behind_of_passesFrom h
  | .more _ .and s, _, h => by
    rw [join, PassesFrom] at h
    rw [PassesFrom]
    exact passesFrom_join h
  | .more _ .or s, _, h => by
    rw [join, PassesFrom] at h
    rw [PassesFrom]
    rcases h with h | h
    · exact .inl (.inl h)
    · exact (passesFrom_join h).imp_left .inr

theorem passesBehind_join : ∀ {s : Sentence}, t.PassesBehind P → (s.join .and t).PassesBehind P
  | .last _, h => h
  | .more _ .and s, h => by
    rw [join, PassesBehind]
    exact passesBehind_join h
  | .more _ .or s, h => by
    rw [join, PassesBehind]
    exact passesFrom_of_behind (passesBehind_join h)

theorem Tight.passesFrom_join : ∀ {s : Sentence} {b : Prop}, s.Tight →
    ((s.join .and t).PassesFrom P b ↔ t.PassesFrom P (s.PassesFrom P b))
  | .last _, _, _ => .rfl
  | .more _ .and s, b, h => by
    rw [join, PassesFrom, h.2.passesFrom_join, PassesFrom]
  | .more _ .or _, _, h => absurd h.1 nofun

theorem Tight.not_passesBehind : ∀ {s : Sentence}, s.Tight → ¬ s.PassesBehind P
  | .last _, _, h => h
  | .more _ .and s, ht, h => by
    rw [PassesBehind] at h
    exact ht.2.not_passesBehind h
  | .more _ .or _, ht, _ => absurd ht.1 nofun

/-! ## What `AND` leaves of a sentence -/

theorem evalFrom_iff : ∀ {s : Sentence} {b : Bool},
    s.evalFrom v b = true ↔ s.PassesFrom (fun o => o.eval v = true) (b = true)
  | .last _, _ => Bool.and_eq_true_iff
  | .more _ .and s, _ => by
    rw [evalFrom, evalFrom_iff, PassesFrom, Bool.and_eq_true_iff]
  | .more _ .or s, _ => by
    rw [evalFrom, Bool.or_eq_true, evalFrom_iff, PassesFrom, Bool.and_eq_true_iff, eq_self]

theorem eval_iff : s.eval v = true ↔ s.Passes fun o => o.eval v = true := by
  rw [eval, evalFrom_iff, eq_self, Passes]

theorem behind_iff : ∀ {s : Sentence},
    s.behind v = true ↔ s.PassesBehind fun o => o.eval v = true
  | .last _ => iff_of_false Bool.false_ne_true not_false
  | .more _ .and s => by rw [behind, PassesBehind, behind_iff]
  | .more _ .or s => eval_iff

theorem evalFrom_mono {b : Bool} (h : s.evalFrom v b = true) : s.eval v = true :=
  eval_iff.2 (evalFrom_iff.1 h).passes

theorem Tight.evalFrom_join {b : Bool} (h : s.Tight) :
    (s.join .and t).evalFrom v b = t.evalFrom v (s.evalFrom v b) := by
  rw [Bool.eq_iff_iff, evalFrom_iff, evalFrom_iff, h.passesFrom_join, evalFrom_iff]

theorem eval_before : ((s.join .and t).eval v = true → s.eval v = true) ↔
    (t.behind v = true → s.eval v = true) := by
  rw [eval_iff, eval_iff, behind_iff]
  exact ⟨fun h ht => h (passesFrom_of_behind (passesBehind_join ht)),
    fun h hall => (passesFrom_join hall).elim id h⟩

/-- A sentence between a tight one and another holds wherever they hold together, up to what stands
behind the first `OR` of the last. -/
theorem eval_between {l : Sentence} (hl : l.Tight) :
    ((l.join .and (s.join .and t)).eval v = true → s.eval v = true) ↔
      (t.behind v = true → s.eval v = true) := by
  rw [eval_iff, eval_iff, behind_iff, Passes, hl.passesFrom_join]
  constructor
  · intro h ht
    exact h (passesFrom_of_behind (passesBehind_join ht))
  · intro h hall
    exact (passesFrom_join hall).elim PassesFrom.passes h

end Sentence
end QueryCompiler
