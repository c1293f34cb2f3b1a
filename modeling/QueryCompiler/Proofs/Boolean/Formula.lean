import QueryCompiler.Text.Fragment
import Mathlib.Data.List.Forall2
import Mathlib.Logic.Function.Iterate

/-!
# Boolean formulas and how SQL writes them

`parse` reads a text as SQL reads a boolean expression: `NOT` binds tighter than `AND`, `AND` tighter
than `OR`, and brackets enclose an operand. What it does not look into are the leaves. They are given
to it in the order in which they stand, and where an operand is due and the next leaf stands there,
that leaf is the operand.
-/

namespace QueryCompiler

/-- A boolean formula over texts. -/
inductive Formula where
  | atom (text : List Char)
  | negate (inner : Formula)
  | group (k : Connective) (members : List Formula)

namespace Formula

instance : Inhabited Formula := ⟨.group .and []⟩

mutual

/-- The value of a formula, given the values of its atoms. -/
def eval (v : List Char → Bool) : Formula → Bool
  | .atom a => v a
  | .negate f => !f.eval v
  | .group k fs => evalGroup v k fs

/-- All members of a conjunction hold, some member of a disjunction does. -/
def evalGroup (v : List Char → Bool) : Connective → List Formula → Bool
  | .and, [] => true
  | .or, [] => false
  | .and, f :: fs => f.eval v && evalGroup v .and fs
  | .or, f :: fs => f.eval v || evalGroup v .or fs

end

mutual

/-- The atoms of a formula, from left to right. -/
def atoms : Formula → List (List Char)
  | .atom a => [a]
  | .negate f => f.atoms
  | .group _ fs => atomsOf fs

/-- The atoms of formulas. -/
def atomsOf : List Formula → List (List Char)
  | [] => []
  | f :: fs => f.atoms ++ atomsOf fs

end

/-- One formula stands for itself, several make a group. -/
def combine (k : Connective) : List Formula → Formula
  | [f] => f
  | fs => .group k fs

@[simp] theorem eval_combine (v : List Char → Bool) (k : Connective) (fs : List Formula) :
    (combine k fs).eval v = evalGroup v k fs := by
  match fs with
  | [] | _ :: _ :: _ => rfl
  | [f] => cases k <;> simp [combine, evalGroup]

/-- The value of a group depends on the values of its members only. -/
theorem evalGroup_congr {v : List Char → Bool} (k : Connective) {fs gs : List Formula}
    (h : List.Forall₂ (fun f g => f.eval v = g.eval v) fs gs) :
    evalGroup v k fs = evalGroup v k gs := by
  induction h with
  | nil => rfl
  | cons h _ ih => cases k <;> simp only [evalGroup, h, ih]

end Formula

/-! ## Tokens -/

/-- A word of a boolean expression. -/
inductive Token where
  | opening
  | closing
  | negation
  | connective (k : Connective)
  | atom (text : List Char)

namespace Token

/-- How a connective is written between its operands. -/
def separator (k : Connective) : List Char :=
  (" " ++ k.word ++ " ").toList

/-- Passes over `skip` characters of a word already taken and reads the words behind. Where an
`operand` is due, the next leaf is taken as one word. -/
def lex : (operand : Bool) → (skip : Nat) → (leaves : List (List Char)) → List Char →
    Option (List Token)
  | operand, skip + 1, leaves, _ :: cs => lex operand skip leaves cs
  | true, 0, leaves, c :: cs =>
    if leaves.head?.any (·.isPrefixOf (c :: cs)) then
      (Token.atom (leaves.headD []) :: ·) <$>
        lex false ((leaves.headD []).length - 1) leaves.tail cs
    else if c = '(' then (Token.opening :: ·) <$> lex true 0 leaves cs
    else if "NOT ".toList.isPrefixOf (c :: cs) then (Token.negation :: ·) <$> lex true 3 leaves cs
    else none
  | false, 0, leaves, c :: cs =>
    if c = ')' then (Token.closing :: ·) <$> lex false 0 leaves cs
    else if (separator .and).isPrefixOf (c :: cs) then
      (Token.connective .and :: ·) <$> lex true 4 leaves cs
    else if (separator .or).isPrefixOf (c :: cs) then
      (Token.connective .or :: ·) <$> lex true 3 leaves cs
    else none
  | false, 0, [], [] => some []
  | _, _, _, [] => none

end Token

/-! ## Precedence -/

/-- What has been read between two brackets: the disjuncts that are complete, the conjuncts of the
next one, and the negations of its next conjunct. -/
structure Level where
  disjuncts : List Formula := []
  conjuncts : List Formula := []
  negations : Nat := 0

namespace Level

/-- Takes an operand, which its negations bind to first. -/
def take (l : Level) (f : Formula) : Level :=
  ⟨l.disjuncts, l.conjuncts ++ [Nat.iterate .negate l.negations f], 0⟩

/-- Takes a connective: an `OR` completes a disjunct. -/
def connect (l : Level) : Connective → Level
  | .and => l
  | .or => ⟨l.disjuncts ++ [.combine .and l.conjuncts], [], 0⟩

/-- The formula of what has been read. -/
def close (l : Level) : Formula :=
  .combine .or (l.connect .or).disjuncts

end Level

namespace Formula

/-- Reads words into a formula. `outer` are the levels around the current one, from the innermost
on. -/
def read : (operand : Bool) → (outer : List Level) → Level → List Token → Option Formula
  | true, outer, l, .opening :: ts => read true (l :: outer) {} ts
  | true, outer, l, .negation :: ts => read true outer { l with negations := l.negations + 1 } ts
  | true, outer, l, .atom a :: ts => read false outer (l.take (.atom a)) ts
  | false, l' :: outer, l, .closing :: ts => read false outer (l'.take l.close) ts
  | false, outer, l, .connective k :: ts => read true outer (l.connect k) ts
  | false, [], l, [] => some l.close
  | _, _, _, _ => none

/-- The formula that a text is read as, if its leaves are the given ones. -/
def parse (leaves : List (List Char)) (text : List Char) : Option Formula :=
  Token.lex true 0 leaves text >>= read true [] {}

example : parse [['a'], ['b'], ['c']] "NOT a OR (b) AND c".toList = some (.group .or
    [.negate (.atom ['a']), .group .and [.atom ['b'], .atom ['c']]]) := by rfl

end Formula
end QueryCompiler
