import QueryCompiler.Proofs.Selection.Truth
import QueryCompiler.Proofs.Boolean.Conditions

/-!
# Tests of a column, in SQL and in memory

SQL compares the stored value with the bound one, and with null nothing is known. In memory each test
has an answer. The two agree on what is known. What is unknown to SQL fails in memory, except that a
stored value differs from a null, and is not among items one of which is null
(`Operator.truth_cases`).
-/

namespace QueryCompiler

/-! ## Comparisons -/

/-- A sign of comparison. -/
inductive Sign where
  | eq
  | ne
  | lt
  | lte
  | gt
  | gte
  deriving DecidableEq, Repr

namespace Sign

/-- How the sign is written. -/
def word : Sign → String
  | .eq => "="
  | .ne => "!="
  | .lt => "<"
  | .lte => "<="
  | .gt => ">"
  | .gte => ">="

/-- Whether two values that are not null compare so. -/
def admits : Sign → Value → Value → Bool
  | .eq, a, b => a.looseEq b
  | .ne, a, b => !a.looseEq b
  | .lt, a, b => (a.strictOrder? b).any (· == .lt)
  | .lte, a, b => (a.strictOrder? b).any (· != .gt)
  | .gt, a, b => (a.strictOrder? b).any (· == .gt)
  | .gte, a, b => (a.strictOrder? b).any (· != .lt)

/-- What SQL says of a comparison: with null it is unknown. -/
def truth (sign : Sign) (a b : Value) : Truth :=
  if a.isNull || b.isNull then .unknown else .ofBool (sign.admits a b)

end Sign

namespace Value

variable {a b : Value}

/-- The value is null, or one of its items is. -/
def hasNull : Value → Bool
  | .null => true
  | .list items => items.any isNull
  | _ => false

theorem eq_null (h : a.isNull = true) : a = .null := by
  cases a <;> first | rfl | exact absurd h Bool.false_ne_true

theorem hasNull_of_isNull (h : a.isNull = true) : a.hasNull = true := by
  rw [eq_null h]
  rfl

theorem looseEq_null (h : a.isNull = false) : a.looseEq .null = false := by
  cases a with
  | null => exact absurd h nofun
  | _ => rfl

theorem null_looseEq (h : a.isNull = false) : Value.null.looseEq a = false := by
  cases a with
  | null => exact absurd h nofun
  | _ => rfl

theorem strictOrder?_null (a : Value) : a.strictOrder? .null = none := by
  cases a <;> rfl

theorem null_strictOrder? (a : Value) : Value.null.strictOrder? a = none := by
  cases a <;> rfl

end Value

namespace Sign

variable {sign : Sign} {a b : Value}

theorem truth_of_null (h : a.isNull = true ∨ b.isNull = true) : sign.truth a b = .unknown :=
  if_pos (Bool.or_eq_true_iff.2 h)

theorem truth_of_not_null (ha : a.isNull = false) (hb : b.isNull = false) :
    sign.truth a b = .ofBool (sign.admits a b) := by
  rw [truth, ha, hb]
  rfl

/-- Of the comparisons with a null, memory takes only that something else differs from it. -/
theorem admits_null (h : a.isNull = false) : sign.admits a .null = (sign == .ne) := by
  cases sign <;> simp [admits, Value.looseEq_null h, Value.strictOrder?_null]

end Sign

/-! ## Tests -/

/-- A test of a column, in the parts that templates have. -/
inductive Test where
  /-- The column compares with the bound value. -/
  | compare (sign : Sign)
  /-- The column compares with the empty text. -/
  | compareEmpty (sign : Sign)
  | isNull (negated : Bool)
  | both (a b : Test)
  | either (a b : Test)

namespace Test

/-- The template that a test is written in. -/
def template : Test → String
  | .compare sign => "$COL " ++ sign.word ++ " #\x7bEXPR\x7d"
  | .compareEmpty sign => "$COL " ++ sign.word ++ " ''"
  | .isNull negated => if negated then "$COL IS NOT NULL" else "$COL IS NULL"
  | .both a b => "(" ++ a.template ++ " AND " ++ b.template ++ ")"
  | .either a b => "(" ++ a.template ++ " OR " ++ b.template ++ ")"

/-- What SQL says of a test of a stored value, with a bound one. -/
def truth (stored value : Value) : Test → Truth
  | .compare sign => sign.truth stored value
  | .compareEmpty sign => sign.truth stored (.text "")
  | .isNull negated => .ofBool (stored.isNull != negated)
  | .both a b => (a.truth stored value).and (b.truth stored value)
  | .either a b => (a.truth stored value).or (b.truth stored value)

end Test

/-- What SQL says of a value among items: the value equals one of them. The items stand first, as
they do in memory. -/
def Truth.member (items : List Value) (stored : Value) : Truth :=
  items.foldr (fun item t => (Sign.eq.truth item stored).or t) .fails

namespace Operator

variable {op : Operator} {stored value : Value} {items : List Value}

/-- Not a search for a part of a text. -/
def isTest : Operator → Bool
  | .like | .contains | .startsWith | .endsWith => false
  | _ => true

/-- The sign of a comparison. -/
def sign? : Operator → Option Sign
  | .eq => some .eq
  | .ne => some .ne
  | .lt => some .lt
  | .lte => some .lte
  | .gt => some .gt
  | .gte => some .gte
  | _ => none

/-- The test of an operator that has a template. -/
def test? (op : Operator) : Option Test :=
  match op with
  | .isNull => some (.isNull false)
  | .isNotNull => some (.isNull true)
  | .isBlank => some (.either (.isNull false) (.compareEmpty .eq))
  | .isNotBlank => some (.both (.isNull true) (.compareEmpty .ne))
  | op => op.sign?.map .compare

theorem template?_of_test? {test : Test} (h : op.test? = some test) :
    op.template? = some test.template := by
  cases op with
  | like | contains | startsWith | endsWith | isIn | notIn | eqOrIn => exact absurd h nofun
  | _ =>
    obtain rfl := Option.some.inj h
    decide

theorem test_truth_of_not_needsValue {test : Test} {value' : Value}
    (h : op.needsValue = false) (htest : op.test? = some test) :
    test.truth stored value = test.truth stored value' := by
  cases op with
  | isNull | isNotNull | isBlank | isNotBlank => obtain rfl := Option.some.inj htest; rfl
  | _ => exact absurd h nofun

/-- What SQL says of a stored value under an operator. -/
def truth (op : Operator) (stored value : Value) : Truth :=
  match op with
  | .isIn => .member (value.collection?.getD []) stored
  | .notIn => (Truth.member (value.collection?.getD []) stored).negate
  | .eqOrIn =>
    match value with
    | .list [single] => Sign.eq.truth stored single
    | .list items => .member items stored
    | scalar => Sign.eq.truth stored scalar
  | op => (op.test?.map (Test.truth stored value)).getD .unknown

/-- The operator holds of what differs. -/
def isNegative : Operator → Bool
  | .ne | .notIn => true
  | _ => false

end Operator

/-! ## Membership -/

namespace Truth

variable {stored : Value} {items : List Value}

theorem member_null (h : items ≠ []) : member items .null = .unknown := by
  induction items with
  | nil => exact absurd rfl h
  | cons item items ih =>
    rw [member, List.foldr_cons, Sign.truth_of_null (.inr rfl)]
    cases items with
    | nil => rfl
    | cons item' items =>
      show unknown.or (member (item' :: items) .null) = _
      rw [ih nofun]
      rfl

/-- Without what is unknown, the stored value equals an item as it does in memory. -/
theorem member_getD (h : stored.isNull = false) :
    (member items stored).getD false = items.any fun item => item.looseEq stored := by
  induction items with
  | nil => rfl
  | cons item items ih =>
    show ((Sign.eq.truth item stored).or (member items stored)).getD false = _
    rw [getD_or, ih, List.any_cons]
    cases hitem : item.isNull with
    | false => rw [Sign.truth_of_not_null hitem h, getD_ofBool, Sign.admits]
    | true =>
      rw [Sign.truth_of_null (.inl hitem), Value.eq_null hitem, Value.null_looseEq h]
      rfl

theorem member_known (h : stored.isNull = false) (hitems : items.any Value.isNull = false) :
    member items stored ≠ .unknown := by
  induction items with
  | nil => exact nofun
  | cons item items ih =>
    obtain ⟨hitem, hrest⟩ := Bool.or_eq_false_iff.1 hitems
    show (Sign.eq.truth item stored).or (member items stored) ≠ _
    rw [Sign.truth_of_not_null hitem h]
    have hknown := ih hrest
    generalize member items stored = t at hknown
    cases Sign.eq.admits item stored <;> cases t <;> first | exact hknown | exact nofun

end Truth

/-! ## Where memory decides what SQL does not -/

/-- What is known to SQL is the answer of memory. What is unknown has met a null, a stored one or a
given one; it fails in memory, except for a negative test of a stored value. -/
inductive Truth.Decided (stored : Value) (given negative : Bool) : Truth → Bool → Prop where
  | known (answer : Bool) : Decided stored given negative (.ofBool answer) answer
  | unknown (h : stored.isNull = true ∨ given = true) :
    Decided stored given negative .unknown (!stored.isNull && negative)

namespace Truth.Decided

variable {stored : Value} {given given' negative : Bool} {t : Truth} {answer : Bool}
  {items : List Value}

theorem between (h : Decided stored given negative t answer) : t.Between false true answer := by
  refine between_known fun hknown => ?_
  cases h with
  | known => rfl
  | unknown => exact absurd rfl hknown

/-- Of a stored null nothing is known, and nothing holds in memory. -/
theorem of_null (h : stored.isNull = true) : Decided stored given negative .unknown false := by
  have hunknown := @unknown stored given negative (.inl h)
  rwa [h] at hunknown

theorem of_given (h : stored.isNull = false) (hgiven : given = true) :
    Decided stored given negative .unknown negative := by
  have hunknown := @unknown stored given negative (.inr hgiven)
  rwa [h] at hunknown

theorem mono (h : Decided stored given negative t answer) (hgiven : given = true → given' = true) :
    Decided stored given' negative t answer := by
  cases h with
  | known => exact known _
  | unknown h => exact unknown (h.imp_right hgiven)

theorem negate (hstored : stored.isNull = false) (h : Decided stored given false t answer) :
    Decided stored given true t.negate !answer := by
  cases h with
  | known answer =>
    cases answer with
    | false => exact known true
    | true => exact known false
  | unknown h =>
    rw [hstored]
    exact of_given hstored (h.resolve_left (by simp [hstored]))

theorem compare (sign : Sign) (stored value : Value) :
    Decided stored value.isNull (sign == .ne) (sign.truth stored value)
      (!stored.isNull && sign.admits stored value) := by
  cases hstored : stored.isNull with
  | true =>
    rw [Sign.truth_of_null (.inl hstored)]
    exact of_null hstored
  | false =>
    rw [Bool.not_false, Bool.true_and]
    cases hvalue : value.isNull with
    | false =>
      rw [Sign.truth_of_not_null hstored hvalue]
      exact known _
    | true =>
      rw [Sign.truth_of_null (.inr hvalue), Value.eq_null hvalue, Sign.admits_null hstored]
      exact of_given hstored rfl

/-- A membership of a value that is stored. -/
theorem member (hstored : stored.isNull = false) :
    Decided stored (items.any Value.isNull) false (.member items stored)
      (items.any fun item => item.looseEq stored) := by
  rw [← member_getD hstored]
  by_cases hknown : Truth.member items stored = .unknown
  · have hsome : items.any Value.isNull = true :=
      by_contra fun hnone => member_known hstored (Bool.eq_false_iff.2 hnone) hknown
    rw [hknown]
    exact of_given hstored hsome
  · have hdecided := @known stored (items.any Value.isNull) false
      ((Truth.member items stored).getD false)
    rwa [← eq_ofBool_of_known hknown false] at hdecided

end Truth.Decided

/-! ## Operators -/

namespace Value

variable {value : Value} {items : List Value}

theorem collection?_eq_some (h : value.collection? = some items) : items ≠ [] ∧
    (items.any isNull = true → value.hasNull = true) ∧
    ∀ stored, Operator.isMember value stored = items.any fun item => item.looseEq stored := by
  cases value with
  | null => exact absurd h nofun
  | list values =>
    cases values with
    | nil => exact absurd h nofun
    | cons value values =>
      obtain rfl := Option.some.inj h
      exact ⟨nofun, id, fun _ => rfl⟩
  | _ =>
    obtain rfl := Option.some.inj h
    exact ⟨nofun, nofun, fun _ => (Bool.or_false _).symm⟩

end Value

namespace Operator

open Truth (Decided)

variable {op : Operator} {stored value : Value} {column : Column} {base : String} {p : Predicate}

theorem holds_of_sign? {sign : Sign} (h : op.sign? = some sign) :
    op.holds stored value = (!stored.isNull && sign.admits stored value) := by
  have hordered : ∀ test : Ordering → Bool, orderHolds stored value test =
      (!stored.isNull && (stored.strictOrder? value).any test) := by
    intro test
    cases hstored : stored.isNull with
    | false => rfl
    | true => rw [Value.eq_null hstored, orderHolds, Value.null_strictOrder?]; rfl
  cases op with
  | eq | ne => cases h; rfl
  | lt | lte | gt | gte => cases h; exact hordered _
  | _ => exact absurd h nofun

theorem decided_of_sign? {sign : Sign} (h : op.sign? = some sign) :
    Decided stored value.hasNull op.isNegative (op.truth stored value) (op.holds stored value) := by
  have hcompare := (Decided.compare sign stored value).mono Value.hasNull_of_isNull
  rw [← holds_of_sign? h] at hcompare
  cases op with
  | eq | ne | lt | lte | gt | gte => cases h; exact hcompare
  | _ => exact absurd h nofun

theorem collection?_of_membership {op : Operator} {negated : Bool}
    (h : membership op negated column base value = .ok p) : ∃ items,
    value.collection? = some items ∧
      p = .membership column negated (Binding.ofItems (Params.valuePath base) items) := by
  rw [membership] at h
  split at h
  case h_1 items hitems => exact ⟨items, hitems, (Except.ok.inj h).symm⟩
  case h_2 => cases h

theorem decided_member {items : List Value} (h : value.collection? = some items) :
    Decided stored value.hasNull false (.member items stored)
      (!stored.isNull && isMember value stored) := by
  obtain ⟨hitems, hnull, hmember⟩ := Value.collection?_eq_some h
  rw [hmember]
  cases hstored : stored.isNull with
  | true =>
    rw [Value.eq_null hstored, Truth.member_null hitems]
    exact .of_null rfl
  | false => exact (Decided.member hstored).mono hnull

theorem decided_notMember {items : List Value} (h : value.collection? = some items) :
    Decided stored value.hasNull true (Truth.member items stored).negate
      (!stored.isNull && !isMember value stored) := by
  obtain ⟨hitems, hnull, hmember⟩ := Value.collection?_eq_some h
  rw [hmember]
  cases hstored : stored.isNull with
  | true =>
    rw [Value.eq_null hstored, Truth.member_null hitems]
    exact .of_null rfl
  | false => exact ((Decided.member hstored).mono hnull).negate hstored

/-- `eqOrIn` compares with a value that stands alone, and tests for membership in several. -/
theorem eqOrIn_cases (h : resolve .eqOrIn column base value = .ok p) :
    (∃ single, resolve .eq column base single = .ok p ∧
      (single.isNull = true → value.hasNull = true) ∧
      ∀ stored, truth .eqOrIn stored value = truth .eq stored single ∧
        holds .eqOrIn stored value = holds .eq stored single) ∨
    resolve .isIn column base value = .ok p ∧
      ∀ stored, truth .eqOrIn stored value = truth .isIn stored value ∧
        holds .eqOrIn stored value = holds .isIn stored value := by
  simp only [resolve] at h
  split at h
  case h_1 | h_2 => cases h
  case h_3 single =>
    refine .inl ⟨single, h, fun hsingle => ?_, fun _ => ⟨rfl, rfl⟩⟩
    rw [Value.hasNull, List.any_cons, hsingle, Bool.true_or]
  case h_4 items hnil hsingle =>
    rcases items with _ | ⟨first, _ | ⟨second, items⟩⟩
    · exact absurd rfl hnil
    · exact absurd rfl (hsingle first)
    · exact .inr ⟨h, fun _ => ⟨rfl, rfl⟩⟩
  case h_5 hnil hnull hsingle hlist =>
    cases value with
    | list items => exact absurd rfl (hlist items)
    | null => exact absurd rfl hnull
    | _ => exact .inl ⟨_, h, Value.hasNull_of_isNull, fun _ => ⟨rfl, rfl⟩⟩

/-- Whether the stored value is null or blank is known. -/
theorem truth_of_not_needsValue (h : op.needsValue = false) :
    op.truth stored value = .ofBool (op.holds stored value) := by
  cases op with
  | isNull => exact congrArg Truth.ofBool (Bool.bne_false _)
  | isNotNull => exact congrArg Truth.ofBool (Bool.bne_true _)
  | isBlank =>
    cases stored with
    | text s => exact Truth.fails_or _
    | _ => rfl
  | isNotBlank =>
    cases stored with
    | text s => exact Truth.holds_and _
    | _ => rfl
  | _ => exact absurd h nofun

/-- What memory says of an operator that can be resolved, beside what SQL says. -/
theorem truth_decided (hop : op.isTest = true) (h : op.resolve column base value = .ok p) :
    Decided stored value.hasNull op.isNegative (op.truth stored value) (op.holds stored value) := by
  cases op with
  | eq | ne | lt | lte | gt | gte => exact decided_of_sign? rfl
  | isNull | isNotNull | isBlank | isNotBlank =>
    rw [truth_of_not_needsValue rfl]
    exact .known _
  | isIn =>
    obtain ⟨items, hitems, -⟩ := collection?_of_membership h
    rw [truth, hitems]
    exact decided_member hitems
  | notIn =>
    obtain ⟨items, hitems, -⟩ := collection?_of_membership h
    rw [truth, hitems]
    exact decided_notMember hitems
  | eqOrIn =>
    rcases eqOrIn_cases h with ⟨single, -, hnull, hsame⟩ | ⟨h, hsame⟩
    · rw [(hsame stored).1, (hsame stored).2]
      exact (Decided.compare .eq stored single).mono hnull
    · obtain ⟨items, hitems, -⟩ := collection?_of_membership h
      rw [(hsame stored).1, (hsame stored).2, truth, hitems]
      exact decided_member hitems
  | like | contains | startsWith | endsWith => exact absurd hop Bool.false_ne_true

/-- What a row and a value have to be for memory to take a test as SQL does, where it is asked that
the test holds, and where it is asked, below a negation, that it fails. -/
def sure (op : Operator) (stored value : Value) : Bool → Bool
  | true => stored.isNull || !op.isNegative || !value.hasNull
  | false => !op.needsValue || !stored.isNull && (op.isNegative || !value.hasNull)

theorem between_of_sure {b : Bool} (hop : op.isTest = true)
    (h : op.resolve column base value = .ok p) (hsure : op.sure stored value b = true) :
    (op.truth stored value).Between (!b) (!b) (op.holds stored value) := by
  cases hneeds : op.needsValue with
  | false =>
    rw [truth_of_not_needsValue hneeds]
    constructor <;> simp
  | true =>
    have hdecided : Decided stored value.hasNull op.isNegative _ _ := truth_decided hop h
    generalize op.truth stored value = t, op.holds stored value = answer at hdecided
    cases hdecided with
    | known => constructor <;> simp
    | unknown hnull =>
      have hanswer : (!stored.isNull && op.isNegative) = !b := by
        cases b <;> grind [sure]
      rw [hanswer]
      exact Truth.between_self _ .unknown

end Operator
end QueryCompiler
