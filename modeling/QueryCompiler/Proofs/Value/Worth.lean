import QueryCompiler.Value.Order

/-!
# What values are worth

Matching takes two values as equal if they are worth the same: a whole number is worth its number
however it is held, a list is worth what its items are, and any other value stands for itself. Floats are
left out, for a whole number beside one is rounded. So on values without floats equality of matching is
the kernel of a function (`Value.looseEq_iff_worth`), and with that an equivalence.
-/

namespace QueryCompiler.Value

/-- What a value is worth. -/
inductive Worth where
  | whole (i : Int)
  | list (items : List Worth)
  | other (v : Value)

mutual

/-- What the value is worth. -/
def worth : Value → Worth
  | .int i => .whole i.toInt
  | .uint u => .whole u.toNat
  | .list items => .list (worths items)
  | v => .other v

/-- What the items of a list are worth. -/
def worths : List Value → List Worth
  | [] => []
  | v :: vs => v.worth :: worths vs

end

mutual

/-- No float stands in the value, at whatever depth. -/
def isExact : Value → Bool
  | .float _ => false
  | .list items => areExact items
  | .record fields => areExactFields fields
  | .null | .bool _ | .int _ | .uint _ | .text _ => true

/-- `isExact` of all items of a list. -/
def areExact : List Value → Bool
  | [] => true
  | v :: vs => v.isExact && areExact vs

/-- `isExact` of all fields of a record. -/
def areExactFields : List (String × Value) → Bool
  | [] => true
  | (_, v) :: fields => v.isExact && areExactFields fields

end

/-- The number that a value holds, if it is a whole one. -/
def whole? : Value → Option Int
  | .int i => some i.toInt
  | .uint u => some u.toNat
  | _ => none

theorem number?_of_isExact {v : Value} (h : v.isExact = true) :
    v.number? = v.whole?.map .whole := by
  cases v with
  | float x => exact absurd h Bool.false_ne_true
  | _ => rfl

theorem worth_of_whole? {v : Value} {i : Int} (h : v.whole? = some i) : v.worth = .whole i := by
  cases v <;> simp [whole?] at h <;> simp [worth, h]

/-! ## Structural equality -/

mutual

theorem same_iff : ∀ a b : Value, a.isExact = true → (a.same b = true ↔ a = b)
  | .null, b, _ => by cases b <;> simp [same]
  | .bool p, b, _ => by cases b <;> simp [same]
  | .int i, b, _ => by cases b <;> simp [same]
  | .uint u, b, _ => by cases b <;> simp [same]
  | .float x, _, h => absurd h Bool.false_ne_true
  | .text s, b, _ => by cases b <;> simp [same]
  | .list as, b, h => by
    cases b with
    | list bs => rw [same, sameItems_iff as bs h, list.injEq]
    | _ => simp [same]
  | .record as, b, h => by
    cases b with
    | record bs => rw [same, sameFields_iff as bs h, record.injEq]
    | _ => simp [same]

theorem sameItems_iff : ∀ as bs : List Value, areExact as = true → (sameItems as bs = true ↔ as = bs)
  | [], bs, _ => by cases bs <;> simp [sameItems]
  | a :: as, bs, h => by
    obtain ⟨ha, has⟩ := Bool.and_eq_true_iff.1 h
    cases bs with
    | nil => simp [sameItems]
    | cons b bs =>
      rw [sameItems, Bool.and_eq_true_iff, same_iff a b ha, sameItems_iff as bs has, List.cons.injEq]

theorem sameFields_iff : ∀ as bs : List (String × Value), areExactFields as = true →
    (sameFields as bs = true ↔ as = bs)
  | [], bs, _ => by cases bs <;> simp [sameFields]
  | (k, a) :: as, bs, h => by
    obtain ⟨ha, has⟩ := Bool.and_eq_true_iff.1 h
    cases bs with
    | nil => simp [sameFields]
    | cons field bs =>
      obtain ⟨k', b⟩ := field
      rw [sameFields, Bool.and_eq_true_iff, Bool.and_eq_true_iff, same_iff a b ha,
        sameFields_iff as bs has, beq_iff_eq, List.cons.injEq, Prod.mk.injEq]

end

/-! ## Equality of matching -/

variable {a b : Value}

/-- Two whole numbers are equal by their number. -/
theorem looseEq_of_whole? {i j : Int} (ha : a.whole? = some i) (hb : b.whole? = some j) :
    a.looseEq b = true ↔ i = j := by
  have hlooseEq : a.looseEq b = (some (compare i j) == some Ordering.eq) := by
    cases a <;> simp [whole?] at ha <;> cases b <;> simp [whole?] at hb <;> subst ha hb <;> rfl
  simp [hlooseEq]

/-- Values that are not both numbers and not both lists are equal if they are the same. -/
theorem looseEq_of_other (hlists : ∀ as bs, a = .list as → b = .list bs → False)
    (hnumbers : ∀ x y, a.number? = some x → b.number? = some y → False) :
    a.looseEq b = a.same b := by
  cases a <;> cases b <;> first
    | rfl
    | exact (hlists _ _ rfl rfl).elim
    | exact (hnumbers _ _ rfl rfl).elim

theorem eq_of_worth_eq (hlists : ∀ as bs, a = .list as → b = .list bs → False)
    (hnumbers : ∀ x y, a.number? = some x → b.number? = some y → False)
    (h : a.worth = b.worth) : a = b := by
  cases a <;> cases b <;> first
    | exact (hlists _ _ rfl rfl).elim
    | exact (hnumbers _ _ rfl rfl).elim
    | exact Worth.other.inj h
    | exact Worth.noConfusion h

/-- Values without floats are equal in matching exactly if they are worth the same. The induction is on
how matching compares them. -/
theorem looseEq_iff_worth (a b : Value) :
    a.isExact = true → b.isExact = true → (a.looseEq b = true ↔ a.worth = b.worth) := by
  induction a, b using looseEq.induct (motive_2 := fun as bs => areExact as = true →
    areExact bs = true → (looseEqItems as bs = true ↔ worths as = worths bs)) with
  | case1 as bs ih =>
    intro has hbs
    rw [looseEq, worth, worth, Worth.list.injEq]
    exact ih has hbs
  | case2 a b hlists x y hy hx =>
    intro ha hb
    rw [number?_of_isExact ha] at hx
    rw [number?_of_isExact hb] at hy
    obtain ⟨i, hi, rfl⟩ := Option.map_eq_some_iff.1 hx
    obtain ⟨j, hj, rfl⟩ := Option.map_eq_some_iff.1 hy
    rw [looseEq_of_whole? hi hj, worth_of_whole? hi, worth_of_whole? hj, Worth.whole.injEq]
  | case3 a b hlists hnumbers =>
    intro ha _
    rw [looseEq_of_other hlists hnumbers, same_iff a b ha]
    constructor
    · rintro rfl
      rfl
    · exact eq_of_worth_eq hlists hnumbers
  | case4 => simp [looseEqItems]
  | case5 a as b bs iha ihas ha hb =>
    obtain ⟨ha, has⟩ := Bool.and_eq_true_iff.1 ha
    obtain ⟨hb, hbs⟩ := Bool.and_eq_true_iff.1 hb
    rw [looseEqItems, Bool.and_eq_true_iff, iha ha hb, ihas has hbs, worths, worths, List.cons.injEq]
  | case6 as bs hnil hcons _ _ =>
    cases as with
    | nil =>
      cases bs with
      | nil => exact (hnil rfl rfl).elim
      | cons b bs => simp [looseEqItems, worths]
    | cons a as =>
      cases bs with
      | nil => simp [looseEqItems, worths]
      | cons b bs => exact (hcons _ _ _ _ rfl rfl).elim

/-- A value without floats. -/
abbrev Exact : Type :=
  { v : Value // v.isExact = true }

theorem looseEq_equivalence : Equivalence fun a b : Exact => a.val.looseEq b.val = true := by
  have hworth (a b : Exact) : a.val.looseEq b.val = true ↔ a.val.worth = b.val.worth :=
    looseEq_iff_worth a b a.property b.property
  constructor
  · intro a
    rw [hworth]
  · intro a b h
    rw [hworth] at h ⊢
    exact h.symm
  · intro a b c h h'
    rw [hworth] at h h' ⊢
    exact h.trans h'

end QueryCompiler.Value
