import Mathlib.Logic.ExistsUnique
import QueryCompiler.Operator
import QueryCompiler.Proofs.Value.Worth

/-!
# Coherence of comparison

Equality and order of matching are written apart: the order is there for numbers, truth values and
texts only, equality for all values. Where values without floats have an order, it is that of two whole
numbers, two truth values or two texts (`Value.strictOrder?_eq_some_iff`). All laws of the order come
from there, and what the operators make of it.
-/

namespace QueryCompiler

/-- Steps that do not go down add up, and the sum goes up if one of them does. -/
theorem compare_of_isLE {α : Type} [Ord α] [Std.TransOrd α] {x y z : α}
    (hxy : (compare x y).isLE = true) (hyz : (compare y z).isLE = true) :
    compare x z = (compare x y).then (compare y z) := by
  cases hx : compare x y with
  | lt => exact Std.TransCmp.lt_of_lt_of_isLE hx hyz
  | eq => exact Std.TransCmp.congr_left hx
  | gt =>
    rw [hx] at hxy
    contradiction

namespace Value

variable {a b c : Value} {o p : Ordering}

/-- The values are of one kind that has an order, and `o` is how they compare. -/
inductive Orders (a b : Value) : Ordering → Prop where
  | whole {i j : Int} (ha : a.whole? = some i) (hb : b.whole? = some j) : Orders a b (compare i j)
  | bool {x y : Bool} (ha : a = .bool x) (hb : b = .bool y) : Orders a b (compare x y)
  | text {s t : String} (ha : a = .text s) (hb : b = .text t) : Orders a b (compare s t)

theorem Orders.strictOrder?_eq (h : Orders a b o) : a.strictOrder? b = some o := by
  cases h with
  | whole ha hb =>
    cases a <;> simp [whole?] at ha <;> cases b <;> simp [whole?] at hb <;> subst ha hb <;> rfl
  | bool ha hb =>
    subst ha hb
    rfl
  | text ha hb =>
    subst ha hb
    rfl

theorem strictOrder?_eq_some_iff (ha : a.isExact = true) (hb : b.isExact = true) :
    a.strictOrder? b = some o ↔ Orders a b o := by
  refine ⟨fun h => ?_, Orders.strictOrder?_eq⟩
  unfold strictOrder? at h
  split at h
  · rename_i x y hx hy
    rw [number?_of_isExact ha] at hx
    rw [number?_of_isExact hb] at hy
    obtain ⟨i, hi, rfl⟩ := Option.map_eq_some_iff.1 hx
    obtain ⟨j, hj, rfl⟩ := Option.map_eq_some_iff.1 hy
    cases h
    exact .whole hi hj
  · split at h
    · cases h
      exact .bool rfl rfl
    · cases h
      exact .text rfl rfl
    · cases h

/-! ## Laws of the order -/

theorem Orders.swap (h : Orders a b o) : Orders b a o.swap := by
  cases h with
  | whole ha hb =>
    rw [← Std.OrientedOrd.eq_swap]
    exact .whole hb ha
  | bool ha hb =>
    rw [← Std.OrientedOrd.eq_swap]
    exact .bool hb ha
  | text ha hb =>
    rw [← Std.OrientedOrd.eq_swap]
    exact .text hb ha

theorem strictOrder?_swap (ha : a.isExact = true) (hb : b.isExact = true) :
    b.strictOrder? a = (a.strictOrder? b).map Ordering.swap := by
  ext o
  rw [Option.map_eq_some_iff]
  constructor
  · intro h
    have h := (strictOrder?_eq_some_iff hb ha).1 h
    exact ⟨o.swap, h.swap.strictOrder?_eq, Ordering.swap_swap⟩
  · rintro ⟨p, h, rfl⟩
    exact ((strictOrder?_eq_some_iff ha hb).1 h).swap.strictOrder?_eq

/-- The value in the middle has one kind, so both steps and their sum are of that kind. -/
theorem Orders.trans (h : Orders a b o) (h' : Orders b c p) (ho : o.isLE = true) (hp : p.isLE = true) :
    Orders a c (o.then p) := by
  cases h with
  | whole ha hb =>
    cases h' with
    | whole hb' hc =>
      cases hb.symm.trans hb'
      rw [← compare_of_isLE ho hp]
      exact .whole ha hc
    | bool hb' =>
      subst hb'
      cases hb
    | text hb' =>
      subst hb'
      cases hb
  | bool ha hb =>
    subst hb
    cases h' with
    | whole hb' => cases hb'
    | bool hb' hc =>
      cases hb'
      rw [← compare_of_isLE ho hp]
      exact .bool ha hc
    | text hb' => cases hb'
  | text ha hb =>
    subst hb
    cases h' with
    | whole hb' => cases hb'
    | bool hb' => cases hb'
    | text hb' hc =>
      cases hb'
      rw [← compare_of_isLE ho hp]
      exact .text ha hc

/-- Steps that do not go up are those of the way back. -/
theorem Orders.trans_of_isGE (h : Orders a b o) (h' : Orders b c p) (ho : o.isGE = true)
    (hp : p.isGE = true) : Orders a c (o.then p) := by
  have hback : Orders c a (p.swap.then o.swap) := by
    apply h'.swap.trans h.swap
    · rwa [Ordering.isLE_swap]
    · rwa [Ordering.isLE_swap]
  have hthen : (p.swap.then o.swap).swap = o.then p := by
    cases o <;> cases p <;> first | rfl | contradiction
  rw [← hthen]
  exact hback.swap

/-- Equality and order, written apart, agree on when two values are level. -/
theorem Orders.eq_iff (h : Orders a b o) : o = .eq ↔ a.looseEq b = true := by
  cases h with
  | whole ha hb => rw [looseEq_of_whole? ha hb, Std.LawfulEqOrd.compare_eq_iff_eq]
  | bool ha hb =>
    subst ha hb
    rw [Std.LawfulEqOrd.compare_eq_iff_eq, looseEq_iff_worth _ _ rfl rfl]
    simp [worth]
  | text ha hb =>
    subst ha hb
    rw [Std.LawfulEqOrd.compare_eq_iff_eq, looseEq_iff_worth _ _ rfl rfl]
    simp [worth]

theorem Orders.isNull_eq_false (h : Orders a b o) : a.isNull = false := by
  cases h with
  | whole ha => cases a <;> first | rfl | cases ha
  | bool ha =>
    subst ha
    rfl
  | text ha =>
    subst ha
    rfl

end Value

/-! ## The operators -/

namespace Operator

open Value

variable {data test : Value} {o : Ordering}

theorem orderHolds_of_orders (h : Orders data test o) (p : Ordering → Bool) :
    orderHolds data test p = p o := by
  rw [orderHolds, h.strictOrder?_eq, Option.any_some]

theorem eq_holds_of_orders (h : Orders data test o) : eq.holds data test = (o == .eq) := by
  rw [holds, h.isNull_eq_false, Bool.not_false, Bool.true_and, Bool.eq_iff_iff, beq_iff_eq, h.eq_iff]

/-- The operator that asks for this order. -/
def ofOrdering : Ordering → Operator
  | .lt => .lt
  | .eq => .eq
  | .gt => .gt

theorem ofOrdering_mem (p : Ordering) : ofOrdering p ∈ [Operator.lt, .eq, .gt] := by
  cases p <;> decide

theorem exists_ofOrdering {op : Operator} (h : op ∈ [Operator.lt, .eq, .gt]) :
    ∃ p, ofOrdering p = op := by
  simp only [List.mem_cons, List.not_mem_nil, or_false] at h
  obtain rfl | rfl | rfl := h
  · exact ⟨.lt, rfl⟩
  · exact ⟨.eq, rfl⟩
  · exact ⟨.gt, rfl⟩

theorem ofOrdering_holds (h : Orders data test o) (p : Ordering) :
    (ofOrdering p).holds data test = (o == p) := by
  cases p with
  | lt => rw [ofOrdering, holds, orderHolds_of_orders h]
  | eq => rw [ofOrdering, eq_holds_of_orders h]
  | gt => rw [ofOrdering, holds, orderHolds_of_orders h]

/-- Of `lt`, `eq` and `gt` the one holds that asks for the order there is. -/
theorem existsUnique_holds (h : Orders data test o) :
    ∃! op, op ∈ [Operator.lt, .eq, .gt] ∧ op.holds data test = true := by
  refine ⟨ofOrdering o, ⟨ofOrdering_mem o, ?_⟩, ?_⟩
  · rw [ofOrdering_holds h, beq_self_eq_true]
  · rintro op ⟨hop, hholds⟩
    obtain ⟨p, rfl⟩ := exists_ofOrdering hop
    rw [ofOrdering_holds h, beq_iff_eq] at hholds
    rw [hholds]

theorem lte_holds_of_orders (h : Orders data test o) :
    lte.holds data test = (lt.holds data test || eq.holds data test) := by
  rw [eq_holds_of_orders h, holds, holds, orderHolds_of_orders h, orderHolds_of_orders h]
  cases o <;> rfl

theorem gte_holds_of_orders (h : Orders data test o) :
    gte.holds data test = (gt.holds data test || eq.holds data test) := by
  rw [eq_holds_of_orders h, holds, holds, orderHolds_of_orders h, orderHolds_of_orders h]
  cases o <;> rfl

end Operator

namespace Value

/-- Comparison of values without floats is coherent. Equality is an equivalence. The order turns with
its sides and adds up along steps in one direction; it is there between whole numbers, however they are
held, between truth values and between texts, and says level exactly where equality holds. So of the
operators `lt`, `eq` and `gt` one holds of comparable values, and `lte` and `gte` add `eq` to the
others. -/
theorem comparison_coherent :
    (Equivalence fun a b : Exact => a.val.looseEq b = true) ∧
    (∀ a b : Exact, b.val.strictOrder? a = (a.val.strictOrder? b).map Ordering.swap) ∧
    (∀ (a b c : Exact) (o p : Ordering), a.val.strictOrder? b = some o → b.val.strictOrder? c = some p →
      (o.isLE ∧ p.isLE) ∨ (o.isGE ∧ p.isGE) → a.val.strictOrder? c = some (o.then p)) ∧
    (∀ (a b : Value) (i j : Int), a.whole? = some i → b.whole? = some j →
      a.strictOrder? b = some (compare i j)) ∧
    (∀ x y : Bool, (bool x).strictOrder? (bool y) = some (compare x y)) ∧
    (∀ s t : String, (text s).strictOrder? (text t) = some (compare s t)) ∧
    (∀ (a b : Exact) (o : Ordering), a.val.strictOrder? b = some o → (o = .eq ↔ a.val.looseEq b = true)) ∧
    ∀ data test : Exact, (data.val.strictOrder? test).isSome →
      (∃! op, op ∈ [Operator.lt, .eq, .gt] ∧ op.holds data test = true) ∧
      Operator.lte.holds data test = (Operator.lt.holds data test || Operator.eq.holds data test) ∧
      Operator.gte.holds data test = (Operator.gt.holds data test || Operator.eq.holds data test) := by
  have horders {a b : Exact} {o : Ordering} (h : a.val.strictOrder? b = some o) : Orders a b o :=
    (strictOrder?_eq_some_iff a.property b.property).1 h
  refine ⟨looseEq_equivalence, fun a b => strictOrder?_swap a.property b.property, ?_, ?_, ?_, ?_, ?_, ?_⟩
  · rintro a b c o p hab hbc (⟨ho, hp⟩ | ⟨ho, hp⟩)
    · exact ((horders hab).trans (horders hbc) ho hp).strictOrder?_eq
    · exact ((horders hab).trans_of_isGE (horders hbc) ho hp).strictOrder?_eq
  · intro a b i j ha hb
    exact (Orders.whole ha hb).strictOrder?_eq
  · intro x y
    exact (Orders.bool rfl rfl).strictOrder?_eq
  · intro s t
    exact (Orders.text rfl rfl).strictOrder?_eq
  · intro a b o h
    exact (horders h).eq_iff
  · intro data test h
    obtain ⟨o, h⟩ := Option.isSome_iff_exists.1 h
    exact ⟨Operator.existsUnique_holds (horders h), Operator.lte_holds_of_orders (horders h),
      Operator.gte_holds_of_orders (horders h)⟩

/-- Whole numbers of both kinds, from below zero to the largest there is, and lists of them. -/
theorem comparison_of_mixed :
    (list [int 1, list [uint 2]]).looseEq (list [int 1, list [int 2]]) = true ∧
    (list [int 1, list [int 2]]).looseEq (list [int 1, list [uint 2]]) = true ∧
    (int (-1)).strictOrder? (uint 18446744073709551615) = some .lt ∧
    (uint 18446744073709551615).strictOrder? (int (-1)) = some .gt ∧
    (int 7).looseEq (uint 7) = true ∧
    (∃! op, op ∈ [Operator.lt, .eq, .gt] ∧ op.holds (int 7) (uint 7) = true) ∧
    Operator.lte.holds (int 7) (uint 7) = true ∧ Operator.gte.holds (int 7) (uint 7) = true := by
  obtain ⟨hequiv, hswap, htrans, hwhole, -, -, hlevel, hholds⟩ := comparison_coherent
  let low : Exact := ⟨int (-1), rfl⟩
  let middle : Exact := ⟨uint 9223372036854775808, rfl⟩
  let high : Exact := ⟨uint 18446744073709551615, rfl⟩
  let signed : Exact := ⟨int 7, rfl⟩
  let unsigned : Exact := ⟨uint 7, rfl⟩
  have hlist : (list [int 1, list [uint 2]]).looseEq (list [int 1, list [int 2]]) = true := by decide
  have hlow : low.val.strictOrder? middle = some .lt :=
    (hwhole low middle (-1) 9223372036854775808 (by decide) (by decide)).trans (by decide)
  have hhigh : middle.val.strictOrder? high = some .lt :=
    (hwhole middle high 9223372036854775808 18446744073709551615 (by decide) (by decide)).trans
      (by decide)
  have hends : low.val.strictOrder? high = some .lt :=
    htrans low middle high .lt .lt hlow hhigh (.inl ⟨rfl, rfl⟩)
  have hseven : signed.val.strictOrder? unsigned = some .eq :=
    hwhole signed unsigned 7 7 (by decide) (by decide)
  have heq : signed.val.looseEq unsigned = true := (hlevel signed unsigned .eq hseven).1 rfl
  obtain ⟨hone, hlte, hgte⟩ := hholds signed unsigned (by rw [hseven, Option.isSome_some])
  have heqHolds : Operator.eq.holds signed unsigned = true := by
    rw [Operator.holds, heq]
    rfl
  refine ⟨hlist, ?_, hends, ?_, heq, hone, ?_, ?_⟩
  · exact hequiv.symm (x := ⟨_, rfl⟩) (y := ⟨_, rfl⟩) hlist
  · rw [hswap low high, hends, Option.map_some, Ordering.swap_lt]
  · rw [hlte, heqHolds, Bool.or_true]
  · rw [hgte, heqHolds, Bool.or_true]

end Value
end QueryCompiler
