import QueryCompiler.Keyed
import Mathlib.Data.List.Basic
import Mathlib.Data.List.Sort

/-!
# The elements of keyed lists

What `insert` and the functions over it leave in a list, whatever the order.
-/

namespace QueryCompiler.Keyed

variable {α : Type}

theorem mem_insert {k : String} {v : α} {x : String × α} {l : List (String × α)}
    (h : x ∈ insert k v l) : x = (k, v) ∨ x ∈ l := by
  induction l with
  | nil => exact .inl (List.mem_singleton.1 h)
  | cons e l ih =>
    obtain ⟨k₂, v₂⟩ := e
    rw [insert] at h
    split at h
    · exact List.mem_cons.1 h
    · split at h
      · exact (List.mem_cons.1 h).imp_right (List.mem_cons_of_mem _)
      · rcases List.mem_cons.1 h with h | h
        · exact .inr (h ▸ List.mem_cons_self)
        · exact (ih h).imp_right (List.mem_cons_of_mem _)

theorem mem_of_get? {k : String} {v : α} {l : List (String × α)} (h : get? k l = some v) :
    (k, v) ∈ l := by
  induction l with
  | nil => exact absurd h nofun
  | cons e l ih =>
    obtain ⟨k₂, v₂⟩ := e
    rw [get?] at h
    split at h
    case isTrue hk =>
      rw [hk, ← Option.some.inj h]
      exact List.mem_cons_self
    · exact List.mem_cons_of_mem _ (ih h)

/-- Among distinct keys, a pair of the list is what its key is looked up to. -/
theorem get?_of_mem {k : String} {v : α} {l : List (String × α)} (hnodup : (l.map (·.1)).Nodup)
    (h : (k, v) ∈ l) : get? k l = some v := by
  induction l with
  | nil => exact absurd h List.not_mem_nil
  | cons e l ih =>
    obtain ⟨k₂, v₂⟩ := e
    rw [List.map_cons, List.nodup_cons] at hnodup
    rw [get?]
    rcases List.mem_cons.1 h with heq | hmem
    · obtain ⟨rfl, rfl⟩ := Prod.mk.inj heq
      rw [if_pos rfl]
    · have hne : k ≠ k₂ := by
        rintro rfl
        exact hnodup.1 (List.mem_map.2 ⟨(k, v), hmem, rfl⟩)
      rw [if_neg hne, ih hnodup.2 hmem]

/-- A new key takes the place of none. -/
theorem insert_perm {k : String} {v : α} {l : List (String × α)} (h : k ∉ l.map (·.1)) :
    (insert k v l).Perm ((k, v) :: l) := by
  induction l with
  | nil => exact .refl _
  | cons e l ih =>
    obtain ⟨k₂, v₂⟩ := e
    rw [List.map_cons, List.mem_cons, not_or] at h
    rw [insert]
    split
    · exact .refl _
    · rw [if_neg h.1]
      exact ((ih h.2).cons _).trans (.swap _ _ _)

theorem mem_of_mem_ofList {e : String × α} {pairs : List (String × α)} (h : e ∈ ofList pairs) :
    e ∈ pairs := by
  have hfold : ∀ (pairs acc : List (String × α)),
      e ∈ pairs.foldl (fun acc p => insert p.1 p.2 acc) acc → e ∈ acc ∨ e ∈ pairs := by
    intro pairs
    induction pairs with
    | nil => exact fun acc h => .inl h
    | cons q pairs ih =>
      intro acc h
      rcases ih _ h with h | h
      · rcases mem_insert h with h | h
        · exact .inr (List.mem_cons.2 (.inl h))
        · exact .inl h
      · exact .inr (List.mem_cons_of_mem _ h)
  exact (hfold pairs [] h).resolve_left List.not_mem_nil

theorem mem_of_mem_setOf {k : String} {keys : List String} (h : k ∈ setOf keys) : k ∈ keys := by
  obtain ⟨e, he, rfl⟩ := List.mem_map.1 h
  obtain ⟨k, hk, rfl⟩ := List.mem_map.1 (mem_of_mem_ofList he)
  exact hk

theorem mem_keys_insert {k k' : String} {v : α} {l : List (String × α)} :
    k' ∈ (insert k v l).map (·.1) ↔ k' = k ∨ k' ∈ l.map (·.1) := by
  induction l with
  | nil => simp [insert]
  | cons e l ih =>
    obtain ⟨k₂, v₂⟩ := e
    rw [insert]
    split
    · simp
    · split
      case isTrue heq => simp [heq]
      case isFalse =>
        rw [List.map_cons, List.mem_cons, ih, List.map_cons, List.mem_cons]
        exact or_left_comm

theorem mem_setOf {k : String} {keys : List String} : k ∈ setOf keys ↔ k ∈ keys := by
  have hfold : ∀ (keys : List String) (acc : List (String × Unit)),
      k ∈ ((keys.map fun k => (k, ())).foldl (fun acc p => insert p.1 p.2 acc) acc).map (·.1) ↔
        k ∈ acc.map (·.1) ∨ k ∈ keys := by
    intro keys
    induction keys with
    | nil => simp
    | cons k' keys ih =>
      intro acc
      rw [List.map_cons, List.foldl_cons, ih, mem_keys_insert, List.mem_cons, or_assoc]
      exact or_left_comm
  rw [setOf, ofList, hfold]
  simp

theorem pairwise_keys_insert {k : String} {v : α} {l : List (String × α)}
    (h : (l.map (·.1)).Pairwise (· < ·)) : ((insert k v l).map (·.1)).Pairwise (· < ·) := by
  induction l with
  | nil => exact List.pairwise_singleton _ k
  | cons e l ih =>
    obtain ⟨k₂, v₂⟩ := e
    rw [List.map_cons, List.pairwise_cons] at h
    obtain ⟨hfirst, hrest⟩ := h
    rw [insert]
    split
    case isTrue hlt =>
      refine List.pairwise_cons.2 ⟨fun k' hk' => ?_, List.pairwise_cons.2 ⟨hfirst, hrest⟩⟩
      rcases List.mem_cons.1 hk' with rfl | hk'
      · exact hlt
      · exact String.lt_trans hlt (hfirst k' hk')
    case isFalse hle =>
      split
      case isTrue heq => exact List.pairwise_cons.2 ⟨heq ▸ hfirst, hrest⟩
      case isFalse hne =>
        refine List.pairwise_cons.2 ⟨fun k' hk' => ?_, ih hrest⟩
        rcases mem_keys_insert.1 hk' with rfl | hk'
        · exact Std.lt_of_le_of_ne hle (Ne.symm hne)
        · exact hfirst k' hk'

theorem pairwise_setOf (keys : List String) : (setOf keys).Pairwise (· < ·) := by
  have hfold : ∀ (pairs acc : List (String × Unit)), (acc.map (·.1)).Pairwise (· < ·) →
      ((pairs.foldl (fun acc p => insert p.1 p.2 acc) acc).map (·.1)).Pairwise (· < ·) := by
    intro pairs
    induction pairs with
    | nil => exact fun _ hacc => hacc
    | cons p pairs ih => exact fun acc hacc => ih _ (pairwise_keys_insert hacc)
  exact hfold _ [] .nil

/-- What is kept of the distinct texts of a list are the distinct texts of what is kept of it. -/
theorem filter_setOf {keep : String → Bool} {keys kept : List String}
    (h : ∀ k, k ∈ kept ↔ k ∈ keys ∧ keep k = true) : (setOf keys).filter keep = setOf kept := by
  refine List.Pairwise.eq_of_mem_iff ((pairwise_setOf keys).filter keep) (pairwise_setOf kept)
    fun k => ?_
  rw [List.mem_filter, mem_setOf, mem_setOf, h]

/-- Lists with the same texts have the same distinct texts. -/
theorem setOf_congr {keys keys' : List String} (h : ∀ k, k ∈ keys ↔ k ∈ keys') :
    setOf keys = setOf keys' :=
  List.Pairwise.eq_of_mem_iff (pairwise_setOf keys) (pairwise_setOf keys') fun k => by
    rw [mem_setOf, mem_setOf, h]

/-! ## Sorting -/

variable {key : α → String}

theorem insertBy_perm (key : α → String) (a : α) (as : List α) :
    (insertBy key a as).Perm (a :: as) := by
  induction as with
  | nil => exact .refl _
  | cons b as ih =>
    rw [insertBy]
    split
    · exact (ih.cons b).trans (.swap a b as)
    · exact .refl _

theorem sortBy_perm (key : α → String) (as : List α) : (sortBy key as).Perm as := by
  induction as with
  | nil => exact .refl _
  | cons a as ih => exact (insertBy_perm key a (sortBy key as)).trans (ih.cons a)

/-- An element is put in front of those of its key, and behind others only. -/
theorem filter_insertBy (k : String) (a : α) (as : List α) :
    (insertBy key a as).filter (key · == k) = (a :: as).filter (key · == k) := by
  induction as with
  | nil => rfl
  | cons b as ih =>
    rw [insertBy]
    split
    case isFalse => rfl
    case isTrue hlt =>
      rw [List.filter_cons, ih, List.filter_cons, List.filter_cons, List.filter_cons]
      by_cases hb : key b = k
      · have ha : key a ≠ k := fun ha => String.lt_irrefl k (by rwa [hb, ha] at hlt)
        simp [hb, ha]
      · simp [hb]

/-- Sorting is stable. -/
theorem filter_sortBy (k : String) (as : List α) :
    (sortBy key as).filter (key · == k) = as.filter (key · == k) := by
  induction as with
  | nil => rfl
  | cons a as ih =>
    show (insertBy key a (sortBy key as)).filter _ = _
    rw [filter_insertBy, List.filter_cons, ih, List.filter_cons]

/-- The elements stand in the order of their keys. -/
def Ascending (key : α → String) (as : List α) : Prop :=
  as.Pairwise fun a b => key a ≤ key b

theorem ascending_insertBy {a : α} {as : List α} (h : Ascending key as) :
    Ascending key (insertBy key a as) := by
  induction as with
  | nil => exact List.pairwise_singleton _ a
  | cons b as ih =>
    obtain ⟨hfirst, hrest⟩ := List.pairwise_cons.1 h
    rw [insertBy]
    split
    case isTrue hlt =>
      refine List.pairwise_cons.2 ⟨fun c hc => ?_, ih hrest⟩
      rcases List.mem_cons.1 ((insertBy_perm key a as).mem_iff.1 hc) with rfl | hc
      · exact String.not_lt.1 (String.lt_asymm hlt)
      · exact hfirst c hc
    case isFalse hle =>
      have hle : key a ≤ key b := String.not_lt.1 hle
      refine List.pairwise_cons.2 ⟨fun c hc => ?_, h⟩
      rcases List.mem_cons.1 hc with rfl | hc
      · exact hle
      · exact String.le_trans hle (hfirst c hc)

theorem ascending_sortBy (as : List α) : Ascending key (sortBy key as) := by
  induction as with
  | nil => exact .nil
  | cons a as ih => exact ascending_insertBy ih

theorem Ascending.head_le {a c : α} {as : List α} (h : Ascending key (a :: as)) (hc : c ∈ a :: as) :
    key a ≤ key c := by
  rcases List.mem_cons.1 hc with rfl | hc
  · exact String.le_refl _
  · exact (List.pairwise_cons.1 h).1 c hc

/-- In the order of their keys, the elements are determined by those of each key. -/
theorem Ascending.eq_of_filter : ∀ {as bs : List α}, Ascending key as → Ascending key bs →
    (∀ k, as.filter (key · == k) = bs.filter (key · == k)) → as = bs
  | [], [], _, _, _ => rfl
  | [], b :: bs, _, _, h => by simpa using h (key b)
  | a :: as, [], _, _, h => by simpa using h (key a)
  | a :: as, b :: bs, has, hbs, h => by
    have hmem (c : α) : c ∈ a :: as ↔ c ∈ b :: bs := by
      have hc := congrArg (c ∈ ·) (h (key c))
      simpa only [List.mem_filter, beq_self_eq_true, and_true, eq_iff_iff] using hc
    have hkey : key a = key b := String.le_antisymm
      (has.head_le ((hmem b).2 List.mem_cons_self)) (hbs.head_le ((hmem a).1 List.mem_cons_self))
    obtain rfl : a = b := by
      have hheads := congrArg List.head? (h (key a))
      rw [List.filter_cons, List.filter_cons, hkey] at hheads
      simpa using hheads
    have hrest : as = bs := by
      refine eq_of_filter (List.pairwise_cons.1 has).2 (List.pairwise_cons.1 hbs).2 fun k => ?_
      have hk := h k
      rw [List.filter_cons, List.filter_cons] at hk
      split at hk
      · exact (List.cons.inj hk).2
      · exact hk
    rw [hrest]

/-- Lists with the same elements of each key, in the same order, are sorted to one list. -/
theorem sortBy_congr {as bs : List α}
    (h : ∀ k, as.filter (key · == k) = bs.filter (key · == k)) : sortBy key as = sortBy key bs :=
  (ascending_sortBy as).eq_of_filter (ascending_sortBy bs) fun k => by
    rw [filter_sortBy, filter_sortBy, h]

end QueryCompiler.Keyed
