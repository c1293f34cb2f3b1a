import QueryCompiler.Text.Replace
import Mathlib.Data.List.Infix

/-!
# Replacing in a text that is put together

`replaceAll` works from the left, so what it does to a text put together from parts is not what it
does to the parts one by one: an occurrence may reach over a seam. `replaceAll_append_sep` says that
no occurrence reaches over a character that the pattern lacks, and `replaceAll_append_of_notMem` that
none begins in a part without the pattern's first character.
-/

namespace QueryCompiler.Text

variable {pat rep : List Char}

/-! ## One character at a time -/

theorem replaceFrom_append (s t : List Char) :
    replaceFrom pat rep s.length (s ++ t) = replaceFrom pat rep 0 t := by
  induction s with
  | nil => rfl
  | cons c s ih => exact ih

theorem replaceAll_cons_of_not {c : Char} {s : List Char} (h : ¬ pat <+: c :: s) :
    replaceAll pat rep (c :: s) = c :: replaceAll pat rep s := by
  have hp : pat.isPrefixOf (c :: s) = false := by
    rw [Bool.eq_false_iff]
    exact fun hp => h (List.isPrefixOf_iff_prefix.1 hp)
  simp [replaceAll, replaceFrom, hp]

theorem replaceAll_pat_append (hp : pat ≠ []) (t : List Char) :
    replaceAll pat rep (pat ++ t) = rep ++ replaceAll pat rep t := by
  obtain ⟨x, p, rfl⟩ := List.exists_cons_of_ne_nil hp
  have hpre : (x :: p).isPrefixOf (x :: (p ++ t)) = true := by
    rw [List.isPrefixOf_iff_prefix]
    exact List.prefix_append (x :: p) t
  rw [List.cons_append, replaceAll, replaceFrom, if_pos hpre, List.length_cons,
    Nat.add_sub_cancel, replaceFrom_append]
  rfl

/-- What a text becomes begins as the text does, or as what is put in. -/
theorem head?_replaceAll (hpat : pat ≠ []) (hrep : rep ≠ []) (s : List Char) :
    (replaceAll pat rep s).head? = s.head? ∨ (replaceAll pat rep s).head? = rep.head? := by
  cases s with
  | nil => exact .inl rfl
  | cons c s =>
    by_cases hpre : pat <+: c :: s
    · obtain ⟨t, ht⟩ := hpre
      obtain ⟨d, r, rfl⟩ := List.exists_cons_of_ne_nil hrep
      exact .inr (by rw [← ht, replaceAll_pat_append hpat]; rfl)
    · exact .inl (by rw [replaceAll_cons_of_not hpre]; rfl)

/-! ## Seams that no occurrence crosses -/

/-- No occurrence begins before the pattern's first character is met. -/
theorem replaceAll_append_of_notMem {x : Char} {p : List Char} (rep : List Char) {a : List Char}
    (hx : x ∉ a) (b : List Char) : replaceAll (x :: p) rep (a ++ b) = a ++ replaceAll (x :: p) rep b := by
  induction a with
  | nil => rfl
  | cons c a ih =>
    rw [List.mem_cons, not_or] at hx
    have hc : ¬ x :: p <+: c :: (a ++ b) := fun h => hx.1 (List.cons_prefix_cons.1 h).1
    rw [List.cons_append, replaceAll_cons_of_not hc, ih hx.2, List.cons_append]

/-- A prefix that lacks the character at a seam ends before the seam. -/
theorem prefix_append_sep {x : Char} {a b : List Char} (hx : x ∉ pat) :
    pat <+: a ++ x :: b ↔ pat <+: a := by
  refine ⟨fun h => ?_, fun h => h.trans (List.prefix_append a _)⟩
  by_cases hlen : pat.length ≤ a.length
  · exact List.prefix_of_prefix_length_le h (List.prefix_append a _) hlen
  · have hmem : a ++ [x] <+: pat := by
      have happ : a ++ [x] <+: a ++ x :: b := ⟨b, by simp⟩
      refine List.prefix_of_prefix_length_le happ h ?_
      simp; omega
    exact absurd (hmem.subset (by simp)) hx

/-- No occurrence reaches over a character that the pattern lacks. -/
theorem replaceAll_append_sep {x : Char} (hp : pat ≠ []) (hx : x ∉ pat) (rep a b : List Char) :
    replaceAll pat rep (a ++ x :: b) = replaceAll pat rep a ++ x :: replaceAll pat rep b := by
  induction hn : a.length using Nat.strong_induction_on generalizing a with
  | _ n ih =>
    subst hn
    cases a with
    | nil =>
      refine replaceAll_cons_of_not fun h => hx ?_
      obtain ⟨y, p, rfl⟩ := List.exists_cons_of_ne_nil hp
      rw [(List.cons_prefix_cons.1 h).1]
      exact List.mem_cons_self
    | cons c a =>
      by_cases hpre : pat <+: c :: a
      · obtain ⟨a', ha'⟩ := hpre
        have hlt : a'.length < (c :: a).length := by
          rw [← ha', List.length_append]
          have := List.length_pos_of_ne_nil hp
          omega
        rw [← ha', List.append_assoc, replaceAll_pat_append hp, replaceAll_pat_append hp,
          ih _ hlt a' rfl, List.append_assoc]
      · have hpre' : ¬ pat <+: c :: (a ++ x :: b) := by
          rw [← List.cons_append, prefix_append_sep hx]; exact hpre
        rw [List.cons_append, replaceAll_cons_of_not hpre', replaceAll_cons_of_not hpre,
          ih a.length (by simp) a rfl, List.cons_append]

theorem replaceAll_append_of_head {a b : List Char} (hp : pat ≠ []) (hb : ∀ x ∈ b.head?, x ∉ pat) :
    replaceAll pat rep (a ++ b) = replaceAll pat rep a ++ replaceAll pat rep b := by
  cases b with
  | nil => simp
  | cons x b =>
    have hx : x ∉ pat := hb x rfl
    have h := replaceAll_append_sep hp hx rep [] b
    rw [replaceAll_append_sep hp hx, ← List.nil_append (x :: b), h, replaceAll_nil,
      List.nil_append]

theorem replaceAll_append_of_last {a b : List Char} (hp : pat ≠ [])
    (ha : ∀ x ∈ a.getLast?, x ∉ pat) :
    replaceAll pat rep (a ++ b) = replaceAll pat rep a ++ replaceAll pat rep b := by
  rcases List.eq_nil_or_concat a with rfl | ⟨a, x, rfl⟩
  · simp
  · have hx : x ∉ pat := ha x (by simp)
    have h := replaceAll_append_sep hp hx rep a []
    rw [List.concat_eq_append, List.append_assoc, List.singleton_append,
      replaceAll_append_sep hp hx, h, replaceAll_nil, List.append_assoc, List.singleton_append]

/-! ## Texts without an occurrence -/

theorem replaceAll_of_not_occursIn {s : List Char} (h : occursIn pat s = false) :
    replaceAll pat rep s = s := by
  induction s with
  | nil => rfl
  | cons c s ih =>
    rw [occursIn, Bool.or_eq_false_iff] at h
    have hpre : ¬ pat <+: c :: s := by
      rw [← List.isPrefixOf_iff_prefix, h.1]; exact Bool.false_ne_true
    rw [replaceAll_cons_of_not hpre, ih h.2]

end QueryCompiler.Text
