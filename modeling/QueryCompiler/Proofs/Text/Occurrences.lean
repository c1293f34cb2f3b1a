import QueryCompiler.Proofs.Text.Replace

/-!
# Where an occurrence begins

What stands next to a text may complete an occurrence that begins in it, or one that ends in it. If
neither is possible, replacing leaves the text as it is wherever it stands, and finds nothing over
its seams.
-/

namespace QueryCompiler.Text

/-- One of the texts begins with the other. -/
def agree (s t : List Char) : Bool :=
  s.isPrefixOf t || t.isPrefixOf s

/-- An occurrence of `pat` begins in the text, if what stands behind goes on with it. -/
def beginsIn (pat : List Char) : List Char → Bool
  | [] => false
  | c :: s => agree pat (c :: s) || beginsIn pat s

/-- No occurrence of `pat` begins in `s` or ends in it, whatever stands around. -/
def clears (s pat : List Char) : Bool :=
  !beginsIn pat s && !beginsIn s pat

variable {pat rep s t : List Char}

theorem occursIn_iff : occursIn pat s = true ↔ pat <:+: s := by
  induction s with
  | nil => rw [occursIn, List.isEmpty_iff, List.infix_nil]
  | cons c s ih =>
    rw [occursIn, Bool.or_eq_true, ih, List.isPrefixOf_iff_prefix, List.infix_cons_iff]

theorem agree_iff : agree s t = true ↔ s <+: t ∨ t <+: s := by
  simp [agree]

theorem beginsIn_iff : beginsIn pat s = true ↔ ∃ u, u ≠ [] ∧ u <:+ s ∧ agree pat u = true := by
  induction s with
  | nil => simp [beginsIn]
  | cons c s ih =>
    rw [beginsIn, Bool.or_eq_true, ih]
    constructor
    · rintro (h | ⟨u, hne, hu, h⟩)
      · exact ⟨c :: s, List.cons_ne_nil c s, List.suffix_rfl, h⟩
      · exact ⟨u, hne, hu.trans (List.suffix_cons c s), h⟩
    · rintro ⟨u, hne, hu, h⟩
      rcases List.suffix_cons_iff.1 hu with rfl | hu
      · exact .inl h
      · exact .inr ⟨u, hne, hu, h⟩

theorem clears_iff : clears s pat = true ↔ beginsIn pat s = false ∧ beginsIn s pat = false := by
  simp [clears]

theorem clears_self_ne_true (h : s ≠ []) : clears s s ≠ true := by
  intro hclear
  have hself : beginsIn s s = true :=
    beginsIn_iff.2 ⟨s, h, List.suffix_rfl, agree_iff.2 (.inl List.prefix_rfl)⟩
  rw [(clears_iff.1 hclear).1] at hself
  exact Bool.noConfusion hself

/-- No occurrence begins in the text if its first character is not there. -/
theorem beginsIn_of_notMem {x : Char} {p : List Char} (hx : x ∉ s) :
    beginsIn (x :: p) s = false := by
  rw [Bool.eq_false_iff, Ne, beginsIn_iff]
  rintro ⟨u, hne, hu, h⟩
  obtain ⟨y, u, rfl⟩ := List.exists_cons_of_ne_nil hne
  have hxy : x = y := by
    rcases agree_iff.1 h with h | h
    · exact (List.cons_prefix_cons.1 h).1
    · exact (List.cons_prefix_cons.1 h).1.symm
  exact hx (hu.subset (hxy ▸ List.mem_cons_self))

/-- What begins in a text, begins there with all that it begins with. -/
theorem beginsIn_mono (hp : t <+: pat) (h : beginsIn t s = false) :
    beginsIn pat s = false := by
  rw [Bool.eq_false_iff, Ne, beginsIn_iff] at h ⊢
  rintro ⟨u, hne, hu, hagree⟩
  refine h ⟨u, hne, hu, agree_iff.2 ?_⟩
  rcases agree_iff.1 hagree with hagree | hagree
  · exact .inl (hp.trans hagree)
  · exact List.prefix_or_prefix_of_prefix hp hagree

theorem beginsIn_cons {c : Char} (h : beginsIn pat (c :: s) = false) :
    agree pat (c :: s) = false ∧ beginsIn pat s = false :=
  Bool.or_eq_false_iff.1 h

theorem replaceAll_append_of_not_beginsIn (h : beginsIn pat s = false) (t : List Char) :
    replaceAll pat rep (s ++ t) = s ++ replaceAll pat rep t := by
  induction s with
  | nil => rfl
  | cons c s ih =>
    obtain ⟨hagree, hs⟩ := beginsIn_cons h
    have hnot : ¬ pat <+: c :: (s ++ t) := by
      intro hpre
      rw [Bool.eq_false_iff, Ne, agree_iff] at hagree
      exact hagree (List.prefix_or_prefix_of_prefix hpre (List.prefix_append (c :: s) t))
    rw [List.cons_append, replaceAll_cons_of_not hnot, ih hs, List.cons_append]

/-- An occurrence that begins before a text in which none ends, ends before that text. -/
theorem prefix_of_prefix_append (h : beginsIn s pat = false) {l r : List Char}
    (hpre : pat <+: l ++ (s ++ r)) : pat <+: l := by
  rcases List.prefix_or_prefix_of_prefix hpre (List.prefix_append l (s ++ r)) with hl | ⟨w, rfl⟩
  · exact hl
  · rcases List.eq_nil_or_concat w with rfl | ⟨w', x, hw⟩
    · rw [List.append_nil]
    · have hrest : w <+: s ++ r := (List.prefix_append_right_inj l).1 hpre
      have hagree : agree s w = true := agree_iff.2
        (List.prefix_or_prefix_of_prefix (List.prefix_append s r) hrest)
      have hbegins : beginsIn s (l ++ w) = true := beginsIn_iff.2
        ⟨w, by rw [hw]; simp, List.suffix_append l w, hagree⟩
      rw [h] at hbegins
      exact absurd hbegins Bool.noConfusion

end QueryCompiler.Text
