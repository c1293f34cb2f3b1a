import QueryCompiler.Proofs.Boolean.Bracketing
import Mathlib.Data.List.Infix

/-!
# Balanced brackets

A text is balanced if no beginning of it closes more brackets than it opens, and the whole closes as
many. `partner?` reads on from a bracket to the one that closes it, and a text is enclosed if the
bracket at its beginning is closed at its end. `bracket` looks at the two ends of a text and for a
second bracket that opens. In a balanced text this tells whether it is enclosed, for where one bracket
opens one closes (`Balanced.enclosed_of_isBracketed`). So whatever fragments are put together, they
come out as nothing, as one of them, or enclosed.
-/

namespace QueryCompiler.Text

/-! ## Counting brackets -/

/-- No beginning of a text closes more brackets than it opens, and the whole closes as many. -/
structure Balanced (s : List Char) : Prop where
  beginnings : ∀ t, t <+: s → t.count ')' ≤ t.count '('
  total : s.count ')' = s.count '('

instance (s : List Char) : Decidable (Balanced s) :=
  decidable_of_iff ((∀ t ∈ s.inits, t.count ')' ≤ t.count '(') ∧ s.count ')' = s.count '(')
    ⟨fun ⟨h, h'⟩ => ⟨fun t ht => h t ((List.mem_inits t s).2 ht), h'⟩,
      fun h => ⟨fun t ht => h.beginnings t ((List.mem_inits t s).1 ht), h.total⟩⟩

/-- A text closes `n` brackets that were opened before it and all that it opens, and no beginning of
it closes more. -/
structure Closes (n : Nat) (s : List Char) : Prop where
  beginnings : ∀ t, t <+: s → t.count ')' ≤ t.count '(' + n
  total : s.count ')' = s.count '(' + n

variable {m n : Nat} {s t : List Char} {c : Char}

theorem closes_zero : Closes 0 s ↔ Balanced s :=
  ⟨fun h => ⟨h.beginnings, h.total⟩, fun h => ⟨h.beginnings, h.total⟩⟩

@[simp] theorem closes_nil : Closes n [] ↔ n = 0 := by
  constructor
  · intro h
    simpa using h.total.symm
  · rintro rfl
    exact ⟨by simp, by simp⟩

/-- A character is read by counting it among the brackets that are open. -/
theorem closes_cons (h : n + [c].count '(' = m + [c].count ')') :
    Closes n (c :: s) ↔ Closes m s := by
  have hcount (t : List Char) : (c :: t).count '(' = [c].count '(' + t.count '(' ∧
      (c :: t).count ')' = [c].count ')' + t.count ')' := by
    rw [← List.singleton_append, List.count_append, List.count_append]
    exact ⟨rfl, rfl⟩
  constructor
  · intro hs
    refine ⟨fun t ht => ?_, ?_⟩
    · have := hs.beginnings (c :: t) (List.cons_prefix_cons.2 ⟨rfl, ht⟩)
      have := hcount t
      omega
    · have := hs.total
      have := hcount s
      omega
  · intro hs
    refine ⟨fun t ht => ?_, ?_⟩
    · rcases List.prefix_cons_iff.1 ht with rfl | ⟨u, rfl, hu⟩
      · simp
      · have := hs.beginnings u hu
        have := hcount u
        omega
    · have := hs.total
      have := hcount s
      omega

@[simp] theorem closes_opening : Closes n ('(' :: s) ↔ Closes (n + 1) s :=
  closes_cons (by simp)

@[simp] theorem closes_closing : Closes (n + 1) (')' :: s) ↔ Closes n s :=
  closes_cons (by simp)

@[simp] theorem not_closes_closing : ¬ Closes 0 (')' :: s) := by
  intro h
  have := h.beginnings [')'] (by simp)
  simp at this

theorem closes_other (hopen : c ≠ '(') (hclose : c ≠ ')') : Closes n (c :: s) ↔ Closes n s :=
  closes_cons (by simp [hopen, hclose])

theorem Closes.append (hs : Closes m s) (ht : Closes n t) : Closes (m + n) (s ++ t) := by
  induction s generalizing m with
  | nil =>
    rw [closes_nil.1 hs, Nat.zero_add]
    exact ht
  | cons c s ih =>
    rw [List.cons_append]
    by_cases hopen : c = '('
    · subst hopen
      rw [closes_opening, Nat.add_right_comm]
      exact ih (closes_opening.1 hs)
    · by_cases hclose : c = ')'
      · subst hclose
        cases m with
        | zero => exact absurd hs not_closes_closing
        | succ m =>
          rw [Nat.add_right_comm, closes_closing]
          exact ih (closes_closing.1 hs)
      · rw [closes_other hopen hclose]
        exact ih ((closes_other hopen hclose).1 hs)

/-! ## Balanced texts -/

theorem balanced_of_notMem (hopen : '(' ∉ s) (hclose : ')' ∉ s) : Balanced s where
  beginnings t ht := by
    rw [List.count_eq_zero_of_not_mem fun h => hclose (ht.subset h)]
    exact Nat.zero_le _
  total := by
    rw [List.count_eq_zero_of_not_mem hopen, List.count_eq_zero_of_not_mem hclose]

namespace Balanced

theorem append (hs : Balanced s) (ht : Balanced t) : Balanced (s ++ t) :=
  closes_zero.1 ((closes_zero.2 hs).append (closes_zero.2 ht))

theorem enclose (hs : Balanced s) : Balanced ('(' :: (s ++ [')'])) := by
  have hclosing : Closes (0 + 1) [')'] := closes_closing.2 (closes_nil.2 rfl)
  exact closes_zero.1 (closes_opening.2 ((closes_zero.2 hs).append hclosing))

theorem mem_opening (hs : Balanced s) (h : ')' ∈ s) : '(' ∈ s := by
  have := List.count_pos_iff.2 h
  rw [hs.total] at this
  exact List.count_pos_iff.1 this

/-- Words between balanced texts leave them balanced. -/
theorem intercalate {sep : String} (hsep : Balanced sep.toList) {ps : List String}
    (h : ∀ p ∈ ps, Balanced p.toList) : Balanced (sep.intercalate ps).toList := by
  induction ps with
  | nil => exact balanced_of_notMem (by simp) (by simp)
  | cons p ps ih =>
    have hp := h p List.mem_cons_self
    cases ps with
    | nil => simpa using hp
    | cons q qs =>
      rw [String.intercalate_cons_of_ne_nil (List.cons_ne_nil q qs), String.toList_append,
        String.toList_append]
      exact (hp.append hsep).append (ih fun p hp => h p (List.mem_cons_of_mem _ hp))

end Balanced

theorem balanced_separator (k : Connective) : Balanced (" " ++ k.word ++ " ").toList := by
  cases k <;> decide +kernel

/-! ## Which bracket closes which -/

/-- Where a text closes a bracket that was opened before it, with `n` brackets left open above that
one. -/
def closer? : Nat → List Char → Option Nat
  | _, [] => none
  | n, c :: s =>
    if c = '(' then (closer? (n + 1) s).map (· + 1)
    else if c = ')' then
      match n with
      | 0 => some 0
      | n + 1 => (closer? n s).map (· + 1)
    else (closer? n s).map (· + 1)

/-- The place of the bracket that closes the one at the beginning of a text. -/
def partner? : List Char → Option Nat
  | '(' :: s => (closer? 0 s).map (· + 1)
  | _ => none

/-- The bracket at the beginning of a text is closed at its end. -/
def Enclosed (s : List Char) : Prop :=
  partner? s = some (s.length - 1)

instance (s : List Char) : Decidable (Enclosed s) :=
  inferInstanceAs (Decidable (_ = _))

/-- What stands before the closing bracket closes the `n` above it, and no more. -/
theorem closer?_eq_some_iff {j : Nat} :
    closer? n s = some j ↔ s[j]? = some ')' ∧ Closes n (s.take j) := by
  -- The brackets above change from character to character, so the claim is about any number of them.
  induction s generalizing n j with
  | nil => simp [closer?]
  | cons c s ih =>
    by_cases hopen : c = '('
    · subst hopen
      cases j <;> simp [closer?, ih]
    · by_cases hclose : c = ')'
      · subst hclose
        cases n <;> cases j <;> simp [closer?, ih]
      · cases j <;> simp [closer?, ih, hopen, hclose, closes_other]

/-- A text is enclosed if a balanced text stands between two brackets, and only then. -/
theorem enclosed_iff : Enclosed s ↔ ∃ inner, s = '(' :: (inner ++ [')']) ∧ Balanced inner := by
  constructor
  · intro h
    unfold Enclosed partner? at h
    split at h
    case h_2 => exact absurd h nofun
    case h_1 s =>
      obtain ⟨j, hj, hlength⟩ := Option.map_eq_some_iff.1 h
      obtain ⟨hlast, hinner⟩ := closer?_eq_some_iff.1 hj
      obtain ⟨hlt, hlast⟩ := List.getElem?_eq_some_iff.1 hlast
      have hj : j + 1 = s.length := by
        rw [List.length_cons, Nat.add_sub_cancel] at hlength
        exact hlength
      refine ⟨s.take j, ?_, closes_zero.1 hinner⟩
      rw [← hlast, List.take_concat_get', hj, List.take_length]
  · rintro ⟨inner, rfl, hinner⟩
    have hcloser : closer? 0 (inner ++ [')']) = some inner.length :=
      closer?_eq_some_iff.2 ⟨by simp, by simpa using closes_zero.2 hinner⟩
    rw [Enclosed, partner?, hcloser]
    simp

theorem Enclosed.balanced (h : Enclosed s) : Balanced s := by
  obtain ⟨inner, rfl, hinner⟩ := enclosed_iff.1 h
  exact hinner.enclose

/-- In a balanced text one bracket that opens leaves one that closes, so none stands between those at
the two ends. -/
theorem Balanced.enclosed_of_isBracketed (hs : Balanced s) (h : isBracketed s = true) :
    Enclosed s := by
  rw [isBracketed, Bool.and_eq_true, Bool.and_eq_true, beq_iff_eq, beq_iff_eq] at h
  obtain ⟨⟨hhead, hlast⟩, hsecond⟩ := h
  obtain ⟨t, rfl⟩ := List.head?_eq_some_iff.1 hhead
  obtain ⟨u, hu⟩ := List.getLast?_eq_some_iff.1 hlast
  cases u with
  | nil => simp at hu
  | cons c inner =>
    obtain ⟨rfl, rfl⟩ := List.cons.inj hu
    have hopen : '(' ∉ inner := by
      intro hmem
      simp [hmem] at hsecond
    have hclose : ')' ∉ inner := by
      have htotal := hs.total
      rw [← List.count_eq_zero]
      simpa [List.count_eq_zero_of_not_mem hopen] using htotal
    exact enclosed_iff.2 ⟨inner, rfl, balanced_of_notMem hopen hclose⟩

/-! ## Fragments -/

/-- The fragments that are not empty. -/
def present (parts : List String) : List String :=
  parts.filter fun p => !p.isEmpty

theorem mem_present {parts : List String} {p : String} :
    p ∈ present parts ↔ p ∈ parts ∧ p ≠ "" := by
  simp [present]

theorem present_eq_nil_iff {parts : List String} : present parts = [] ↔ ∀ p ∈ parts, p = "" := by
  simp [present, List.filter_eq_nil_iff]

theorem enclosed_between {s : String} (hs : Balanced s.toList) :
    Enclosed ("(" ++ s ++ ")").toList :=
  enclosed_iff.2 ⟨s.toList, by simp, hs⟩

/-- What is left as it stands is enclosed already. -/
theorem bracket_cases {s : String} (hne : s ≠ "") (hs : Balanced s.toList) :
    bracket s = "(" ++ s ++ ")" ∨ bracket s = s ∧ Enclosed s.toList := by
  cases h : isBracketed s.toList with
  | true => exact .inr ⟨by simp [bracket, h], hs.enclosed_of_isBracketed h⟩
  | false =>
    left
    apply String.toList_injective
    simpa using toList_bracket hne h

theorem enclosed_bracket {s : String} (hne : s ≠ "") (hs : Balanced s.toList) :
    Enclosed (bracket s).toList := by
  rcases bracket_cases hne hs with h | ⟨h, henclosed⟩
  · exact h ▸ enclosed_between hs
  · exact h.symm ▸ henclosed

theorem joinFragments_of_present {k : Connective} {parts : List String} {p : String}
    (h : present parts = [p]) : joinFragments k parts = p := by
  rw [present] at h
  rw [joinFragments, h]

/-- Balanced fragments are not taken for one in brackets: the last one opens a bracket if it ends in
one. -/
theorem joinFragments_eq_between (k : Connective) {parts : List String}
    (h : ∀ p ∈ parts, Balanced p.toList) (htwo : 2 ≤ (present parts).length) :
    joinFragments k parts = "(" ++ (" " ++ k.word ++ " ").intercalate (present parts) ++ ")" := by
  have hmem : ∀ r ∈ present parts, Balanced r.toList ∧ r ≠ "" := fun r hr =>
    ⟨h r (mem_present.1 hr).1, (mem_present.1 hr).2⟩
  obtain ⟨p, q, ps, hpresent⟩ : ∃ p q ps, present parts = p :: q :: ps := by
    rcases hpresent : present parts with _ | ⟨p, _ | ⟨q, ps⟩⟩
    · simp [hpresent] at htwo
    · simp [hpresent] at htwo
    · exact ⟨p, q, ps, rfl⟩
  rw [hpresent] at hmem ⊢
  have hrest : Balanced ((" " ++ k.word ++ " ").intercalate (q :: ps)).toList :=
    (balanced_separator k).intercalate fun r hr => (hmem r (List.mem_cons_of_mem _ hr)).1
  have hne : ((" " ++ k.word ++ " ").intercalate (q :: ps)).toList ≠ [] := by
    have hq := (hmem q (by simp)).2
    cases ps with
    | nil => simpa using hq
    | cons r rs => simp [String.intercalate_cons_of_ne_nil]
  have htext := toList_bracket_intercalate k (s := p) hne
    fun hlast => hrest.mem_opening (List.mem_of_getLast? hlast)
  rw [present] at hpresent
  rw [joinFragments, hpresent]
  apply String.toList_injective
  simpa using htext

theorem enclosed_joinFragments (k : Connective) {parts : List String}
    (h : ∀ p ∈ parts, Balanced p.toList) (htwo : 2 ≤ (present parts).length) :
    Enclosed (joinFragments k parts).toList := by
  rw [joinFragments_eq_between k h htwo]
  exact enclosed_between
    ((balanced_separator k).intercalate fun p hp => h p (mem_present.1 hp).1)

theorem joinFragments_eq_empty_iff (k : Connective) {parts : List String}
    (h : ∀ p ∈ parts, Balanced p.toList) :
    joinFragments k parts = "" ↔ ∀ p ∈ parts, p = "" := by
  rw [← present_eq_nil_iff]
  rcases hpresent : present parts with _ | ⟨p, _ | ⟨q, ps⟩⟩
  · rw [present] at hpresent
    simp [joinFragments, hpresent]
  · have hne : p ≠ "" := (mem_present.1 (hpresent ▸ List.mem_singleton_self p)).2
    simp [joinFragments_of_present hpresent, hne]
  · rw [joinFragments_eq_between k h (by simp [hpresent])]
    simp

/-- Balanced fragments are joined to nothing if all are empty, to the one that is not, or to an
enclosed text of those that are not with the connective between them. A balanced text is put between
brackets unless it is enclosed as it stands. -/
theorem fragments_enclosed (k : Connective) {parts : List String}
    (h : ∀ p ∈ parts, Balanced p.toList) :
    (joinFragments k parts = "" ↔ ∀ p ∈ parts, p = "") ∧
    (∀ p, present parts = [p] → joinFragments k parts = p) ∧
    (2 ≤ (present parts).length →
      joinFragments k parts = "(" ++ (" " ++ k.word ++ " ").intercalate (present parts) ++ ")" ∧
      Balanced (joinFragments k parts).toList ∧ Enclosed (joinFragments k parts).toList) ∧
    ∀ s, s ≠ "" → Balanced s.toList → Enclosed (bracket s).toList ∧
      (bracket s = "(" ++ s ++ ")" ∨ bracket s = s ∧ Enclosed s.toList) := by
  refine ⟨joinFragments_eq_empty_iff k h, fun _ => joinFragments_of_present, fun htwo => ?_,
    fun s hne hs => ⟨enclosed_bracket hne hs, bracket_cases hne hs⟩⟩
  have henclosed := enclosed_joinFragments k h htwo
  exact ⟨joinFragments_eq_between k h htwo, henclosed.balanced, henclosed⟩

/-- A disjunction without brackets around it. -/
def eitherBranch : String := "(a = 1) OR (b = 2)"

/-- It begins and ends with a bracket, but these are not partners. So it is put between brackets, by
itself as well as beside another fragment. -/
theorem eitherBranch_enclosed :
    ¬ Enclosed eitherBranch.toList ∧
    bracket eitherBranch = "((a = 1) OR (b = 2))" ∧
    Enclosed (joinFragments .and [eitherBranch, "", "(c = 3)"]).toList ∧
    joinFragments .and [eitherBranch, "", "(c = 3)"] = "((a = 1) OR (b = 2) AND (c = 3))" ∧
    joinFragments .or ["", eitherBranch] = eitherBranch ∧ joinFragments .or ["", ""] = "" := by
  have hboth : ∀ p ∈ [eitherBranch, "", "(c = 3)"], Balanced p.toList := by decide +kernel
  have hsingle : ∀ p ∈ ["", eitherBranch], Balanced p.toList := by decide +kernel
  have hempty : ∀ p ∈ ["", ""], Balanced p.toList := by decide +kernel
  have hnot : ¬ Enclosed eitherBranch.toList := by decide +kernel
  obtain ⟨-, -, hjoined, hbracket⟩ := fragments_enclosed .and hboth
  obtain ⟨htext, -, henclosed⟩ := hjoined (by decide +kernel)
  have hwrapped := (hbracket eitherBranch (by decide) (hboth _ (by simp))).2
  refine ⟨hnot, ?_, henclosed, htext.trans (by decide +kernel),
    (fragments_enclosed .or hsingle).2.1 _ (by decide +kernel),
    (fragments_enclosed .or hempty).1.2 (by decide +kernel)⟩
  exact (hwrapped.resolve_right fun h => hnot h.2).trans (by decide +kernel)

end QueryCompiler.Text
