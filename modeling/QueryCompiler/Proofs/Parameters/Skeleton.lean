import QueryCompiler.Proofs.Parameters.Texts

/-!
# Texts apart from their paths

The skeleton of a text is what it says apart from the paths in its placeholders. A text is lowered
to its skeleton with marks, and to the values of its paths, so texts of one skeleton and of the same
values are lowered alike. Texts of one skeleton stay so in each way in which texts are put together.
-/

namespace QueryCompiler

open Params (IsPath)

/-! ## Skeletons -/

namespace Piece

/-- The character that stands in the text; a placeholder is none. -/
def char? : Piece → Option Char
  | .char c => some c
  | .placeholder _ | .unterminated _ => none

/-- The text with a hole for each placeholder. -/
def skeleton (s : List Char) : List (Option Char) :=
  (scan none s).map char?

/-- A skeleton with marks in its holes, of which `n` stand in front. -/
def marked (style : PlaceholderStyle) : Nat → List (Option Char) → List Char
  | _, [] => []
  | n, some c :: k => c :: marked style n k
  | n, none :: k => style.mark (n + 1) ++ marked style (n + 1) k

variable {s t : List Char} {paths more : List String} {params : Params} {values : List Value}

theorem skeleton_char {c : Char} (h : c = '#' → s.head? ≠ some '\x7b') :
    skeleton (c :: s) = some c :: skeleton s := by
  rw [skeleton, scan_char h]
  rfl

theorem skeleton_placeholder {content : List Char} (h : '\x7d' ∉ content) :
    skeleton ('#' :: '\x7b' :: (content ++ '\x7d' :: s)) = none :: skeleton s := by
  rw [skeleton, scan_placeholder h]
  rfl

theorem skeleton_plain_append {l : List Char} (hl : '#' ∉ l) (s : List Char) :
    skeleton (l ++ s) = l.map some ++ skeleton s := by
  induction l with
  | nil => rfl
  | cons c l ih =>
    rw [List.mem_cons, not_or] at hl
    rw [List.cons_append, skeleton_char fun hc => absurd hc.symm hl.1, ih hl.2]
    rfl

theorem Marked.skeleton_append (hs : Marked s paths) (ht : t.head? ≠ some '\x7b') :
    skeleton (s ++ t) = skeleton s ++ skeleton t := by
  induction hs with
  | nil => rfl
  | @char c s paths hc hs ih =>
    have hseam : c = '#' → (s ++ t).head? ≠ some '\x7b' := by
      intro hhash
      cases s with
      | nil => exact ht
      | cons d s => exact hc hhash
    rw [List.cons_append, skeleton_char hseam, skeleton_char hc, ih, List.cons_append]
  | @placeholder path s paths hpath hs ih =>
    have hclose := hpath.not_mem (c := '\x7d') (by decide)
    rw [List.cons_append, List.cons_append, List.append_assoc, List.cons_append,
      skeleton_placeholder hclose, skeleton_placeholder hclose, ih, List.cons_append]

theorem Marked.skeleton_eq_nil_iff (hs : Marked s paths) : skeleton s = [] ↔ s = [] := by
  cases hs with
  | nil => exact ⟨fun _ => rfl, fun _ => rfl⟩
  | char hc hs => simp [skeleton_char hc]
  | placeholder hpath hs => simp [skeleton_placeholder (hpath.not_mem (c := '\x7d') (by decide))]

/-- A marked text is lowered to its skeleton with marks. -/
theorem Marked.lower_eq (hs : Marked s paths) {style : PlaceholderStyle}
    (hvalues : List.Forall₂ (fun path v => params.get? path = some v) paths values) (n : Nat) :
    lower style params n (scan none s) = .ok (marked style n (skeleton s), values) := by
  induction hs generalizing n values with
  | nil =>
    cases hvalues
    rfl
  | @char c s paths hc hs ih =>
    rw [scan_char hc, skeleton_char hc, lower, ih hvalues]
    rfl
  | @placeholder path s paths hpath hs ih =>
    have hclose := hpath.not_mem (c := '\x7d') (by decide)
    cases hvalues with
    | @cons _ v _ values hv hvalues =>
      rw [scan_placeholder hclose, skeleton_placeholder hclose, lower, path_toList hpath, hv]
      simp only
      rw [ih hvalues]
      rfl

/-! ## Brackets in a skeleton -/

/-- A bracket, which stands in no path and in no frame of a placeholder. -/
theorem not_mem_path {c : Char} (hc : c = '(' ∨ c = ')') {path : String} (h : IsPath path) :
    c ∉ path.toList := by
  rcases hc with rfl | rfl <;> exact h.not_mem (by decide)

theorem Marked.mem_skeleton_iff (hs : Marked s paths) : some '(' ∈ skeleton s ↔ '(' ∈ s := by
  induction hs with
  | nil => simp [skeleton, scan]
  | char hc hs ih => simp [skeleton_char hc, ih]
  | placeholder hpath hs ih =>
    simp [skeleton_placeholder (hpath.not_mem (c := '\x7d') (by decide)), ih,
      not_mem_path (.inl rfl) hpath]

theorem Marked.head_skeleton_iff (hs : Marked s paths) :
    (skeleton s).head? = some (some '(') ↔ s.head? = some '(' := by
  cases hs with
  | nil => simp [skeleton, scan]
  | char hc hs => simp [skeleton_char hc]
  | placeholder hpath hs => simp [skeleton_placeholder (hpath.not_mem (c := '\x7d') (by decide))]

theorem Marked.last_skeleton_iff (hs : Marked s paths) :
    (skeleton s).getLast? = some (some ')') ↔ s.getLast? = some ')' := by
  -- what stands in front of a text is last only if the text is empty
  have hfront : ∀ {s : List Char} {paths : List String} (o : Option Char) (c : Char),
      (o = some ')' ↔ c = ')') → Marked s paths →
      ((skeleton s).getLast? = some (some ')') ↔ s.getLast? = some ')') →
      ((o :: skeleton s).getLast? = some (some ')') ↔ (c :: s).getLast? = some ')') := by
    intro s paths o c hoc hs ih
    cases s with
    | nil => simpa [skeleton, scan] using hoc
    | cons d s =>
      obtain ⟨o', k, hk⟩ := List.exists_cons_of_ne_nil
        (mt hs.skeleton_eq_nil_iff.1 (List.cons_ne_nil d s))
      rw [hk] at ih ⊢
      rwa [List.getLast?_cons_cons, List.getLast?_cons_cons]
  induction hs with
  | nil => simp [skeleton, scan]
  | @char c s paths hc hs ih =>
    rw [skeleton_char hc]
    exact hfront (some c) c (by simp) hs ih
  | @placeholder path s paths hpath hs ih =>
    have hlast : ('#' :: '\x7b' :: (path.toList ++ '\x7d' :: s)).getLast? =
        ('\x7d' :: s).getLast? :=
      List.getLast?_append_of_ne_nil ('#' :: '\x7b' :: path.toList) (List.cons_ne_nil _ s)
    rw [skeleton_placeholder (hpath.not_mem (by decide)), hlast]
    exact hfront none '\x7d' (by simp) hs ih

theorem Marked.tail_skeleton_iff (hs : Marked s paths) :
    some '(' ∈ (skeleton s).tail ↔ '(' ∈ s.tail := by
  cases hs with
  | nil => simp [skeleton, scan]
  | char hc hs => simp [skeleton_char hc, hs.mem_skeleton_iff]
  | placeholder hpath hs =>
    simp [skeleton_placeholder (hpath.not_mem (c := '\x7d') (by decide)), hs.mem_skeleton_iff,
      not_mem_path (.inl rfl) hpath]

theorem Marked.isBracketed_eq (hs : Marked s paths) (ht : Marked t more)
    (h : skeleton s = skeleton t) : Text.isBracketed s = Text.isBracketed t := by
  have hhead : s.head? = some '(' ↔ t.head? = some '(' := by
    rw [← hs.head_skeleton_iff, h, ht.head_skeleton_iff]
  have hlast : s.getLast? = some ')' ↔ t.getLast? = some ')' := by
    rw [← hs.last_skeleton_iff, h, ht.last_skeleton_iff]
  have htail : '(' ∈ s.tail ↔ '(' ∈ t.tail := by
    rw [← hs.tail_skeleton_iff, h, ht.tail_skeleton_iff]
  rw [Bool.eq_iff_iff]
  simp [Text.isBracketed, hhead, hlast, htail]

end Piece

/-! ## Texts that are alike -/

/-- The texts name paths of their own in the same places, and are the same between them. -/
structure Text.Alike (s t : String) : Prop where
  left : ∃ paths, Marks s paths
  right : ∃ paths, Marks t paths
  skeleton : Piece.skeleton s.toList = Piece.skeleton t.toList

namespace Text.Alike

variable {s t u v : String}

theorem refl {paths : List String} (h : Marks s paths) : Alike s s :=
  ⟨⟨paths, h⟩, ⟨paths, h⟩, rfl⟩

theorem eq_empty_iff (h : Alike s t) : s = "" ↔ t = "" := by
  obtain ⟨⟨_, hs⟩, ⟨_, ht⟩, hskeleton⟩ := h
  have hnil (s : String) : s = "" ↔ s.toList = [] := by simp
  rw [hnil, hnil, ← Piece.Marked.skeleton_eq_nil_iff hs, hskeleton,
    Piece.Marked.skeleton_eq_nil_iff ht]

theorem append (h : Alike s t) (h' : Alike u v) (hu : u.toList.head? ≠ some '\x7b')
    (hv : v.toList.head? ≠ some '\x7b') : Alike (s ++ u) (t ++ v) := by
  obtain ⟨⟨_, hs⟩, ⟨_, ht⟩, hskeleton⟩ := h
  obtain ⟨⟨_, hsu⟩, ⟨_, htv⟩, hskeleton'⟩ := h'
  refine ⟨⟨_, hs.append hsu hu⟩, ⟨_, ht.append htv hv⟩, ?_⟩
  rw [String.toList_append, String.toList_append, Piece.Marked.skeleton_append hs hu,
    Piece.Marked.skeleton_append ht hv, hskeleton, hskeleton']

theorem text_append (l : String) (hl : '#' ∉ l.toList) (h : Alike s t) :
    Alike (l ++ s) (l ++ t) := by
  obtain ⟨⟨_, hs⟩, ⟨_, ht⟩, hskeleton⟩ := h
  refine ⟨⟨_, hs.text_append l hl⟩, ⟨_, ht.text_append l hl⟩, ?_⟩
  rw [String.toList_append, String.toList_append, Piece.skeleton_plain_append hl,
    Piece.skeleton_plain_append hl, hskeleton]

theorem between (h : Alike s t) (gap : String) (hgap : isGap gap = true) (h' : Alike u v) :
    Alike (s ++ gap ++ u) (t ++ gap ++ v) := by
  rw [String.append_assoc, String.append_assoc]
  exact h.append (h'.text_append gap (Marks.gap_iff.1 hgap).1) (Marks.gap_head hgap u)
    (Marks.gap_head hgap v)

theorem append_gap (h : Alike s t) (gap : String) (hgap : isGap gap = true) :
    Alike (s ++ gap) (t ++ gap) := by
  have hall := h.between gap hgap (refl Marks.empty)
  rwa [String.append_empty, String.append_empty] at hall

theorem placeholder_append {path path' : String} (hpath : IsPath path) (hpath' : IsPath path')
    (h : Alike s t) : Alike (Params.placeholder path ++ s) (Params.placeholder path' ++ t) := by
  obtain ⟨⟨_, hs⟩, ⟨_, ht⟩, hskeleton⟩ := h
  refine ⟨⟨_, .placeholder_append hpath hs⟩, ⟨_, .placeholder_append hpath' ht⟩, ?_⟩
  have htoList (path s : String) : (Params.placeholder path ++ s).toList =
      '#' :: '\x7b' :: (path.toList ++ '\x7d' :: s.toList) := by simp [Params.placeholder]
  rw [htoList, htoList, Piece.skeleton_placeholder (hpath.not_mem (by decide)),
    Piece.skeleton_placeholder (hpath'.not_mem (by decide)), hskeleton]

theorem placeholder {path path' : String} (hpath : IsPath path) (hpath' : IsPath path') :
    Alike (Params.placeholder path) (Params.placeholder path') := by
  have h := placeholder_append hpath hpath' (refl Marks.empty)
  rwa [String.append_empty, String.append_empty] at h

theorem bracket (h : Alike s t) : Alike (Text.bracket s) (Text.bracket t) := by
  by_cases hempty : s = ""
  · rw [hempty, h.eq_empty_iff.1 hempty]
    exact refl Marks.empty
  · have hempty' := mt h.eq_empty_iff.2 hempty
    obtain ⟨⟨_, hs⟩, ⟨_, ht⟩, hskeleton⟩ := id h
    have hbracket {s : String} (hs : s ≠ "") : Text.bracket s =
        if isBracketed s.toList then s else "(" ++ s ++ ")" := by
      rw [Text.bracket, if_neg (by simpa using hs)]
    rw [hbracket hempty, hbracket hempty', Piece.Marked.isBracketed_eq hs ht hskeleton]
    split
    · exact h
    · exact (h.text_append "(" (by decide)).append_gap ")" (by decide)

theorem intercalate (gap : String) (hgap : isGap gap = true) {ss ts : List String}
    (h : List.Forall₂ Alike ss ts) : Alike (gap.intercalate ss) (gap.intercalate ts) := by
  have hsplit (s s' : String) (ss : List String) :
      gap.intercalate (s :: s' :: ss) = s ++ gap ++ gap.intercalate (s' :: ss) := by
    rw [← String.toList_inj]
    simp [String.toList_intercalate]
  induction h with
  | nil => exact refl Marks.empty
  | @cons s t ss ts hst hall ih =>
    cases hall with
    | nil => simpa using hst
    | cons =>
      rw [hsplit, hsplit]
      exact hst.between gap hgap ih

theorem filter {ss ts : List String} (h : List.Forall₂ Alike ss ts) :
    List.Forall₂ Alike (ss.filter fun s => !s.isEmpty) (ts.filter fun s => !s.isEmpty) := by
  induction h with
  | nil => exact .nil
  | @cons s t ss ts hst _ ih =>
    have hkeep : (!s.isEmpty) = !t.isEmpty := by
      rw [Bool.eq_iff_iff]
      simpa using not_congr hst.eq_empty_iff
    rw [List.filter_cons, List.filter_cons, hkeep]
    split
    · exact .cons hst ih
    · exact ih

theorem joinFragments (k : Connective) {ss ts : List String} (h : List.Forall₂ Alike ss ts) :
    Alike (Text.joinFragments k ss) (Text.joinFragments k ts) := by
  have hkept := filter h
  rw [Text.joinFragments, Text.joinFragments]
  generalize ss.filter (fun s => !s.isEmpty) = ss at hkept
  generalize ts.filter (fun s => !s.isEmpty) = ts at hkept
  cases hkept with
  | nil => exact refl Marks.empty
  | cons hst hall =>
    cases hall with
    | nil => exact hst
    | cons hst' hall =>
      exact (intercalate _ (by cases k <;> decide) (.cons hst (.cons hst' hall))).bracket

theorem negateText (h : Alike s t) : Alike (Predicate.negateText s) (Predicate.negateText t) := by
  by_cases hempty : s = ""
  · rw [hempty, h.eq_empty_iff.1 hempty]
    exact refl Marks.empty
  · have hempty' := mt h.eq_empty_iff.2 hempty
    rw [Predicate.negateText, Predicate.negateText, if_neg (by simpa using hempty),
      if_neg (by simpa using hempty')]
    exact (h.text_append "NOT " (by decide)).bracket

end Text.Alike

/-- Marked texts of one skeleton, with the same values at their paths, are lowered alike. -/
theorem lower_alike {s t : String} {paths paths' : List String} {params params' : Params}
    {values : List Value} (hs : Marks s paths) (ht : Marks t paths')
    (hskeleton : Piece.skeleton s.toList = Piece.skeleton t.toList)
    (hvalues : List.Forall₂ (fun path v => params.get? path = some v) paths values)
    (hvalues' : List.Forall₂ (fun path v => params'.get? path = some v) paths' values)
    (style : PlaceholderStyle) : ∃ positional, lower style s params = .ok positional ∧
      lower style t params' = .ok positional := by
  refine ⟨⟨.ofList (Piece.marked style 0 (Piece.skeleton s.toList)), values⟩, ?_, ?_⟩
  · rw [lower, Piece.Marked.lower_eq hs hvalues]
    rfl
  · rw [lower, Piece.Marked.lower_eq ht hvalues', hskeleton]
    rfl

end QueryCompiler
