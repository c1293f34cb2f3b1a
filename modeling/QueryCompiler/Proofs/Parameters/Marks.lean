import QueryCompiler.Statement
import QueryCompiler.Proofs.Build.Run
import QueryCompiler.Proofs.Text.Replace
import Mathlib.Data.List.TakeWhile

/-!
# The placeholders of a text

`Marked` says which paths a text names in its placeholders, and in which order. A text is read from
the left, and a `#` at the end of one part and a brace at the beginning of the next would be read
together; so parts are put together with something between them, or in front of a part that does not
begin with a brace.
-/

namespace QueryCompiler

open Build

/-- Paths lie between the dot and the letter `z`: they hold letters, digits, dots, underscores and
brackets, but no blank, comma or brace. -/
def Params.IsPath (path : String) : Prop :=
  ∀ c ∈ path.toList, 46 ≤ c.toNat ∧ c.toNat ≤ 122

namespace Params

variable {path : String} {s t : String}

theorem isPath_of_all
    (h : path.toList.all (fun c => 46 ≤ c.toNat && c.toNat ≤ 122) = true) : IsPath path := by
  simpa [IsPath] using h

theorem IsPath.append (hs : IsPath s) (ht : IsPath t) : IsPath (s ++ t) := by
  intro c hc
  rw [String.toList_append, List.mem_append] at hc
  exact hc.elim (hs c) (ht c)

theorem isPath_repr (n : Nat) : IsPath (Nat.repr n) := by
  intro c hc
  rw [Nat.toList_repr] at hc
  have hdigit := Nat.isDigit_of_mem_toDigits (by decide) (by decide) hc
  rw [Char.isDigit, Bool.and_eq_true, decide_eq_true_eq, decide_eq_true_eq] at hdigit
  have hlow : 48 ≤ c.toNat := hdigit.1
  have hhigh : c.toNat ≤ 57 := hdigit.2
  omega

theorem IsPath.not_mem (h : IsPath path) {c : Char} (hc : c.toNat < 46 ∨ 122 < c.toNat) :
    c ∉ path.toList := by
  intro hmem
  have := h c hmem
  omega

theorem IsPath.not_blank (h : IsPath path) {c : Char} (hc : c ∈ path.toList) :
    Text.isBlank c = false := by
  have := h c hc
  rw [Text.isBlank, Text.blankRanges]
  simp only [Text.inRanges, List.any_cons, List.any_nil, Bool.or_eq_false_iff, Bool.or_false,
    Bool.and_eq_false_iff, decide_eq_false_iff_not]
  omega

end Params

namespace Piece

/-- The text names these paths in its placeholders, in this order. -/
inductive Marked : List Char → List String → Prop where
  | nil : Marked [] []
  | char {c : Char} {s : List Char} {paths : List String} : (c = '#' → s.head? ≠ some '\x7b') →
      Marked s paths → Marked (c :: s) paths
  | placeholder {path : String} {s : List Char} {paths : List String} : Params.IsPath path →
      Marked s paths →
      Marked ('#' :: '\x7b' :: (path.toList ++ '\x7d' :: s)) (path :: paths)

variable {s t : List Char} {paths more : List String} {params : Params} {style : PlaceholderStyle}

/-! ## Reading a marked text -/

theorem scan_char {c : Char} (h : c = '#' → s.head? ≠ some '\x7b') :
    scan none (c :: s) = .char c :: scan none s := by
  rw [scan]
  rintro rest rfl rfl
  exact h rfl rfl

theorem scan_placeholder {content : List Char} (h : '\x7d' ∉ content) :
    scan none ('#' :: '\x7b' :: (content ++ '\x7d' :: s)) = .placeholder content :: scan none s := by
  have hread : ∀ (content read : List Char), '\x7d' ∉ content →
      scan (some read) (content ++ '\x7d' :: s) =
        .placeholder (read.reverse ++ content) :: scan none s := by
    intro content
    induction content with
    | nil => intro read _; simp [scan]
    | cons c content ih =>
      intro read h
      rw [List.mem_cons, not_or] at h
      rw [List.cons_append, scan, if_neg (Ne.symm h.1), ih _ h.2, List.reverse_cons,
        List.append_assoc, List.singleton_append]
  exact hread content [] h

theorem path_toList {path : String} (h : Params.IsPath path) : Piece.path path.toList = path := by
  have hcomma : path.toList.takeWhile (· ≠ ',') = path.toList := by
    rw [List.takeWhile_eq_self_iff]
    intro c hc
    have hne : c ≠ ',' := fun heq => h.not_mem (c := ',') (by decide) (heq ▸ hc)
    simpa using hne
  have hkeep : ∀ cs : List Char, (∀ c ∈ cs, c ∈ path.toList) → cs.dropWhile Text.isBlank = cs := by
    intro cs hcs
    rw [List.dropWhile_eq_self_iff]
    intro hpos
    rw [h.not_blank (hcs _ (List.getElem_mem _))]
    exact Bool.false_ne_true
  rw [Piece.path, hcomma, Text.trimChars, hkeep _ fun _ hc => hc,
    hkeep _ fun _ hc => List.mem_reverse.1 hc, List.reverse_reverse, String.ofList_toList]

theorem Marked.count (h : Marked s paths) (path : String) :
    (scan none s).count (.placeholder path.toList) = paths.count path := by
  induction h with
  | nil => rfl
  | char hseam _ ih => rw [scan_char hseam, List.count_cons_of_ne (by simp), ih]
  | @placeholder path' s paths hpath _ ih =>
    rw [scan_placeholder (hpath.not_mem (by decide))]
    by_cases heq : path' = path
    · rw [heq, List.count_cons_self, List.count_cons_self, ih]
    · have hne : Piece.placeholder path'.toList ≠ .placeholder path.toList := by
        rw [ne_eq, Piece.placeholder.injEq, String.toList_inj]
        exact heq
      rw [List.count_cons_of_ne hne, List.count_cons_of_ne heq, ih]

theorem Marked.nil_paths (h : Marked [] paths) : paths = [] := by
  cases h
  rfl

theorem Marked.append (hs : Marked s paths) (ht : Marked t more) (hseam : t.head? ≠ some '\x7b') :
    Marked (s ++ t) (paths ++ more) := by
  induction hs with
  | nil => exact ht
  | @char c s paths hc hs ih =>
    refine .char (fun hhash => ?_) ih
    cases s with
    | nil => exact hseam
    | cons d s => exact hc hhash
  | placeholder hpath hs ih =>
    rw [List.cons_append, List.cons_append, List.append_assoc, List.cons_append, List.cons_append]
    exact .placeholder hpath ih

theorem Marked.plain_append {l : List Char} (hl : '#' ∉ l) (hs : Marked s paths) :
    Marked (l ++ s) paths := by
  induction l with
  | nil => exact hs
  | cons c l ih =>
    rw [List.mem_cons, not_or] at hl
    exact .char (fun h => absurd h.symm hl.1) (ih hl.2)

theorem marked_of_not_occursIn (h : Text.occursIn ['#', '\x7b'] s = false) : Marked s [] := by
  induction s with
  | nil => exact .nil
  | cons c s ih =>
    rw [Text.occursIn, Bool.or_eq_false_iff] at h
    refine .char ?_ (ih h.2)
    rintro rfl hhead
    cases s with
    | nil => simp at hhead
    | cons d s =>
      obtain rfl := Option.some.inj hhead
      exact absurd h.1 (by simp)

end Piece

/-- The text names these paths in its placeholders, in this order. -/
def Marks (s : String) (paths : List String) : Prop :=
  Piece.Marked s.toList paths

/-- A text without placeholders that keeps the texts before and behind it apart. -/
def isGap (s : String) : Bool :=
  !s.toList.contains '#' && s.toList.head?.any (· ≠ '\x7b')

namespace Marks

variable {s t u gap : String} {paths more : List String}

theorem empty : Marks "" [] :=
  .nil

theorem of_empty (h : Marks "" paths) : paths = [] :=
  Piece.Marked.nil_paths h

theorem text_append (l : String) (hl : '#' ∉ l.toList) (hs : Marks s paths) :
    Marks (l ++ s) paths := by
  rw [Marks, String.toList_append]
  exact Piece.Marked.plain_append hl hs

theorem text (l : String) (hl : '#' ∉ l.toList) : Marks l [] := by
  have h := text_append l hl empty
  rwa [String.append_empty] at h

theorem append (hs : Marks s paths) (ht : Marks t more) (hseam : t.toList.head? ≠ some '\x7b') :
    Marks (s ++ t) (paths ++ more) := by
  rw [Marks, String.toList_append]
  exact Piece.Marked.append hs ht hseam

theorem gap_iff : isGap gap = true ↔
    '#' ∉ gap.toList ∧ ∃ c ∈ gap.toList.head?, c ≠ '\x7b' := by
  simp [isGap, Option.any_eq_true]

theorem gap_head (hgap : isGap gap = true) (s : String) :
    (gap ++ s).toList.head? ≠ some '\x7b' := by
  obtain ⟨-, c, hc, hne⟩ := gap_iff.1 hgap
  rw [String.toList_append, List.head?_append, Option.mem_def.1 hc]
  simpa using hne

theorem between (hs : Marks s paths) (gap : String) (hgap : isGap gap = true) (ht : Marks t more) :
    Marks (s ++ gap ++ t) (paths ++ more) := by
  rw [String.append_assoc]
  exact hs.append (text_append gap (gap_iff.1 hgap).1 ht) (gap_head hgap t)

theorem between_append (hs : Marks s paths) (gap : String) (hgap : isGap gap = true)
    (htu : Marks (t ++ u) more) : Marks (s ++ gap ++ t ++ u) (paths ++ more) := by
  have h := hs.between gap hgap htu
  rwa [← String.append_assoc] at h

theorem append_gap (hs : Marks s paths) (gap : String) (hgap : isGap gap = true) :
    Marks (s ++ gap) paths := by
  have h := hs.between gap hgap empty
  rwa [String.append_empty, List.append_nil] at h

theorem placeholder_append {path : String} (hpath : Params.IsPath path) (hs : Marks s paths) :
    Marks (Params.placeholder path ++ s) (path :: paths) := by
  have htoList : (Params.placeholder path ++ s).toList =
      '#' :: '\x7b' :: (path.toList ++ '\x7d' :: s.toList) := by simp [Params.placeholder]
  rw [Marks, htoList]
  exact .placeholder hpath hs

theorem placeholder {path : String} (hpath : Params.IsPath path) :
    Marks (Params.placeholder path) [path] := by
  have h := placeholder_append hpath empty
  rwa [String.append_empty] at h

theorem intercalate (gap : String) (hgap : isGap gap = true) {ss : List String}
    {pathss : List (List String)} (h : List.Forall₂ Marks ss pathss) :
    Marks (gap.intercalate ss) pathss.flatten := by
  induction h with
  | nil => exact empty
  | @cons s paths ss pathss hs hss ih =>
    cases hss with
    | nil => simpa using hs
    | @cons s' paths' ss pathss hs' hss =>
      have h := hs.between gap hgap ih
      have hsplit : gap.intercalate (s :: s' :: ss) = s ++ gap ++ gap.intercalate (s' :: ss) := by
        rw [← String.toList_inj]
        simp [String.toList_intercalate]
      rw [hsplit]
      exact h

end Marks
end QueryCompiler
