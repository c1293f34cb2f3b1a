import QueryCompiler.Proofs.Parameters.Paths
import Mathlib.Data.List.Infix

/-!
# Placeholders by position

A text is cut into literals, in which no placeholder opens, and the contents of placeholders, in
which none closes. There is at most one such cut, and a text has one unless its last placeholder
does not end. Lowering succeeds exactly on cut texts whose placeholders name bound paths; it keeps
the literals and writes marks for the placeholders. As marks do not begin with a brace, no
placeholder opens in what was lowered.
-/

namespace QueryCompiler

/-- A placeholder opens somewhere in the text. -/
def Piece.Opens (s : List Char) : Prop :=
  ['#', '\x7b'] <:+: s

/-- A text in parts: literals, and between them the contents of placeholders. -/
inductive Cut where
  | last (literal : List Char)
  | slot (literal content : List Char) (rest : Cut)

namespace Cut

/-- The text that was cut. -/
def text : Cut → List Char
  | .last l => l
  | .slot l content rest => l ++ '#' :: '\x7b' :: (content ++ '\x7d' :: rest.text)

/-- What stands in the placeholders. -/
def contents : Cut → List (List Char)
  | .last _ => []
  | .slot _ content rest => content :: rest.contents

/-- No placeholder opens in a literal, and none closes in a content. -/
def Clean : Cut → Prop
  | .last l => ¬ Piece.Opens l
  | .slot l content rest => ¬ Piece.Opens l ∧ '\x7d' ∉ content ∧ rest.Clean

/-- The literals with marks between them, of which `n` stand in front. -/
def marked (style : PlaceholderStyle) : Nat → Cut → List Char
  | _, .last l => l
  | n, .slot l _ rest => l ++ style.mark (n + 1) ++ rest.marked style (n + 1)

/-- The cut of a text with one more character in front. -/
def cons (c : Char) : Cut → Cut
  | .last l => .last (c :: l)
  | .slot l content rest => .slot (c :: l) content rest

/-- The cut that pieces are read from. -/
def ofPieces : List Piece → Cut
  | [] => .last []
  | .char c :: ps => (ofPieces ps).cons c
  | .placeholder content :: ps => .slot [] content (ofPieces ps)
  | .unterminated content :: ps => .slot [] content (ofPieces ps)

end Cut

/-! ## The path of a placeholder -/

/-- The path stands in front of the first comma, apart from blanks around it. -/
def Piece.Names (content : List Char) (path : String) : Prop :=
  ∃ before after options, content = before ++ path.toList ++ after ++ options ∧
    (∀ c ∈ before, Text.isBlank c = true) ∧ (∀ c ∈ after, Text.isBlank c = true) ∧
    ',' ∉ path.toList ∧ (∀ c ∈ options.head?, c = ',') ∧
    (∀ c ∈ path.toList.head?, Text.isBlank c = false) ∧
    ∀ c ∈ path.toList.getLast?, Text.isBlank c = false

namespace Text

theorem comma_not_mem {s : List Char} (h : ∀ c ∈ s, isBlank c = true) : ',' ∉ s := by
  intro hmem
  have hblank : isBlank ',' = false := by decide
  rw [h _ hmem] at hblank
  exact Bool.noConfusion hblank

theorem dropWhile_isBlank_append {before s : List Char} (hbefore : ∀ c ∈ before, isBlank c = true)
    (hs : ∀ c ∈ s.head?, isBlank c = false) : (before ++ s).dropWhile isBlank = s := by
  rw [List.dropWhile_append_of_pos hbefore]
  cases s with
  | nil => rfl
  | cons c s => rw [List.dropWhile_cons_of_neg (by simp [hs c rfl])]

/-- Trimming leaves what begins and ends with no blank. -/
theorem trimChars_between {before s after : List Char} (hbefore : ∀ c ∈ before, isBlank c = true)
    (hafter : ∀ c ∈ after, isBlank c = true) (hhead : ∀ c ∈ s.head?, isBlank c = false)
    (hlast : ∀ c ∈ s.getLast?, isBlank c = false) : trimChars (before ++ s ++ after) = s := by
  have hend : ((s ++ after).reverse).dropWhile isBlank = s.reverse := by
    rw [List.reverse_append]
    refine dropWhile_isBlank_append (fun c hc => hafter c (List.mem_reverse.1 hc)) ?_
    rw [List.head?_reverse]
    exact hlast
  rw [trimChars, List.append_assoc, List.dropWhile_append_of_pos hbefore]
  cases s with
  | nil =>
    have hnone : after.dropWhile isBlank = [] := List.dropWhile_eq_nil_iff.2 hafter
    rw [List.nil_append, hnone]
    rfl
  | cons c s =>
    have hstart : (c :: s ++ after).dropWhile isBlank = c :: s ++ after := by
      rw [List.cons_append, List.dropWhile_cons_of_neg (by simp [hhead c rfl])]
    rw [hstart, hend, List.reverse_reverse]

/-- What is trimmed off are blanks, and no blank is left at the ends. -/
theorem exists_around_trimChars (s : List Char) : ∃ before after,
    s = before ++ trimChars s ++ after ∧ (∀ c ∈ before, isBlank c = true) ∧
      (∀ c ∈ after, isBlank c = true) ∧ (∀ c ∈ (trimChars s).head?, isBlank c = false) ∧
      ∀ c ∈ (trimChars s).getLast?, isBlank c = false := by
  have hend : s.dropWhile isBlank =
      trimChars s ++ ((s.dropWhile isBlank).reverse.takeWhile isBlank).reverse := by
    rw [trimChars, ← List.reverse_append, List.takeWhile_append_dropWhile, List.reverse_reverse]
  refine ⟨s.takeWhile isBlank, ((s.dropWhile isBlank).reverse.takeWhile isBlank).reverse, ?_,
    fun c hc => List.mem_takeWhile_imp hc,
    fun c hc => List.mem_takeWhile_imp (List.mem_reverse.1 hc), fun c hc => ?_, fun c hc => ?_⟩
  · rw [List.append_assoc, ← hend, List.takeWhile_append_dropWhile]
  · have hnot := List.head?_dropWhile_not isBlank s
    rw [hend, List.head?_append, Option.mem_def.1 hc] at hnot
    simpa using hnot
  · have hnot := List.head?_dropWhile_not isBlank (s.dropWhile isBlank).reverse
    rw [trimChars, List.getLast?_reverse, Option.mem_def] at hc
    rw [hc] at hnot
    simpa using hnot

end Text

theorem Piece.names_iff {content : List Char} {path : String} :
    Names content path ↔ Piece.path content = path := by
  constructor
  · rintro ⟨before, after, options, rfl, hbefore, hafter, hcomma, hoptions, hhead, hlast⟩
    have hkeep : ∀ c ∈ before ++ path.toList ++ after, decide (c ≠ ',') = true := by
      intro c hc
      rw [decide_eq_true_iff]
      rintro rfl
      rcases List.mem_append.1 hc with hc | hc
      · rcases List.mem_append.1 hc with hc | hc
        · exact Text.comma_not_mem hbefore hc
        · exact hcomma hc
      · exact Text.comma_not_mem hafter hc
    have hcut : options.takeWhile (fun c => decide (c ≠ ',')) = [] := by
      cases options with
      | nil => rfl
      | cons c options => rw [List.takeWhile_cons_of_neg (by simp [hoptions c rfl])]
    rw [Piece.path, List.takeWhile_append_of_pos hkeep, hcut, List.append_nil,
      Text.trimChars_between hbefore hafter hhead hlast, String.ofList_toList]
  · rintro rfl
    have hsplit : content.takeWhile (· ≠ ',') ++ content.dropWhile (· ≠ ',') = content :=
      List.takeWhile_append_dropWhile
    obtain ⟨before, after, hstart, hbefore, hafter, hhead, hlast⟩ :=
      Text.exists_around_trimChars (content.takeWhile (· ≠ ','))
    have hpath : (Piece.path content).toList = Text.trimChars (content.takeWhile (· ≠ ',')) := by
      rw [Piece.path, String.toList_ofList]
    rw [← hpath] at hstart hhead hlast
    refine ⟨before, after, content.dropWhile (· ≠ ','), ?_, hbefore, hafter, ?_, ?_, hhead, hlast⟩
    · rw [← hstart, hsplit]
    · intro hmem
      have hstarts : ',' ∈ content.takeWhile (· ≠ ',') := by
        rw [hstart]
        exact List.mem_append_left _ (List.mem_append_right _ hmem)
      simpa using List.mem_takeWhile_imp hstarts
    · intro c hc
      have hnot := List.head?_dropWhile_not (fun c => decide (c ≠ ',')) content
      rw [Option.mem_def.1 hc] at hnot
      simpa using hnot

/-! ## Reading a text that is cut -/

namespace Piece

variable {s t : List Char} {c : Char}

theorem opens_cons_iff : Opens (c :: s) ↔ (c = '#' ∧ s.head? = some '\x7b') ∨ Opens s := by
  refine List.infix_cons_iff.trans (or_congr_left ?_)
  rw [List.cons_prefix_cons, eq_comm]
  refine and_congr_right fun _ => ?_
  cases s with
  | nil => simp
  | cons d s => simp [eq_comm]

theorem not_opens_cons (hs : ¬ Opens s) (hseam : c = '#' → s.head? ≠ some '\x7b') :
    ¬ Opens (c :: s) := by
  rw [opens_cons_iff]
  rintro (⟨hc, hhead⟩ | hopens)
  · exact hseam hc hhead
  · exact hs hopens

/-- No placeholder opens over a seam where no brace stands behind it. -/
theorem not_opens_append (hs : ¬ Opens s) (ht : ¬ Opens t) (hseam : t.head? ≠ some '\x7b') :
    ¬ Opens (s ++ t) := by
  induction s with
  | nil => exact ht
  | cons c s ih =>
    rw [opens_cons_iff, not_or] at hs
    refine not_opens_cons (ih hs.2) fun hc hhead => ?_
    cases s with
    | nil => exact hseam hhead
    | cons d s => exact hs.1 ⟨hc, hhead⟩

theorem not_opens_of_not_mem (h : '#' ∉ s) : ¬ Opens s :=
  fun hopens => h (hopens.subset List.mem_cons_self)

theorem not_opens_plain_append {l : List Char} (hl : '#' ∉ l) (hs : ¬ Opens s) :
    ¬ Opens (l ++ s) := by
  induction l with
  | nil => exact hs
  | cons c l ih =>
    rw [List.mem_cons, not_or] at hl
    exact not_opens_cons (ih hl.2) fun hc => absurd hc.symm hl.1

end Piece

namespace Cut

variable {cut : Cut} {s l : List Char} {params : Params} {style : PlaceholderStyle}

/-- The pieces that a cut text is read as. -/
def pieces : Cut → List Piece
  | .last l => l.map .char
  | .slot l content rest => l.map .char ++ .placeholder content :: rest.pieces

theorem ofPieces_map_char (l : List Char) (ps : List Piece) :
    ofPieces (l.map .char ++ ps) = l.foldr cons (ofPieces ps) := by
  induction l with
  | nil => rfl
  | cons c l ih => exact congrArg (cons c) ih

theorem foldr_cons_last (l l' : List Char) : l.foldr cons (.last l') = .last (l ++ l') := by
  induction l with
  | nil => rfl
  | cons c l ih => rw [List.foldr_cons, ih]; rfl

theorem foldr_cons_slot (l l' content : List Char) (rest : Cut) :
    l.foldr cons (.slot l' content rest) = .slot (l ++ l') content rest := by
  induction l with
  | nil => rfl
  | cons c l ih => rw [List.foldr_cons, ih]; rfl

theorem ofPieces_pieces (cut : Cut) : ofPieces cut.pieces = cut := by
  induction cut with
  | last l =>
    have h := ofPieces_map_char l []
    rw [List.append_nil] at h
    rw [pieces, h, ofPieces, foldr_cons_last, List.append_nil]
  | slot l content rest ih =>
    rw [pieces, ofPieces_map_char, ofPieces, ih, foldr_cons_slot, List.append_nil]

/-- A literal is read character by character, as no placeholder opens in it or over its end. -/
theorem scan_literal (hl : ¬ Piece.Opens l) (hs : s.head? ≠ some '\x7b') :
    Piece.scan none (l ++ s) = l.map .char ++ Piece.scan none s := by
  induction l with
  | nil => rfl
  | cons c l ih =>
    rw [Piece.opens_cons_iff, not_or, not_and] at hl
    have hseam : c = '#' → (l ++ s).head? ≠ some '\x7b' := by
      intro hc
      cases l with
      | nil => exact hs
      | cons d l => exact hl.1 hc
    rw [List.cons_append, Piece.scan_char hseam, ih hl.2, List.map_cons, List.cons_append]

theorem scan_text (h : cut.Clean) : Piece.scan none cut.text = cut.pieces := by
  induction cut with
  | last l =>
    have hread := scan_literal (s := []) h nofun
    rwa [List.append_nil, Piece.scan, List.append_nil] at hread
  | slot l content rest ih =>
    obtain ⟨hl, hcontent, hrest⟩ := h
    rw [text, scan_literal hl (by simp), Piece.scan_placeholder hcontent, ih hrest, pieces]

/-- What opens is read up to the first closing brace, or up to the end. -/
theorem scan_some (read s : List Char) :
    ('\x7d' ∉ s ∧ Piece.scan (some read) s = [.unterminated (read.reverse ++ s)]) ∨
      ∃ content rest, '\x7d' ∉ content ∧ s = content ++ '\x7d' :: rest ∧
        Piece.scan (some read) s =
          .placeholder (read.reverse ++ content) :: Piece.scan none rest := by
  induction s generalizing read with
  | nil => exact .inl ⟨List.not_mem_nil, by simp [Piece.scan]⟩
  | cons c s ih =>
    by_cases hc : c = '\x7d'
    · subst hc
      exact .inr ⟨[], s, List.not_mem_nil, rfl, by simp [Piece.scan]⟩
    · rcases ih (c :: read) with ⟨hs, hread⟩ | ⟨content, rest, hcontent, rfl, hread⟩
      · refine .inl ⟨?_, ?_⟩
        · rw [List.mem_cons, not_or]
          exact ⟨Ne.symm hc, hs⟩
        · rw [Piece.scan, if_neg hc, hread]
          simp
      · refine .inr ⟨c :: content, rest, ?_, rfl, ?_⟩
        · rw [List.mem_cons, not_or]
          exact ⟨Ne.symm hc, hcontent⟩
        · rw [Piece.scan, if_neg hc, hread]
          simp

theorem text_cons (c : Char) (cut : Cut) : (cut.cons c).text = c :: cut.text := by
  cases cut <;> rfl

theorem Clean.cons {c : Char} (h : cut.Clean) (hseam : c = '#' → cut.text.head? ≠ some '\x7b') :
    (cut.cons c).Clean := by
  cases cut with
  | last l => exact Piece.not_opens_cons h hseam
  | slot l content rest =>
    obtain ⟨hl, hcontent, hrest⟩ := h
    refine ⟨Piece.not_opens_cons hl fun hc hhead => hseam hc ?_, hcontent, hrest⟩
    rw [text, List.head?_append, hhead]
    rfl

/-- A text is cut clean by reading it, unless a placeholder in it does not end. -/
theorem clean_ofPieces (s : List Char)
    (h : ∀ content, Piece.unterminated content ∉ Piece.scan none s) :
    (ofPieces (Piece.scan none s)).Clean ∧ (ofPieces (Piece.scan none s)).text = s := by
  induction hn : s.length using Nat.strong_induction_on generalizing s with
  | _ n ih =>
    subst hn
    cases s with
    | nil => exact ⟨Piece.not_opens_of_not_mem List.not_mem_nil, rfl⟩
    | cons c s =>
      by_cases hopen : c = '#' ∧ s.head? = some '\x7b'
      · obtain ⟨rfl, hhead⟩ := hopen
        obtain ⟨s, rfl⟩ : ∃ s', s = '\x7b' :: s' := by
          cases s with
          | nil => simp at hhead
          | cons d s => exact ⟨s, by simpa using hhead⟩
        rw [Piece.scan] at h ⊢
        rcases scan_some [] s with ⟨-, hread⟩ | ⟨content, rest, hcontent, rfl, hread⟩
        · rw [hread] at h
          exact absurd List.mem_cons_self (h _)
        · rw [hread] at h ⊢
          obtain ⟨hclean, htext⟩ := ih rest.length (by simp; omega) rest
            (fun content hmem => h content (List.mem_cons_of_mem _ hmem)) rfl
          refine ⟨⟨Piece.not_opens_of_not_mem List.not_mem_nil, hcontent, hclean⟩, ?_⟩
          rw [ofPieces, text, htext]
          rfl
      · rw [not_and] at hopen
        rw [Piece.scan_char hopen] at h ⊢
        obtain ⟨hclean, htext⟩ := ih s.length (by simp) s
          (fun content hmem => h content (List.mem_cons_of_mem _ hmem)) rfl
        refine ⟨hclean.cons fun hc => ?_, ?_⟩
        · rw [htext]
          exact hopen hc
        · rw [ofPieces, text_cons, htext]

end Cut

/-! ## Lowering a text that is cut -/

namespace Piece

variable {ps : List Piece} {params : Params} {style : PlaceholderStyle} {n : Nat}
  {r : List Char × List Value}

theorem lower_char_eq_ok {c : Char} : lower style params n (.char c :: ps) = .ok r ↔
    ∃ t values, lower style params n ps = .ok (t, values) ∧ r = (c :: t, values) := by
  rw [lower, except_bind_eq_ok]
  constructor
  · rintro ⟨⟨t, values⟩, hlower, h⟩
    exact ⟨t, values, hlower, (Except.ok.inj h).symm⟩
  · rintro ⟨t, values, hlower, rfl⟩
    exact ⟨(t, values), hlower, rfl⟩

theorem lower_placeholder_eq_ok {content : List Char} :
    lower style params n (.placeholder content :: ps) = .ok r ↔
      ∃ v t values, params.get? (path content) = some v ∧
        lower style params (n + 1) ps = .ok (t, values) ∧
        r = (style.mark (n + 1) ++ t, v :: values) := by
  rw [lower]
  cases hv : params.get? (path content) with
  | none => simp
  | some v =>
    rw [except_bind_eq_ok]
    constructor
    · rintro ⟨⟨t, values⟩, hlower, h⟩
      exact ⟨v, t, values, rfl, hlower, (Except.ok.inj h).symm⟩
    · rintro ⟨_, t, values, hsome, hlower, rfl⟩
      obtain rfl := Option.some.inj hsome
      exact ⟨(t, values), hlower, rfl⟩

theorem lower_unterminated_ne_ok {content : List Char} :
    lower style params n (.unterminated content :: ps) ≠ .ok r := by
  rw [lower]
  intro h
  cases h

/-- What is lowered has no placeholder without an end. -/
theorem unterminated_not_mem (h : lower style params n ps = .ok r) (content : List Char) :
    .unterminated content ∉ ps := by
  induction ps generalizing n r with
  | nil => exact List.not_mem_nil
  | cons piece ps ih =>
    rw [List.mem_cons, not_or]
    cases piece with
    | char c =>
      obtain ⟨t, values, hlower, -⟩ := lower_char_eq_ok.1 h
      exact ⟨nofun, ih hlower⟩
    | placeholder content' =>
      obtain ⟨v, t, values, -, hlower, -⟩ := lower_placeholder_eq_ok.1 h
      exact ⟨nofun, ih hlower⟩
    | unterminated content' => exact absurd h lower_unterminated_ne_ok

theorem lower_map_char_eq_ok {l : List Char} :
    lower style params n (l.map .char ++ ps) = .ok r ↔
      ∃ t values, lower style params n ps = .ok (t, values) ∧ r = (l ++ t, values) := by
  induction l generalizing r with
  | nil => exact ⟨fun h => ⟨r.1, r.2, h, rfl⟩, fun ⟨_, _, h, hr⟩ => hr ▸ h⟩
  | cons c l ih =>
    rw [List.map_cons, List.cons_append, lower_char_eq_ok]
    constructor
    · rintro ⟨t, values, hlower, rfl⟩
      obtain ⟨t', values', hlower, heq⟩ := ih.1 hlower
      obtain ⟨rfl, rfl⟩ := Prod.mk.inj heq
      exact ⟨t', values, hlower, rfl⟩
    · rintro ⟨t, values, hlower, rfl⟩
      exact ⟨l ++ t, values, ih.2 ⟨t, values, hlower, rfl⟩, rfl⟩

end Piece

namespace Cut

variable {cut : Cut} {params : Params} {style : PlaceholderStyle} {n : Nat}
  {r : List Char × List Value}

theorem lower_pieces_eq_ok : Piece.lower style params n cut.pieces = .ok r ↔
    r.1 = cut.marked style n ∧
      List.Forall₂ (fun content v => params.get? (Piece.path content) = some v)
        cut.contents r.2 := by
  induction cut generalizing n r with
  | last l =>
    have hchars : Piece.lower style params n (l.map .char) = .ok r ↔
        ∃ t values, Piece.lower style params n [] = .ok (t, values) ∧ r = (l ++ t, values) := by
      rw [← Piece.lower_map_char_eq_ok, List.append_nil]
    rw [pieces, hchars, contents, List.forall₂_nil_left_iff, marked]
    constructor
    · rintro ⟨t, values, hnil, rfl⟩
      obtain ⟨rfl, rfl⟩ := Prod.mk.inj (Except.ok.inj hnil)
      exact ⟨List.append_nil l, rfl⟩
    · rintro ⟨htext, hvalues⟩
      exact ⟨[], [], rfl, Prod.ext (by rw [htext, List.append_nil]) hvalues⟩
  | slot l content rest ih =>
    rw [pieces, Piece.lower_map_char_eq_ok, contents, marked]
    constructor
    · rintro ⟨t, values, hslot, rfl⟩
      obtain ⟨v, t, values, hv, hlower, heq⟩ := Piece.lower_placeholder_eq_ok.1 hslot
      obtain ⟨rfl, rfl⟩ := Prod.mk.inj heq
      obtain ⟨htext, hvalues⟩ := ih.1 hlower
      exact ⟨by rw [← htext, List.append_assoc], .cons hv hvalues⟩
    · obtain ⟨text, values⟩ := r
      rintro ⟨htext, hvalues⟩
      cases hvalues with
      | @cons _ v _ values hv hvalues =>
        refine ⟨_, v :: values, Piece.lower_placeholder_eq_ok.2
          ⟨v, _, values, hv, ih.2 ⟨rfl, hvalues⟩, rfl⟩, ?_⟩
        rw [← List.append_assoc]
        exact Prod.ext htext rfl

/-- A text is cut clean in at most one way. -/
theorem Clean.unique {other : Cut} (h : cut.Clean) (h' : other.Clean)
    (htext : other.text = cut.text) : other = cut := by
  rw [← ofPieces_pieces other, ← scan_text h', htext, scan_text h, ofPieces_pieces]

/-- Marks are no placeholders, and do not make one of the literals around them. -/
theorem not_opens_mark_append (style : PlaceholderStyle) (n : Nat) {s : List Char}
    (hs : ¬ Piece.Opens s) :
    ¬ Piece.Opens (style.mark n ++ s) ∧ (style.mark n ++ s).head? ≠ some '\x7b' := by
  cases style with
  | question =>
    exact ⟨Piece.not_opens_plain_append (l := ['?']) (by decide) hs, by simp [PlaceholderStyle.mark]⟩
  | numbered =>
    refine ⟨Piece.not_opens_plain_append ?_ hs, by simp [PlaceholderStyle.mark]⟩
    rw [PlaceholderStyle.mark, List.mem_cons, not_or]
    exact ⟨by decide, Params.not_mem_repr (by decide) n⟩

theorem Clean.not_opens_marked (h : cut.Clean) (style : PlaceholderStyle) (n : Nat) :
    ¬ Piece.Opens (cut.marked style n) := by
  induction cut generalizing n with
  | last l => exact h
  | slot l content rest ih =>
    obtain ⟨hl, -, hrest⟩ := h
    obtain ⟨hopens, hseam⟩ := not_opens_mark_append style (n + 1) (ih hrest (n + 1))
    rw [marked, List.append_assoc]
    exact Piece.not_opens_append hl hopens hseam

end Cut

variable {style : PlaceholderStyle} {sql : String} {params : Params} {positional : Positional}

/-- Lowering keeps the literals of a text that is cut clean, and looks up what stands between. -/
theorem lower_eq_ok_iff : lower style sql params = .ok positional ↔
    ∃ cut : Cut, cut.Clean ∧ cut.text = sql.toList ∧
      positional.sql.toList = cut.marked style 0 ∧
      List.Forall₂ (fun content v => params.get? (Piece.path content) = some v)
        cut.contents positional.values := by
  rw [lower, except_bind_eq_ok]
  constructor
  · rintro ⟨⟨t, values⟩, hlower, h⟩
    obtain rfl := Except.ok.inj h
    obtain ⟨hclean, htext⟩ :=
      Cut.clean_ofPieces sql.toList (Piece.unterminated_not_mem hlower)
    generalize Cut.ofPieces (Piece.scan none sql.toList) = cut at hclean htext
    rw [← htext, Cut.scan_text hclean, Cut.lower_pieces_eq_ok] at hlower
    exact ⟨cut, hclean, htext, String.toList_ofList.trans hlower.1, hlower.2⟩
  · obtain ⟨lowered, values⟩ := positional
    rintro ⟨cut, hclean, htext, hmarked, hvalues⟩
    refine ⟨(lowered.toList, values), ?_, ?_⟩
    · rw [← htext, Cut.scan_text hclean, Cut.lower_pieces_eq_ok]
      exact ⟨hmarked, hvalues⟩
    · show Except.ok (Positional.mk (String.ofList lowered.toList) values) = _
      rw [String.ofList_toList]

/-- A text in which no placeholder opens is lowered to itself. -/
theorem lower_of_not_opens (h : ¬ Piece.Opens sql.toList) :
    lower style sql params = .ok ⟨sql, []⟩ :=
  lower_eq_ok_iff.2 ⟨.last sql.toList, h, rfl, rfl, .nil⟩

/-- Lowering succeeds exactly if all that opens in the text closes behind it and names a bound path,
apart from blanks and options. Then the text is cut clean in one way only; the values are those of
the paths, in the order of the text, and what is lowered are the literals with marks in order
between them. In it nothing opens, so it is lowered to itself. -/
theorem lower_exact (style : PlaceholderStyle) (sql : String) (params : Params) :
    ((∃ positional, lower style sql params = .ok positional) ↔
      ∃ cut : Cut, cut.Clean ∧ cut.text = sql.toList ∧ ∀ content ∈ cut.contents,
        ∃ path v, Piece.Names content path ∧ params.get? path = some v) ∧
    ∀ positional, lower style sql params = .ok positional →
      (∃ cut : Cut, (cut.Clean ∧ cut.text = sql.toList) ∧
        (∀ other : Cut, other.Clean ∧ other.text = sql.toList → other = cut) ∧
        positional.sql.toList = cut.marked style 0 ∧
        List.Forall₂ (fun content v => ∃ path, Piece.Names content path ∧ params.get? path = some v)
          cut.contents positional.values) ∧
      ¬ Piece.Opens positional.sql.toList ∧
      ∀ style' params', lower style' positional.sql params' = .ok ⟨positional.sql, []⟩ := by
  have hnames : ∀ content v, (∃ path, Piece.Names content path ∧ params.get? path = some v) ↔
      params.get? (Piece.path content) = some v := by
    intro content v
    constructor
    · rintro ⟨path, hpath, hv⟩
      rwa [Piece.names_iff.1 hpath]
    · exact fun hv => ⟨_, Piece.names_iff.2 rfl, hv⟩
  refine ⟨⟨?_, ?_⟩, ?_⟩
  · rintro ⟨positional, h⟩
    obtain ⟨cut, hclean, htext, -, hvalues⟩ := lower_eq_ok_iff.1 h
    refine ⟨cut, hclean, htext, fun content hcontent => ?_⟩
    obtain ⟨v, -, hv⟩ := forall₂_mem_right hvalues.flip hcontent
    obtain ⟨path, hpath⟩ := (hnames content v).2 hv
    exact ⟨path, v, hpath⟩
  · rintro ⟨cut, hclean, htext, hbound⟩
    have hvalues : List.Forall₂ (fun content v => params.get? (Piece.path content) = some v)
        cut.contents
        (cut.contents.map fun content => (params.get? (Piece.path content)).getD .null) := by
      rw [List.forall₂_map_right_iff, List.forall₂_same]
      intro content hcontent
      obtain ⟨path, v, hpath⟩ := hbound content hcontent
      rw [(hnames content v).1 ⟨path, hpath⟩, Option.getD_some]
    exact ⟨⟨.ofList (cut.marked style 0), _⟩,
      lower_eq_ok_iff.2 ⟨cut, hclean, htext, String.toList_ofList, hvalues⟩⟩
  · intro positional h
    obtain ⟨cut, hclean, htext, hmarked, hvalues⟩ := lower_eq_ok_iff.1 h
    have hopens : ¬ Piece.Opens positional.sql.toList := by
      rw [hmarked]
      exact hclean.not_opens_marked style 0
    refine ⟨⟨cut, ⟨hclean, htext⟩, fun other hother => ?_, hmarked, ?_⟩, hopens,
      fun style' params' => lower_of_not_opens hopens⟩
    · exact hclean.unique hother.1 (hother.2.trans htext.symm)
    · exact hvalues.imp fun content v hv => (hnames content v).2 hv

/-- A literal ends in `#`, a placeholder has blanks and an option, a path is named twice, and a
literal begins with a brace. -/
theorem vectorTwice_lower_exact :
    ∃ (positional : Positional) (cut : Cut),
      lower .numbered "x##\x7b v ,type=vector\x7d\x7b#\x7bw\x7d#\x7bv\x7d#"
        [("v", .int 1), ("w", .text "y")] = .ok positional ∧
      positional.sql = "x#$1\x7b$2$3#" ∧ cut.Clean ∧
      cut.text = "x##\x7b v ,type=vector\x7d\x7b#\x7bw\x7d#\x7bv\x7d#".toList ∧
      cut.contents.length = 3 ∧
      lower .question positional.sql [] = .ok ⟨positional.sql, []⟩ := by
  obtain ⟨positional, h⟩ : ∃ positional, lower .numbered
      "x##\x7b v ,type=vector\x7d\x7b#\x7bw\x7d#\x7bv\x7d#" [("v", .int 1), ("w", .text "y")] =
        .ok positional := ⟨_, rfl⟩
  obtain ⟨⟨cut, ⟨hclean, htext⟩, -, -, hvalues⟩, -, hagain⟩ := (lower_exact _ _ _).2 positional h
  refine ⟨positional, cut, h, ?_, hclean, htext, ?_, hagain .question []⟩
  · cases h
    decide
  · rw [hvalues.length_eq]
    cases h
    decide

end QueryCompiler
