import QueryCompiler.Proofs.Boolean.Predicates
import QueryCompiler.Proofs.Boolean.Sentence

/-!
# Predicates as they are written

A template may be any boolean expression, so the text of a predicate is a sentence that may have
connectives outside brackets: a template stands as it is where it is the only part of a group, and
where a predicate is put behind others with `AND`. `spell` tells as which sentence each filled
template is read, and `Predicate.sentence?` as which the whole predicate is.
-/

namespace QueryCompiler

/-- The text is that of the sentence; no sentence is no text. -/
def Spells (s? : Option Sentence) (text : String) : Prop :=
  match s? with
  | none => text = ""
  | some s => s.Atomic ∧ text.toList = s.chars

namespace Sentence

variable {s t : Sentence}

/-- The negation binds to the first operand. -/
def negate : Sentence → Sentence
  | .last o => .last (.not o)
  | .more o k s => .more (.not o) k s

/-- Sentences with a connective between them. -/
def chain (k : Connective) : Sentence → List Sentence → Sentence
  | s, [] => s
  | s, t :: ts => s.join k (chain k t ts)

/-- One sentence stands alone, several are enclosed together. -/
def group (k : Connective) : List Sentence → Option Sentence
  | [] => none
  | [s] => some s
  | s :: t :: ts => some (.last (.enclosed (chain k s (t :: ts))))

/-- A further sentence behind one, if there is one. -/
def andOpt (s : Sentence) : Option Sentence → Sentence
  | none => s
  | some t => s.join .and t

theorem chars_negate (s : Sentence) : s.negate.chars = "NOT ".toList ++ s.chars := by
  cases s with
  | last o => rfl
  | more o k s => rw [negate, chars, chars, Operand.chars, List.append_assoc]

theorem Atomic.negate (h : s.Atomic) : s.negate.Atomic := by
  cases s with
  | last o => exact h
  | more o k s => exact h

theorem Atomic.chain {k : Connective} {ts : List Sentence} (hs : s.Atomic)
    (hts : ∀ t ∈ ts, t.Atomic) : (Sentence.chain k s ts).Atomic := by
  induction ts generalizing s with
  | nil => exact hs
  | cons t ts ih =>
    obtain ⟨ht, hts⟩ := List.forall_mem_cons.1 hts
    exact hs.join k (ih ht hts)

end Sentence

namespace Spells

variable {s? t? : Option Sentence} {s : Sentence} {text : String}

theorem ne_empty (h : Spells (some s) text) : text ≠ "" := by
  rw [Ne, ← String.toList_eq_nil_iff, h.2]
  exact (s.written h.1).ne_nil

theorem leaf (h : Atomic text.toList) : Spells (some (.last (.leaf text.toList))) text :=
  ⟨h, rfl⟩

theorem negate (h : Spells s? text) :
    Spells (s?.map fun s => .last (.enclosed s.negate)) (Predicate.negateText text) := by
  cases s? with
  | none =>
    obtain rfl : text = "" := h
    rfl
  | some s =>
    have hempty : text.isEmpty = false := by simpa using ne_empty h
    refine ⟨h.1.negate, ?_⟩
    rw [Predicate.negateText, hempty, if_neg Bool.false_ne_true, Text.toList_bracket]
    · rw [String.toList_append, h.2, ← Sentence.chars_negate]
      rfl
    · simp
    · simp [Text.isBracketed]

/-- Sentences with a connective between them, and what a bracket behind them tells. -/
theorem chain (k : Connective) {s : Sentence} {text : String} {ts : List Sentence}
    {texts : List String} (h : Spells (some s) text)
    (hs : List.Forall₂ (fun t => Spells (some t)) ts texts) :
    Spells (some (.chain k s ts)) ((" " ++ k.word ++ " ").intercalate (text :: texts)) := by
  induction hs generalizing s text with
  | nil =>
    refine ⟨h.1, ?_⟩
    rw [String.toList_intercalate]
    simpa [Sentence.chain] using h.2
  | @cons t text' ts texts ht _ ih =>
    obtain ⟨hatomic, hchars⟩ := ih ht
    refine ⟨h.1.join k hatomic, ?_⟩
    rw [Sentence.chain, Sentence.chars_join, ← hchars, ← h.2, String.toList_intercalate,
      String.toList_intercalate]
    simp [Token.separator, List.intercalate_cons_cons]

theorem group (k : Connective) {ss : List Sentence} {texts : List String}
    (h : List.Forall₂ (fun s => Spells (some s)) ss (texts.filter fun s => !s.isEmpty)) :
    Spells (Sentence.group k ss) (Text.joinFragments k texts) := by
  rw [Text.joinFragments]
  generalize texts.filter (fun s => !s.isEmpty) = parts at h ⊢
  cases h with
  | nil => rfl
  | @cons s text _ _ hs h =>
  cases h with
  | nil => exact hs
  | @cons t text' ts rest ht hts =>
    have hall := hs.chain k (.cons ht hts)
    have hrest := ht.chain k hts
    have hwritten := (Sentence.chain k t ts).written hrest.1
    rw [← hrest.2] at hwritten
    refine ⟨hall.1, ?_⟩
    show (Text.bracket _).toList = _
    rw [Text.toList_bracket_intercalate k hwritten.ne_nil hwritten.opened, hall.2]
    rfl

/-- A further predicate behind a text. -/
theorem andOpt (h : Spells (some s) text) {text' : String} (h' : Spells t? text') :
    Spells (some (s.andOpt t?)) (text ++ Predicate.andText text') := by
  cases t? with
  | none =>
    obtain rfl : text' = "" := h'
    rw [Predicate.andText, if_pos (by rfl), String.append_empty]
    exact h
  | some t =>
    have hempty : text'.isEmpty = false := by simpa using ne_empty h'
    refine ⟨h.1.join .and h'.1, ?_⟩
    rw [Predicate.andText, hempty, if_neg Bool.false_ne_true, String.toList_append,
      String.toList_append, h.2, h'.2, Sentence.andOpt, Sentence.chars_join]
    rfl

/-- The text is read as the sentence's formula. -/
theorem parse (h : Spells (some s) text) :
    Formula.parse s.leaves text.toList = some s.formula := by
  rw [h.2]
  exact s.parse h.1

end Spells

/-! ## Predicates -/

namespace Predicate

variable {spell : Filled → Sentence}

mutual

/-- The sentence of a predicate, with its templates spelled out. -/
def sentence? (spell : Filled → Sentence) : Predicate → Option Sentence
  | .absent => none
  | .filled sql _ => if sql.text.isEmpty then none else some (spell sql)
  | .membership column negated items =>
    some (.last (.leaf (membershipText column negated items).toList))
  | .group k parts => Sentence.group k (sentences spell parts)
  | .negate inner => (inner.sentence? spell).map fun s => .last (.enclosed s.negate)
  | .related negated body inner =>
    some (.last (.leaf (text (.related negated body inner)).toList))

/-- The sentences of the parts of a group that have one. -/
def sentences (spell : Filled → Sentence) : List Predicate → List Sentence
  | [] => []
  | p :: ps => (p.sentence? spell).toList ++ sentences spell ps

end

mutual

/-- The filled templates of a predicate have the texts of their sentences. -/
def Spelled (spell : Filled → Sentence) : Predicate → Prop
  | .filled sql _ => sql.text ≠ "" → Spells (some (spell sql)) sql.text
  | .group _ parts => SpelledOf spell parts
  | .negate inner => inner.Spelled spell
  | .absent | .membership _ _ _ | .related _ _ _ => True

/-- `Spelled` of the parts of a group. -/
def SpelledOf (spell : Filled → Sentence) : List Predicate → Prop
  | [] => True
  | p :: ps => p.Spelled spell ∧ SpelledOf spell ps

end

mutual

theorem spells_text : ∀ p : Predicate, p.Spelled spell → Spells (p.sentence? spell) p.text
  | .absent, _ => rfl
  | .filled sql bs, h => by
    by_cases hempty : sql.text = ""
    · rw [sentence?, if_pos (String.isEmpty_iff.2 hempty)]
      exact hempty
    · rw [sentence?, if_neg fun hsome => hempty (String.isEmpty_iff.1 hsome)]
      exact h hempty
  | .membership _ _ _, _ => Spells.leaf (atomic_membershipText _ _ _)
  | .related _ _ _, _ => Spells.leaf (atomic_related _ _ _)
  | .negate inner, h => (spells_text inner h).negate
  | .group k parts, h => Spells.group k (spells_texts parts h)

theorem spells_texts : ∀ ps : List Predicate, SpelledOf spell ps →
    List.Forall₂ (fun s => Spells (some s)) (sentences spell ps)
      ((texts ps).filter fun s => !s.isEmpty)
  | [], _ => .nil
  | p :: ps, h => by
    have ih := spells_text p h.1
    have ihs := spells_texts ps h.2
    rw [sentences, texts]
    cases hs : p.sentence? spell with
    | none =>
      rw [hs] at ih
      rw [show p.text = "" from ih]
      exact ihs
    | some s =>
      rw [hs] at ih
      have hempty : (!p.text.isEmpty) = true := by simpa using Spells.ne_empty ih
      rw [List.filter_cons, if_pos hempty]
      exact .cons ih ihs

end

mutual

/-- Only a template that stands alone has an `OR` outside brackets: where there are several parts,
they are enclosed. -/
theorem tight_sentence (h : ∀ sql, (spell sql).Tight) : ∀ {p : Predicate} {s : Sentence},
    p.sentence? spell = some s → s.Tight
  | .absent, _, hs => absurd hs nofun
  | .filled sql bs, s, hs => by
    rw [sentence?] at hs
    split at hs
    · exact absurd hs nofun
    · exact Option.some.inj hs ▸ h sql
  | .membership _ _ _, _, hs => Option.some.inj hs ▸ trivial
  | .related _ _ _, _, hs => Option.some.inj hs ▸ trivial
  | .negate inner, s, hs => by
    obtain ⟨t, -, rfl⟩ := Option.map_eq_some_iff.1 hs
    trivial
  | .group k parts, s, hs => by
    have ih : ∀ s ∈ sentences spell parts, s.Tight := tight_sentences h
    rw [sentence?] at hs
    match hparts : sentences spell parts with
    | [] => rw [hparts] at hs; exact absurd hs nofun
    | [t] =>
      rw [hparts] at hs ih
      exact Option.some.inj hs ▸ ih t (List.mem_singleton_self t)
    | t :: u :: ts =>
      rw [hparts] at hs
      exact Option.some.inj hs ▸ trivial

theorem tight_sentences (h : ∀ sql, (spell sql).Tight) : ∀ {ps : List Predicate},
    ∀ s ∈ sentences spell ps, s.Tight
  | [], _, hs => absurd hs List.not_mem_nil
  | p :: ps, s, hs => by
    rcases List.mem_append.1 hs with hs | hs
    · exact tight_sentence h (Option.mem_toList.1 hs)
    · exact tight_sentences h s hs

end

/-- The predicate holds as it is written; what has no text asks for nothing. -/
def Met (spell : Filled → Sentence) (v : List Char → Bool) (p : Predicate) : Prop :=
  ∀ s ∈ p.sentence? spell, s.eval v = true

/-- What stands behind the first `OR` of the predicate, outside brackets, holds. -/
def Escapes (spell : Filled → Sentence) (v : List Char → Bool) (p : Predicate) : Prop :=
  ∃ s ∈ p.sentence? spell, s.behind v = true

end Predicate
end QueryCompiler
