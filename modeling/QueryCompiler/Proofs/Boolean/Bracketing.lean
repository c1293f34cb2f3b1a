import QueryCompiler.Proofs.Boolean.Formula
import QueryCompiler.Sql.Predicate

/-!
# Brackets keep the meaning of a predicate

`Written effect leaves s` says that a text is one piece of an expression: whatever stands around it,
reading it takes its leaves and has this effect on the level it stands in. An operand has the effect
of `Level.take`. What is joined by a connective is no operand until it is enclosed
(`Written.enclose`), and `bracket` encloses it: such a text either does not end in a bracket, or a
bracket opens behind its first character.
-/

namespace QueryCompiler

/-- The characters of the words that may stand before a leaf. -/
def openers : List Char := "NOT (".toList

/-- A text that is told from the words before it, and that no closing bracket ends unless one opens
in it. -/
structure Atomic (a : List Char) : Prop where
  marked : ∃ c ∈ a, c ∉ openers
  opened : a.getLast? = some ')' → '(' ∈ a

/-! ## Reading word by word -/

namespace Token

variable {leaves : List (List Char)} {a rest : List Char}

theorem lex_skip (operand : Bool) (leaves : List (List Char)) (s rest : List Char) :
    lex operand s.length leaves (s ++ rest) = lex operand 0 leaves rest := by
  induction s with
  | nil => rfl
  | cons c s ih => rw [List.length_cons, List.cons_append, lex]; exact ih

theorem lex_atom (ha : a ≠ []) :
    lex true 0 (a :: leaves) (a ++ rest) = (atom a :: ·) <$> lex false 0 leaves rest := by
  obtain ⟨c, a, rfl⟩ := List.exists_cons_of_ne_nil ha
  rw [List.cons_append, lex, if_pos (by simp)]
  simp only [List.headD_cons, List.tail_cons, List.length_cons, Nat.add_sub_cancel, lex_skip]

theorem lex_opening (ha : ¬ a <+: '(' :: rest) :
    lex true 0 (a :: leaves) ('(' :: rest) = (opening :: ·) <$> lex true 0 (a :: leaves) rest := by
  rw [← List.isPrefixOf_iff_prefix] at ha
  rw [lex, if_neg (by simpa using ha), if_pos rfl]

theorem lex_negation (ha : ¬ a <+: "NOT ".toList ++ rest) :
    lex true 0 (a :: leaves) ("NOT ".toList ++ rest) =
      (negation :: ·) <$> lex true 0 (a :: leaves) rest := by
  rw [← List.isPrefixOf_iff_prefix] at ha
  have hskip := lex_skip true (a :: leaves) "OT ".toList rest
  show lex true 0 (a :: leaves) ('N' :: ("OT ".toList ++ rest)) = _
  rw [lex, if_neg (by simpa using ha), if_neg (by decide), if_pos (by simp)]
  exact congrArg _ hskip

theorem lex_closing :
    lex false 0 leaves (')' :: rest) = (closing :: ·) <$> lex false 0 leaves rest := by
  rw [lex, if_pos rfl]

theorem lex_connective (k : Connective) :
    lex false 0 leaves (separator k ++ rest) =
      (connective k :: ·) <$> lex true 0 leaves rest := by
  cases k with
  | and =>
    show lex false 0 leaves (' ' :: ("AND ".toList ++ rest)) = _
    rw [lex, if_neg (by decide), if_pos (by simp [separator, Connective.word])]
    exact congrArg _ (lex_skip true leaves "AND ".toList rest)
  | or =>
    show lex false 0 leaves (' ' :: ("OR ".toList ++ rest)) = _
    rw [lex, if_neg (by decide), if_neg (by simp [separator, Connective.word]),
      if_pos (by simp [separator, Connective.word])]
    exact congrArg _ (lex_skip true leaves "OR ".toList rest)

/-- A leaf does not begin at a word before it: it would repeat that word to its end. -/
theorem not_prefix_of_opened {w t : List Char} (ha : ∃ c ∈ a, c ∉ openers) (hw : w ≠ [])
    (hmem : ∀ c ∈ w, c ∈ openers) : ¬ a <+: w ++ (a ++ t) := by
  intro h
  have key : ∀ i (hi : i < a.length), a[i] ∈ openers := by
    intro i
    induction i using Nat.strongRecOn with
    | _ i ih =>
      intro hi
      have hpos := List.length_pos_of_ne_nil hw
      have hlt : i < (w ++ (a ++ t)).length := Nat.lt_of_lt_of_le hi h.length_le
      have hget : a[i] = (w ++ (a ++ t))[i] := List.IsPrefix.getElem h hi
      rw [hget, List.getElem_append]
      split
      · exact hmem _ (List.getElem_mem _)
      · rw [List.getElem_append_left (by omega)]
        exact ih (i - w.length) (by omega) (by omega)
  obtain ⟨c, hc, hnot⟩ := ha
  obtain ⟨i, hi, rfl⟩ := List.getElem_of_mem hc
  exact hnot (key i hi)

end Token

/-! ## Pieces of an expression -/

namespace Level

/-- Takes an operand and further ones, a connective before each. -/
def chain (k : Connective) (g : Formula) (gs : List Formula) (l : Level) : Level :=
  gs.foldl (fun l g => (l.connect k).take g) (l.take g)

theorem chain_and (g : Formula) (gs : List Formula) (ds cs : List Formula) :
    chain .and g gs ⟨ds, cs, 0⟩ = ⟨ds, cs ++ g :: gs, 0⟩ := by
  induction gs generalizing g cs with
  | nil => rfl
  | cons h gs ih =>
    show chain .and h gs ⟨ds, cs ++ [g], 0⟩ = _
    rw [ih, List.append_assoc, List.singleton_append]

theorem chain_or (g : Formula) (gs : List Formula) (ds : List Formula) :
    (chain .or g gs ⟨ds, [], 0⟩).connect .or = ⟨ds ++ g :: gs, [], 0⟩ := by
  induction gs generalizing g ds with
  | nil => rfl
  | cons h gs ih =>
    show (chain .or h gs ⟨ds ++ [g], [], 0⟩).connect .or = _
    rw [ih, List.append_assoc, List.singleton_append]

theorem close_chain (k : Connective) (g : Formula) (gs : List Formula) :
    (chain k g gs {}).close = .combine k (g :: gs) := by
  cases k with
  | and => rw [close, chain_and]; rfl
  | or => rw [close, chain_or]; rfl

end Level

theorem Formula.read_connective (outer : List Level) (l : Level) (k : Connective)
    (ts : List Token) :
    Formula.read false outer l (.connective k :: ts) = Formula.read true outer (l.connect k) ts := by
  cases outer <;> rfl

/-- A text that begins with an opener or a leaf, that holds the bracket it ends in, and that reads
the same wherever an operand is due: it takes its leaves and changes the level by `effect`. -/
structure Written (effect : Level → Level) (leaves : List (List Char)) (s : List Char) : Prop where
  opens : ∃ w a t, leaves.head? = some a ∧ s = w ++ (a ++ t) ∧ (∀ c ∈ w, c ∈ openers) ∧
    ∃ c ∈ a, c ∉ openers
  opened : s.getLast? = some ')' → '(' ∈ s
  reads : ∃ ts, (∀ more rest, Token.lex true 0 (leaves ++ more) (s ++ rest) =
      (ts ++ ·) <$> Token.lex false 0 more rest) ∧
    ∀ outer l more, Formula.read true outer l (ts ++ more) = Formula.read false outer (effect l) more

namespace Written

variable {effect : Level → Level} {leaves : List (List Char)} {s w : List Char} {g : Formula}

theorem ne_nil (h : Written effect leaves s) : s ≠ [] := by
  obtain ⟨w, a, t, -, rfl, -, c, hc, -⟩ := h.opens
  have : a ≠ [] := List.ne_nil_of_mem hc
  simp [this]

/-- The first leaf does not begin at openers put before a piece. -/
theorem exists_leaf (h : Written effect leaves s) : ∃ a as, leaves = a :: as ∧
    ∀ w rest, w ≠ [] → (∀ c ∈ w, c ∈ openers) → ¬ a <+: w ++ (s ++ rest) := by
  obtain ⟨u, a, t, ha, rfl, hu, hmark⟩ := h.opens
  obtain ⟨as, rfl⟩ : ∃ as, leaves = a :: as := by
    cases leaves with
    | nil => simp at ha
    | cons b as => exact ⟨as, by simpa using ha⟩
  refine ⟨a, as, rfl, fun w rest hw hmem => ?_⟩
  have := Token.not_prefix_of_opened (w := w ++ u) (t := t ++ rest) hmark (by simp [hw])
    (by intro c hc; rcases List.mem_append.1 hc with hc | hc; exacts [hmem c hc, hu c hc])
  simpa using this

theorem opens_append (h : Written effect leaves s) (hmem : ∀ c ∈ w, c ∈ openers)
    (t : List Char) : ∃ u a t', leaves.head? = some a ∧ w ++ (s ++ t) = u ++ (a ++ t') ∧
      (∀ c ∈ u, c ∈ openers) ∧ ∃ c ∈ a, c ∉ openers := by
  obtain ⟨u, a, t', ha, rfl, hu, hmark⟩ := h.opens
  refine ⟨w ++ u, a, t' ++ t, ha, by simp, ?_, hmark⟩
  intro c hc
  rcases List.mem_append.1 hc with hc | hc
  exacts [hmem c hc, hu c hc]

theorem atom {a : List Char} (ha : Atomic a) : Written (·.take (.atom a)) [a] a where
  opens := ⟨[], a, [], rfl, by simp, by simp, ha.marked⟩
  opened := ha.opened
  reads := by
    obtain ⟨c, hc, -⟩ := ha.marked
    refine ⟨[.atom a], fun more rest => ?_, fun outer l more => rfl⟩
    exact Token.lex_atom (List.ne_nil_of_mem hc)

theorem negate (h : Written (·.take g) leaves s) :
    Written (·.take (.negate g)) leaves ("NOT ".toList ++ s) where
  opens := by simpa using h.opens_append (w := "NOT ".toList) (by simp [openers]) []
  opened := by
    intro hlast
    rw [List.getLast?_append_of_ne_nil _ h.ne_nil] at hlast
    exact List.mem_append_right _ (h.opened hlast)
  reads := by
    obtain ⟨ts, hlex, hread⟩ := h.reads
    obtain ⟨a, as, rfl, hnot⟩ := h.exists_leaf
    refine ⟨.negation :: ts, fun more rest => ?_, fun outer l more => ?_⟩
    · rw [List.append_assoc, List.cons_append,
        Token.lex_negation (hnot _ rest (by simp) (by simp [openers])), ← List.cons_append, hlex]
      simp [Function.comp_def]
    · exact hread outer { l with negations := l.negations + 1 } more

theorem enclose {effect : Level → Level} (h : Written effect leaves s) :
    Written (·.take (effect {}).close) leaves ("(".toList ++ (s ++ ")".toList)) where
  opens := h.opens_append (w := "(".toList) (by simp [openers]) _
  opened _ := by simp
  reads := by
    obtain ⟨ts, hlex, hread⟩ := h.reads
    obtain ⟨a, as, rfl, hnot⟩ := h.exists_leaf
    refine ⟨.opening :: (ts ++ [.closing]), fun more rest => ?_, fun outer l more => ?_⟩
    · have hopen : ¬ a <+: '(' :: (s ++ (')' :: rest)) :=
        hnot "(".toList _ (by simp) (by simp [openers])
      have htext : "(".toList ++ (s ++ ")".toList) ++ rest = '(' :: (s ++ (')' :: rest)) := by simp
      rw [htext, List.cons_append, Token.lex_opening hopen, ← List.cons_append, hlex,
        Token.lex_closing]
      simp [Function.comp_def]
    · have htokens : .opening :: (ts ++ [.closing]) ++ more = .opening :: (ts ++ .closing :: more) := by
        simp
      rw [htokens]
      show Formula.read true (l :: outer) {} (ts ++ .closing :: more) = _
      rw [hread]
      rfl

/-- An operand with a piece behind it and a connective between them. -/
theorem connect {k : Connective} {effect : Level → Level} {leaves' : List (List Char)}
    {s' : List Char} (h : Written (·.take g) leaves s) (h' : Written effect leaves' s') :
    Written (fun l => effect ((l.take g).connect k)) (leaves ++ leaves')
      (s ++ (Token.separator k ++ s')) where
  opens := by
    obtain ⟨a, as, rfl, -⟩ := h.exists_leaf
    simpa using h.opens_append (w := []) (by simp) (Token.separator k ++ s')
  opened := by
    intro hlast
    rw [← List.append_assoc, List.getLast?_append_of_ne_nil _ h'.ne_nil] at hlast
    exact List.mem_append_right _ (List.mem_append_right _ (h'.opened hlast))
  reads := by
    obtain ⟨ts, hlex, hread⟩ := h.reads
    obtain ⟨ts', hlex', hread'⟩ := h'.reads
    refine ⟨ts ++ .connective k :: ts', fun more rest => ?_, fun outer l more => ?_⟩
    · simp only [List.append_assoc]
      rw [hlex, Token.lex_connective, hlex']
      simp [Function.comp_def]
    · rw [List.append_assoc, hread, List.cons_append, Formula.read_connective]
      exact hread' outer ((l.take g).connect k) more

/-- A piece that nothing stands around is read as a formula. -/
theorem parse {effect : Level → Level} (h : Written effect leaves s) :
    Formula.parse leaves s = some (effect {}).close := by
  obtain ⟨ts, hlex, hread⟩ := h.reads
  have htokens : Token.lex true 0 leaves s = some ts := by
    have hlex := hlex [] []
    rw [List.append_nil, List.append_nil] at hlex
    rw [hlex]
    simp [Token.lex]
  have hread := hread [] {} []
  rw [List.append_nil] at hread
  rw [Formula.parse, htokens]
  exact hread

end Written

/-! ## Texts of formulas -/

/-- A text that is an operand with the leaves and the value of a formula. -/
def Expresses (f : Formula) (s : String) : Prop :=
  ∃ g, Written (·.take g) f.atoms s.toList ∧ ∀ v, g.eval v = f.eval v

namespace Expresses

variable {f : Formula} {s : String}

theorem ne_empty (h : Expresses f s) : s ≠ "" := by
  obtain ⟨g, hg, -⟩ := h
  rw [Ne, ← String.toList_eq_nil_iff]
  exact hg.ne_nil

/-- What expresses a formula is read as a formula of its value. -/
theorem parse (h : Expresses f s) :
    ∃ g, Formula.parse f.atoms s.toList = some g ∧ ∀ v, g.eval v = f.eval v := by
  obtain ⟨g, hg, heval⟩ := h
  exact ⟨g, hg.parse, heval⟩

theorem atom (hs : Atomic s.toList) : Expresses (.atom s.toList) s :=
  ⟨.atom s.toList, Written.atom hs, fun _ => rfl⟩

end Expresses

/-- A text that begins with no bracket, or in which one opens behind the beginning where one closes
at the end, is enclosed. -/
theorem Text.toList_bracket {s : String} (hne : s ≠ "") (h : isBracketed s.toList = false) :
    (bracket s).toList = "(".toList ++ (s.toList ++ ")".toList) := by
  have hempty : s.isEmpty = false := by simpa using hne
  simp [bracket, hempty, h]

theorem Text.isBracketed_append {a b : List Char} (ha : a ≠ []) (hb : b ≠ [])
    (hopened : b.getLast? = some ')' → '(' ∈ b) : isBracketed (a ++ b) = false := by
  obtain ⟨c, a, rfl⟩ := List.exists_cons_of_ne_nil ha
  rw [isBracketed, List.getLast?_append_of_ne_nil _ hb, Bool.and_eq_false_iff,
    Bool.and_eq_false_iff]
  by_cases hlast : b.getLast? = some ')'
  · right
    simp [hopened hlast]
  · left; right
    simpa using hlast

/-- Parts with a connective between them are enclosed, whatever brackets stand at their ends. -/
theorem Text.toList_bracket_intercalate (k : Connective) {s s' : String} {rest : List String}
    (hne : ((" " ++ k.word ++ " ").intercalate (s' :: rest)).toList ≠ [])
    (hopened : ((" " ++ k.word ++ " ").intercalate (s' :: rest)).toList.getLast? = some ')' →
      '(' ∈ ((" " ++ k.word ++ " ").intercalate (s' :: rest)).toList) :
    (bracket ((" " ++ k.word ++ " ").intercalate (s :: s' :: rest))).toList = "(".toList ++
      (((" " ++ k.word ++ " ").intercalate (s :: s' :: rest)).toList ++ ")".toList) := by
  have hsplit : ((" " ++ k.word ++ " ").intercalate (s :: s' :: rest)).toList =
      (s.toList ++ (" " ++ k.word ++ " ").toList) ++
        ((" " ++ k.word ++ " ").intercalate (s' :: rest)).toList := by
    simp [String.toList_intercalate]
  refine toList_bracket ?_ ?_
  · rw [Ne, ← String.toList_eq_nil_iff, hsplit, List.append_eq_nil_iff]
    exact fun h => hne h.2
  · rw [hsplit]
    exact isBracketed_append (by simp) hne hopened

theorem Expresses.negate {f : Formula} {s : String} (h : Expresses f s) :
    Expresses (.negate f) (Predicate.negateText s) := by
  obtain ⟨g, hg, heval⟩ := h
  have hempty : s.isEmpty = false := by simpa using Expresses.ne_empty ⟨g, hg, heval⟩
  have htext : (Predicate.negateText s).toList =
      "(".toList ++ (("NOT ".toList ++ s.toList) ++ ")".toList) := by
    rw [Predicate.negateText, hempty, if_neg Bool.false_ne_true, Text.toList_bracket,
      String.toList_append]
    · simp
    · simp [Text.isBracketed]
  refine ⟨.negate g, ?_, fun v => by simp only [Formula.eval, heval]⟩
  rw [htext]
  exact hg.negate.enclose

/-- Operands with a connective between them. -/
theorem Written.join (k : Connective) : ∀ {f : Formula} {fs : List Formula} {s : String}
    {ss : List String}, Expresses f s → List.Forall₂ Expresses fs ss →
    ∃ g gs, Written (Level.chain k g gs) (Formula.atomsOf (f :: fs))
      ((" " ++ k.word ++ " ").intercalate (s :: ss)).toList ∧
      ∀ v, List.Forall₂ (fun g f => g.eval v = f.eval v) (g :: gs) (f :: fs) := by
  intro f fs s ss h hs
  induction hs generalizing f s with
  | nil =>
    obtain ⟨g, hg, heval⟩ := h
    refine ⟨g, [], ?_, fun v => .cons (heval v) .nil⟩
    have hg : Written (Level.chain k g []) f.atoms s.toList := hg
    rw [String.toList_intercalate]
    simpa [Formula.atomsOf] using hg
  | @cons f' s' fs ss h' _ ih =>
    obtain ⟨g, hg, heval⟩ := h
    obtain ⟨g', gs, hw, hevals⟩ := ih h'
    refine ⟨g, g' :: gs, ?_, fun v => .cons (heval v) (hevals v)⟩
    have hchain : Written (Level.chain k g (g' :: gs)) _ _ := hg.connect hw
    rw [String.toList_intercalate] at hchain ⊢
    simpa [Formula.atomsOf, Token.separator, List.intercalate_cons_cons] using hchain

theorem Expresses.group (k : Connective) {fs : List Formula} {ss : List String}
    (h : List.Forall₂ Expresses fs (ss.filter fun s => !s.isEmpty)) (hne : fs ≠ []) :
    Expresses (.group k fs) (Text.joinFragments k ss) := by
  rw [Text.joinFragments]
  generalize ss.filter (fun s => !s.isEmpty) = parts at h ⊢
  cases h with
  | nil => exact absurd rfl hne
  | @cons f s _ _ hf h =>
  cases h with
  | nil =>
    obtain ⟨g, hg, heval⟩ := hf
    refine ⟨g, ?_, fun v => ?_⟩
    · simpa [Formula.atoms, Formula.atomsOf] using hg
    · rw [heval, Formula.eval, ← Formula.eval_combine]; rfl
  | @cons _ s' _ rest hf' htail =>
    obtain ⟨g, gs, hw, hevals⟩ := Written.join k hf (.cons hf' htail)
    obtain ⟨g', gs', hw', -⟩ := Written.join k hf' htail
    refine ⟨.combine k (g :: gs), ?_, fun v => ?_⟩
    · show Written _ _ (Text.bracket _).toList
      rw [Text.toList_bracket_intercalate k hw'.ne_nil hw'.opened, ← Level.close_chain]
      exact hw.enclose
    · rw [Formula.eval_combine, Formula.eval, Formula.evalGroup_congr k (hevals v)]

/-- Two operands with a connective between them are read as the group of what each is read as. -/
theorem Expresses.parse_pair (k : Connective) {f f' : Formula} {s s' : String}
    (h : Expresses f s) (h' : Expresses f' s') : ∃ g g',
    Formula.parse f.atoms s.toList = some g ∧ (∀ v, g.eval v = f.eval v) ∧
    Formula.parse f'.atoms s'.toList = some g' ∧ (∀ v, g'.eval v = f'.eval v) ∧
    Formula.parse (f.atoms ++ f'.atoms) (Text.joinFragments k [s, s']).toList =
      some (.group k [g, g']) := by
  have hs : s.isEmpty = false := by simpa using h.ne_empty
  have hs' : s'.isEmpty = false := by simpa using h'.ne_empty
  obtain ⟨g, hg, heval⟩ := h
  obtain ⟨g', hg', heval'⟩ := h'
  refine ⟨g, g', hg.parse, heval, hg'.parse, heval', ?_⟩
  have hpair : Written (Level.chain k g [g']) (f.atoms ++ f'.atoms)
      ((" " ++ k.word ++ " ").intercalate [s, s']).toList := by
    have hchain : Written (Level.chain k g [g']) _ _ := hg.connect hg'
    rw [String.toList_intercalate]
    simpa [Token.separator, List.intercalate_cons_cons] using hchain
  have htext : (Text.joinFragments k [s, s']).toList = "(".toList ++
      (((" " ++ k.word ++ " ").intercalate [s, s']).toList ++ ")".toList) := by
    have hlast : ((" " ++ k.word ++ " ").intercalate [s']).toList = s'.toList := by
      simp
    have hparts : [s, s'].filter (fun p => !p.isEmpty) = [s, s'] := by simp [hs, hs']
    rw [Text.joinFragments, hparts]
    refine Text.toList_bracket_intercalate k ?_ ?_
    · rw [hlast]
      exact hg'.ne_nil
    · rw [hlast]
      exact hg'.opened
  rw [htext, hpair.enclose.parse, Level.close_chain]
  rfl

end QueryCompiler
