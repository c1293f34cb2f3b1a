import QueryCompiler.Proofs.Parameters.Paths
import QueryCompiler.Proofs.Text.Occurrences

/-!
# Templates filled in one pass

`fillOnce` reads a template once, from the left, and puts columns and the path for the slots that it
meets. `fillTemplate` goes over the text once for every slot, so it also fills what it finds in a
column that it has put in. Both agree as long as no slot begins or ends in a column
(`fillTemplate_eq_fillOnce`).
-/

namespace QueryCompiler

/-! ## Reading a template -/

/-- A part of a template: a character or a slot. -/
inductive Part where
  | char (c : Char)
  | numbered (i : Nat)
  | first
  | path
  deriving DecidableEq, Repr

namespace Part

/-- How a part is written. -/
def source : Part → List Char
  | .char c => [c]
  | .numbered i => (columnSlot i).toList
  | .first => "$COL".toList
  | .path => "EXPR".toList

/-- The slots of a template over `n` columns. A numbered slot is tried before that of the first
column, with which it begins. -/
def slots (n : Nat) : List Part :=
  (List.range n).map .numbered ++ ((if n = 0 then [] else [.first]) ++ [.path])

/-- The slot that the text begins with. -/
def opened? (n : Nat) (s : List Char) : Option Part :=
  (slots n).find? fun p => p.source.isPrefixOf s

/-- Passes over what is left of a slot that has been read, then reads on. -/
def readFrom (n : Nat) : Nat → List Char → List Part
  | _, [] => []
  | k + 1, _ :: s => readFrom n k s
  | 0, c :: s =>
    match opened? n (c :: s) with
    | some p => p :: readFrom n (p.source.length - 1) s
    | none => .char c :: readFrom n 0 s

/-- The parts of a template over `n` columns. -/
def read (n : Nat) (s : List Char) : List Part :=
  readFrom n 0 s

/-- What stands for a part once the template is filled. -/
def filled (columns : List String) (path : String) : Part → List Char
  | .char c => [c]
  | .numbered i => (columns.getD i "").toList
  | .first => (columns.headD "").toList
  | .path => path.toList

end Part

/-- The template with columns and the path for its slots, and all else as it stands. -/
def fillOnce (template : String) (columns : List String) (path : String) : String :=
  .ofList ((Part.read columns.length template.toList).flatMap (Part.filled columns path))

namespace Part

variable {n : Nat} {p q : Part} {s : List Char} {ms : List Part}

theorem mem_slots : p ∈ slots n ↔
    (∃ i < n, p = .numbered i) ∨ (n ≠ 0 ∧ p = .first) ∨ p = .path := by
  rw [slots, List.mem_append, List.mem_append, List.mem_map, List.mem_singleton]
  refine or_congr ?_ (or_congr_left ?_)
  · simp [eq_comm]
  · split <;> simp [*]

/-- A slot begins with a character that stands in no slot further on. -/
theorem source_eq_cons (h : p ∈ slots n) : ∃ x t, p.source = x :: t ∧ (x = '$' ∨ x = 'E') ∧
    '$' ∉ t ∧ 'E' ∉ t := by
  rcases mem_slots.1 h with ⟨i, -, rfl⟩ | ⟨-, rfl⟩ | rfl
  · have hrepr (c : Char) (hc : c.isDigit = false) : c ∉ Nat.toDigits 10 i := by
      rw [← Nat.toList_repr]
      exact Params.not_mem_repr hc i
    refine ⟨'$', "COL[".toList ++ (Nat.repr i).toList ++ "]".toList, ?_, .inl rfl, ?_, ?_⟩
    · simp [source, columnSlot]
    · simp [hrepr]
    · simp [hrepr]
  · exact ⟨'$', "COL".toList, rfl, .inl rfl, by decide, by decide⟩
  · exact ⟨'E', "XPR".toList, rfl, .inr rfl, by decide, by decide⟩

theorem source_ne_nil (h : p ∈ slots n) : p.source ≠ [] := by
  obtain ⟨x, t, heq, -⟩ := source_eq_cons h
  rw [heq]
  exact List.cons_ne_nil x t

/-- No slot begins with another one, but for a numbered slot with that of the first column. -/
theorem eq_of_opens (hp : p ∈ slots n) (hq : q ∈ slots n)
    (hnumbered : p = .first → ∀ i, q ≠ .numbered i) (hfirst : q = .first → ∀ i, p ≠ .numbered i) (h : q.source <+: p.source ++ s) : q = p := by
  rcases mem_slots.1 hq with ⟨i, -, rfl⟩ | ⟨-, rfl⟩ | rfl <;>
    rcases mem_slots.1 hp with ⟨j, -, rfl⟩ | ⟨-, rfl⟩ | rfl
  · obtain ⟨t, h⟩ := h
    simp only [source, columnSlot, String.toList_append, List.append_assoc,
      List.append_cancel_left_eq] at h
    rw [Params.repr_append_inj (c := ']') (by decide) h]
  · exact absurd rfl (hnumbered rfl i)
  · simp [source, columnSlot] at h
  · exact absurd rfl (hfirst rfl j)
  · rfl
  · simp [source] at h
  · simp [source, columnSlot] at h
  · simp [source] at h
  · rfl

/-- The parts are what their text is read as. -/
inductive Reads (n : Nat) : List Part → Prop
  | nil : Reads n []
  | char {c : Char} {ms : List Part} (hnone : ∀ q ∈ slots n, ¬ q.source <+: c :: ms.flatMap source)
      (hms : Reads n ms) : Reads n (.char c :: ms)
  | slot {p : Part} {ms : List Part} (hp : p ∈ slots n)
      (hnumbered : p = .first → ∀ i < n, ¬ (numbered i).source <+: p.source ++ ms.flatMap source)
      (hms : Reads n ms) : Reads n (p :: ms)

theorem Reads.slot_of_mem (hms : Reads n ms) (hp : p ∈ ms) : (∃ c, p = .char c) ∨ p ∈ slots n := by
  induction hms with
  | nil => exact absurd hp List.not_mem_nil
  | @char c _ _ _ ih =>
    rcases List.mem_cons.1 hp with rfl | hp
    · exact .inl ⟨c, rfl⟩
    · exact ih hp
  | slot hslot _ _ ih =>
    rcases List.mem_cons.1 hp with rfl | hp
    · exact .inr hslot
    · exact ih hp

/-- A text is made of parts that it is read as in one way only. -/
theorem Reads.unique {ms' : List Part} (hms : Reads n ms) (hms' : Reads n ms')
    (h : ms.flatMap source = ms'.flatMap source) : ms = ms' := by
  induction hms generalizing ms' with
  | nil =>
    cases hms' with
    | nil => rfl
    | char => simp [source] at h
    | slot hp => simp [source_ne_nil hp] at h
  | @char c ms hnone _ ih =>
    cases hms' with
    | nil => simp [source] at h
    | char _ hms' =>
      obtain ⟨rfl, hrest⟩ := List.cons.inj h
      rw [ih hms' hrest]
    | @slot p ms' hp _ hms' => exact absurd ⟨_, h.symm⟩ (hnone p hp)
  | @slot p ms hp hnumbered _ ih =>
    cases hms' with
    | nil => simp [source_ne_nil hp] at h
    | char hnone' => exact absurd ⟨_, h⟩ (hnone' p hp)
    | @slot q ms' hq hnumbered' hms' =>
      rw [List.flatMap_cons, List.flatMap_cons] at h
      have hqp : q = p := by
        refine eq_of_opens hp hq ?_ ?_ ⟨_, h.symm⟩
        · rintro rfl i rfl
          obtain ⟨i, hi, hsome⟩ | ⟨-, hsome⟩ | hsome := mem_slots.1 hq <;> cases hsome
          exact hnumbered rfl i hi ⟨_, h.symm⟩
        · rintro rfl i rfl
          obtain ⟨i, hi, hsome⟩ | ⟨-, hsome⟩ | hsome := mem_slots.1 hp <;> cases hsome
          exact hnumbered' rfl i hi ⟨_, h⟩
      subst hqp
      rw [ih hms' (List.append_cancel_left h)]

theorem readFrom_append (s t : List Char) : readFrom n s.length (s ++ t) = read n t := by
  induction s with
  | nil => rfl
  | cons c s ih => exact ih

theorem opened?_eq_some (h : opened? n s = some p) : p ∈ slots n ∧ p.source <+: s ∧
    (p = .first → ∀ i < n, ¬ (numbered i).source <+: s) := by
  rw [opened?, slots] at h
  have hmem := List.mem_of_find?_eq_some h
  have hpre := List.find?_some h
  refine ⟨hmem, List.isPrefixOf_iff_prefix.1 hpre, ?_⟩
  rintro rfl i hi hnumbered
  rw [List.find?_append] at h
  have hsome : ((List.range n).map numbered).find? (fun p => p.source.isPrefixOf s) ≠ none := by
    rw [Ne, List.find?_eq_none]
    exact fun hall => hall (numbered i) (List.mem_map_of_mem (List.mem_range.2 hi))
      (List.isPrefixOf_iff_prefix.2 hnumbered)
  obtain ⟨q, hq⟩ := Option.ne_none_iff_exists'.1 hsome
  rw [hq, Option.some_or, Option.some.injEq] at h
  have hmem := List.mem_of_find?_eq_some hq
  rw [h] at hmem
  simp at hmem

/-- A template is read as parts of which it is made. -/
theorem reads_read (n : Nat) (s : List Char) :
    Reads n (read n s) ∧ (read n s).flatMap source = s := by
  induction hlen : s.length using Nat.strong_induction_on generalizing s with
  | _ k ih =>
    subst hlen
    cases s with
    | nil => exact ⟨.nil, rfl⟩
    | cons c s =>
      cases hopened : opened? n (c :: s) with
      | none =>
        have hread : read n (c :: s) = .char c :: read n s := by
          simp [read, readFrom, hopened]
        obtain ⟨hreads, hsource⟩ := ih s.length (by simp) s rfl
        rw [hread, List.flatMap_cons, hsource]
        refine ⟨.char ?_ hreads, rfl⟩
        rw [hsource]
        intro q hq hpre
        rw [opened?, List.find?_eq_none] at hopened
        exact hopened q hq (List.isPrefixOf_iff_prefix.2 hpre)
      | some p =>
        obtain ⟨hp, ⟨t, ht⟩, hnumbered⟩ := opened?_eq_some hopened
        obtain ⟨x, r, hsource, -⟩ := source_eq_cons hp
        have hread : read n (c :: s) = p :: read n t := by
          have hs : s = r ++ t := by
            rw [hsource] at ht
            exact (List.cons.inj ht).2.symm
          have hlength : p.source.length - 1 = r.length := by rw [hsource]; rfl
          rw [read, readFrom, hopened, hs]
          dsimp only
          rw [hlength, readFrom_append]
        obtain ⟨hreads, hrest⟩ := ih t.length (by
          rw [← ht, List.length_append, hsource, List.length_cons]
          omega) t rfl
        rw [hread, List.flatMap_cons, hrest]
        refine ⟨.slot hp ?_ hreads, ht⟩
        rw [hrest, ht]
        exact hnumbered

/-! ## One step -/

/-- What stands for the slots at some step: a slot as it is written, or a text that keeps clear of
all slots. -/
structure Stage (n : Nat) (f : Part → List Char) : Prop where
  char : ∀ c, f (.char c) = [c]
  slot : ∀ p ∈ slots n, f p = p.source ∨ ∀ q ∈ slots n, Text.clears (f p) q.source = true

variable {f : Part → List Char}

/-- A slot that begins anywhere in the text of a stage, begins so in the template. -/
theorem Stage.prefix_source (hf : Stage n f) (hms : Reads n ms) (hq : q ∈ slots n) {l : List Char}
    (h : q.source <+: l ++ ms.flatMap f) : q.source <+: l ++ ms.flatMap source := by
  induction hms generalizing l with
  | nil => exact h
  | @char c ms _ _ ih =>
    rw [List.flatMap_cons, hf.char, ← List.append_assoc] at h
    rw [List.flatMap_cons, ← List.append_assoc]
    exact ih h
  | @slot p ms hp _ _ ih =>
    rw [List.flatMap_cons] at h ⊢
    rcases hf.slot p hp with hfp | hfp
    · rw [hfp, ← List.append_assoc] at h
      rw [← List.append_assoc]
      exact ih h
    · have hclear := (Text.clears_iff.1 (hfp q hq)).2
      exact (Text.prefix_of_prefix_append hclear h).trans (List.prefix_append _ _)

/-- A step puts a text for one slot, and leaves all else as it was. -/
theorem Stage.replace_slot (hf : Stage n f) (hms : Reads n ms) (hq : q ∈ slots n)
    (hsource : f q = q.source)
    (hfirst : q = .first → ∀ i < n, f (.numbered i) ≠ (numbered i).source) (rep : List Char) :
    Text.replaceAll q.source rep (ms.flatMap f) =
      ms.flatMap fun p => if p = q then rep else f p := by
  induction hms with
  | nil => rfl
  | @char c ms hnone hms ih =>
    have hne : Part.char c ≠ q := by
      rintro rfl
      simp [mem_slots] at hq
    have hnot : ¬ q.source <+: c :: ms.flatMap f :=
      fun h => hnone q hq (hf.prefix_source hms hq (l := [c]) h)
    rw [List.flatMap_cons, List.flatMap_cons, hf.char c, List.singleton_append,
      Text.replaceAll_cons_of_not hnot, ih, if_neg hne, List.singleton_append]
  | @slot p ms hp hnumbered hms ih =>
    rw [List.flatMap_cons, List.flatMap_cons]
    by_cases hpq : p = q
    · rw [hpq, hsource, Text.replaceAll_pat_append (source_ne_nil hq), ih, if_pos rfl]
    · rw [if_neg hpq]
      rcases hf.slot p hp with hfp | hfp
      · have hnot : ¬ q.source <+: f p ++ ms.flatMap f := by
          intro h
          have h := hf.prefix_source hms hq h
          rw [hfp] at h
          refine hpq (eq_of_opens hp hq ?_ ?_ h).symm
          · rintro rfl i rfl
            obtain ⟨i, hi, hsome⟩ | ⟨-, hsome⟩ | hsome := mem_slots.1 hq <;> cases hsome
            exact hnumbered rfl i hi h
          · rintro rfl i rfl
            obtain ⟨i, hi, hsome⟩ | ⟨-, hsome⟩ | hsome := mem_slots.1 hp <;> cases hsome
            exact hfirst rfl i hi hfp
        obtain ⟨x, t, hpsource, -, hdollar, hletter⟩ := source_eq_cons hp
        obtain ⟨y, r, hqsource, hy, -⟩ := source_eq_cons hq
        have hyt : y ∉ t := by rcases hy with rfl | rfl <;> assumption
        rw [hfp, hpsource, List.cons_append] at hnot ⊢
        rw [Text.replaceAll_cons_of_not hnot, hqsource, Text.replaceAll_append_of_notMem rep hyt,
          ← hqsource, ih, List.cons_append]
      · rw [Text.replaceAll_append_of_not_beginsIn (Text.clears_iff.1 (hfp q hq)).1, ih]

/-! ## All steps -/

/-- What stands for the slots once those from `k` on are filled. -/
def numberedFrom (columns : List String) (k : Nat) : Part → List Char
  | .numbered i => if k ≤ i then (columns.getD i "").toList else (numbered i).source
  | p => p.source

/-- No slot of a template over these columns begins or ends in one of them. -/
def Clear (columns : List String) : Prop :=
  ∀ c ∈ columns, ∀ p ∈ slots columns.length, Text.clears c.toList p.source = true

variable {columns : List String} {path : String}

theorem Clear.getD (h : Clear columns) {i : Nat} (hi : i < columns.length) :
    ∀ q ∈ slots columns.length, Text.clears (columns.getD i "").toList q.source = true := by
  have hget : columns.getD i "" = columns[i] := by simp [hi]
  rw [hget]
  exact h _ (List.getElem_mem hi)

theorem Clear.stage_numberedFrom (h : Clear columns) (k : Nat) :
    Stage columns.length (numberedFrom columns k) where
  char _ := rfl
  slot p hp := by
    rcases mem_slots.1 hp with ⟨i, hi, rfl⟩ | ⟨-, rfl⟩ | rfl
    · rw [numberedFrom]
      split
      · exact .inr (h.getD hi)
      · exact .inl rfl
    · exact .inl rfl
    · exact .inl rfl

/-- The steps of the numbered slots, from the last to the one at place `k`. -/
theorem Clear.foldr_numbered (h : Clear columns) {template : String}
    (hms : Reads columns.length ms) (htemplate : template.toList = ms.flatMap source)
    (cs : List String) (k : Nat) (hcs : columns.drop k = cs) :
    ((cs.zipIdx k).foldr (fun p s => Text.replace s (columnSlot p.2) p.1) template).toList =
      ms.flatMap (numberedFrom columns k) := by
  induction cs generalizing k with
  | nil =>
    have hk : columns.length ≤ k := List.drop_eq_nil_iff.1 hcs
    rw [List.zipIdx_nil, List.foldr_nil, htemplate]
    refine List.flatMap_congr fun p hp => ?_
    rcases hms.slot_of_mem hp with ⟨c, rfl⟩ | hp
    · rfl
    · rcases mem_slots.1 hp with ⟨i, hi, rfl⟩ | ⟨-, rfl⟩ | rfl
      · rw [numberedFrom, if_neg (by omega)]
      · rfl
      · rfl
  | cons c cs ih =>
    have hk : k < columns.length := by
      by_contra hge
      rw [List.drop_eq_nil_of_le (by omega)] at hcs
      exact absurd hcs (List.cons_ne_nil c cs).symm
    rw [List.drop_eq_getElem_cons hk, List.cons.injEq] at hcs
    obtain ⟨hc, hcs⟩ := hcs
    have hget : columns.getD k "" = c := by simp [hk, hc]
    have hslot : numbered k ∈ slots columns.length := mem_slots.2 (.inl ⟨k, hk, rfl⟩)
    have hopen : numberedFrom columns (k + 1) (.numbered k) = (numbered k).source :=
      if_neg (by omega)
    rw [List.zipIdx_cons, List.foldr_cons, Text.toList_replace, ih (k + 1) hcs]
    refine ((h.stage_numberedFrom (k + 1)).replace_slot hms hslot hopen nofun _).trans ?_
    refine List.flatMap_congr fun p _ => ?_
    cases p with
    | char | first | path => rfl
    | numbered i =>
      simp only [numbered.injEq, numberedFrom]
      by_cases hik : i = k
      · rw [if_pos hik, if_pos (by omega), hik, hget]
      · rw [if_neg hik]
        by_cases hle : k ≤ i
        · rw [if_pos hle, if_pos (by omega)]
        · rw [if_neg hle, if_neg (by omega)]

theorem Clear.stage_filled (h : Clear columns) :
    Stage columns.length (filled columns "EXPR") where
  char _ := rfl
  slot p hp := by
    rcases mem_slots.1 hp with ⟨i, hi, rfl⟩ | ⟨hne, rfl⟩ | rfl
    · exact .inr (h.getD hi)
    · refine .inr fun q hq => ?_
      cases columns with
      | nil => exact absurd rfl hne
      | cons c cs => exact h c List.mem_cons_self q hq
    · exact .inl rfl

/-- The step of the first column, behind those of the numbered slots. -/
theorem Clear.replace_first {c : String} {cs : List String} (h : Clear (c :: cs))
    (hms : Reads (c :: cs).length ms) :
    Text.replaceAll "$COL".toList c.toList (ms.flatMap (numberedFrom (c :: cs) 0)) =
      ms.flatMap (filled (c :: cs) "EXPR") := by
  have hslot : first ∈ slots (c :: cs).length := mem_slots.2 (.inr (.inl ⟨by simp, rfl⟩))
  have hfilled : first = first → ∀ i < (c :: cs).length,
      numberedFrom (c :: cs) 0 (.numbered i) ≠ (numbered i).source := by
    intro _ i hi heq
    have hslot : numbered i ∈ slots (c :: cs).length := mem_slots.2 (.inl ⟨i, hi, rfl⟩)
    have hclear := h.getD hi (numbered i) hslot
    rw [show ((c :: cs).getD i "").toList = (numbered i).source from heq] at hclear
    exact Text.clears_self_ne_true (source_ne_nil hslot) hclear
  refine ((h.stage_numberedFrom 0).replace_slot hms hslot rfl hfilled _).trans ?_
  refine List.flatMap_congr fun p _ => ?_
  cases p with
  | char | first | path => rfl
  | numbered i => rfl

end Part

/-- Where no slot begins or ends in a column, the steps do not disturb each other. -/
theorem fillTemplate_eq_fillOnce {columns : List String} (h : Part.Clear columns)
    (template path : String) :
    fillTemplate template columns path = fillOnce template columns path := by
  obtain ⟨hms, hsource⟩ := Part.reads_read columns.length template.toList
  generalize hparts : Part.read columns.length template.toList = ms at hms hsource
  have hnumbered := h.foldr_numbered hms hsource.symm columns 0 rfl
  have hpath : Text.replaceAll "EXPR".toList path.toList
      (ms.flatMap (Part.filled columns "EXPR")) = ms.flatMap (Part.filled columns path) := by
    refine (h.stage_filled.replace_slot hms (Part.mem_slots.2 (.inr (.inr rfl))) rfl nofun
      _).trans ?_
    refine List.flatMap_congr fun p _ => ?_
    cases p <;> rfl
  rw [← String.toList_inj, fillOnce, String.toList_ofList, hparts, ← hpath]
  cases columns with
  | nil =>
    rw [fillTemplate, Text.toList_replace, hnumbered]
    congr 1
    refine List.flatMap_congr fun p hp => ?_
    rcases hms.slot_of_mem hp with ⟨c, rfl⟩ | hp
    · rfl
    · rcases Part.mem_slots.1 hp with ⟨i, hi, -⟩ | ⟨hne, -⟩ | rfl
      · exact absurd hi (Nat.not_lt_zero i)
      · exact absurd rfl hne
      · rfl
  | cons c cs =>
    rw [fillTemplate, Text.toList_replace, Text.toList_replace, hnumbered, h.replace_first hms]

end QueryCompiler
