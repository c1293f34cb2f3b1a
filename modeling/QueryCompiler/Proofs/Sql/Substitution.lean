import QueryCompiler.Condition.Resolve
import QueryCompiler.Proofs.Sql.Filling
import QueryCompiler.Proofs.Sql.Reading

/-!
# Columns that are filled verbatim

What is filled holds more dots and letters of paths than what it was filled for, so a step that finds
something in a column cannot be undone by later ones. For each column in which a slot begins, there
is a template that shows it; in the templates of comparisons and searches it is the slot of the path
that counts.
-/

namespace QueryCompiler

/-! ## Columns that keep clear of slots -/

namespace Text

/-- A character that stands in no slot, but in each path and in each column behind an alias. -/
def isFresh (c : Char) : Bool :=
  c == '.' || c == 'v'

/-- Replacing a text without fresh characters by one that has some, leaves more of them. -/
theorem countP_replaceAll {pat rep : List Char} (hne : pat ≠ []) (hpat : pat.countP isFresh = 0)
    (hrep : 0 < rep.countP isFresh) (s : List Char) :
    s.countP isFresh ≤ (replaceAll pat rep s).countP isFresh ∧
      (occursIn pat s = true → s.countP isFresh < (replaceAll pat rep s).countP isFresh) := by
  induction hn : s.length using Nat.strong_induction_on generalizing s with
  | _ n ih =>
    subst hn
    cases s with
    | nil =>
      refine ⟨le_rfl, fun h => absurd (List.isEmpty_iff.1 h) hne⟩
    | cons c s =>
      by_cases hpre : pat <+: c :: s
      · obtain ⟨t, ht⟩ := hpre
        have hlt : t.length < (c :: s).length := by
          rw [← ht, List.length_append]
          have := List.length_pos_of_ne_nil hne
          omega
        have hle := (ih _ hlt t rfl).1
        rw [← ht, replaceAll_pat_append hne, List.countP_append, List.countP_append, hpat]
        exact ⟨by omega, fun _ => by omega⟩
      · obtain ⟨hle, hlt⟩ := ih s.length (by simp) s rfl
        have hpre' : pat.isPrefixOf (c :: s) = false := by
          rw [Bool.eq_false_iff]
          exact fun h => hpre (List.isPrefixOf_iff_prefix.1 h)
        rw [replaceAll_cons_of_not hpre, occursIn, hpre', Bool.false_or, List.countP_cons,
          List.countP_cons]
        exact ⟨by omega, fun h => by have := hlt h; omega⟩

/-- If replacing leaves no more fresh characters, it found nothing to replace. -/
theorem not_occursIn_of_countP {pat rep s : List Char} (hne : pat ≠ [])
    (hpat : pat.countP isFresh = 0) (hrep : 0 < rep.countP isFresh)
    (h : (replaceAll pat rep s).countP isFresh ≤ s.countP isFresh) : occursIn pat s = false := by
  rw [Bool.eq_false_iff]
  exact fun hocc => absurd ((countP_replaceAll hne hpat hrep s).2 hocc) (by omega)

theorem countP_valuePath (base : String) : 0 < (Params.valuePath base).toList.countP isFresh := by
  rw [List.countP_pos_iff]
  refine ⟨'v', ?_, rfl⟩
  by_cases hbase : base = ""
  · subst hbase
    decide
  · rw [Params.valuePath, Params.childPath_of_ne hbase]
    simp

end Text

namespace Column

variable {c : Column}

/-- The text of a column behind an alias. -/
theorem text_of_qualified (h : c.qualifier ≠ .bare) :
    ∃ s, c.text.toList = 't' :: s ∧ '.' ∈ s := by
  obtain ⟨qualifier, name⟩ := c
  cases qualifier with
  | bare => exact absurd rfl h
  | row => exact ⟨'.' :: name.toList, by simp [text, rowAlias], List.mem_cons_self⟩
  | table n =>
    exact ⟨(Nat.repr n).toList ++ '.' :: name.toList, by simp [text, tableAlias], by simp⟩

theorem countP_text (h : c.qualifier ≠ .bare) : 0 < c.text.toList.countP Text.isFresh := by
  obtain ⟨s, htext, hdot⟩ := text_of_qualified h
  rw [htext, List.countP_pos_iff]
  exact ⟨'.', List.mem_cons_of_mem _ hdot, rfl⟩

/-- Neither a slot of a column nor one of a path begins in the text of the column. -/
def IsClear (c : Column) : Prop :=
  Text.beginsIn "$COL".toList c.text.toList = false ∧
    Text.beginsIn "EXPR".toList c.text.toList = false

end Column

namespace Part

variable {n : Nat} {p : Part}

theorem not_mem_source (h : p ∈ slots n) :
    't' ∉ p.source ∧ p.source.countP Text.isFresh = 0 := by
  rw [List.countP_eq_zero]
  rcases mem_slots.1 h with ⟨i, -, rfl⟩ | ⟨-, rfl⟩ | rfl
  · have hrepr (c : Char) (hc : c.isDigit = false) : c ∉ Nat.toDigits 10 i := by
      rw [← Nat.toList_repr]
      exact Params.not_mem_repr hc i
    refine ⟨by simp [source, columnSlot, hrepr], fun c hc hfresh => ?_⟩
    have hcases : c = '.' ∨ c = 'v' := by simpa [Text.isFresh] using hfresh
    rcases hcases with rfl | rfl <;> simp [source, columnSlot, hrepr] at hc
  · simp [source, Text.isFresh]
  · simp [source, Text.isFresh]

/-- The step of a slot leaves no fewer fresh characters, and as many only where it changes
nothing. -/
theorem step_eq_of_countP {rep s : List Char} (hp : p ∈ slots n)
    (hrep : 0 < rep.countP Text.isFresh) :
    s.countP Text.isFresh ≤ (Text.replaceAll p.source rep s).countP Text.isFresh ∧
      ((Text.replaceAll p.source rep s).countP Text.isFresh ≤ s.countP Text.isFresh →
        Text.replaceAll p.source rep s = s ∧ Text.occursIn p.source s = false) := by
  have hne := source_ne_nil hp
  have hpat := (not_mem_source hp).2
  refine ⟨(Text.countP_replaceAll hne hpat hrep s).1, fun h => ?_⟩
  have hocc := Text.not_occursIn_of_countP hne hpat hrep h
  exact ⟨Text.replaceAll_of_not_occursIn hocc, hocc⟩

/-- The steps of numbered slots leave no fewer fresh characters, and as many only where they change
nothing. -/
theorem foldr_eq_of_countP {cs : List String}
    (hcs : ∀ c ∈ cs, 0 < c.toList.countP Text.isFresh) (k : Nat) (s : String) :
    let out := (cs.zipIdx k).foldr (fun p s => Text.replace s (columnSlot p.2) p.1) s
    s.toList.countP Text.isFresh ≤ out.toList.countP Text.isFresh ∧
      (out.toList.countP Text.isFresh ≤ s.toList.countP Text.isFresh → out = s) := by
  induction cs generalizing k with
  | nil => exact ⟨le_rfl, fun _ => rfl⟩
  | cons c cs ih =>
    obtain ⟨hle, heq⟩ := ih (fun c hc => hcs c (List.mem_cons_of_mem _ hc)) (k + 1)
    rw [List.zipIdx_cons, List.foldr_cons]
    generalize (cs.zipIdx (k + 1)).foldr _ s = mid at hle heq
    have hslot : numbered k ∈ slots (k + 1) := mem_slots.2 (.inl ⟨k, by omega, rfl⟩)
    obtain ⟨hstep, hsame⟩ := step_eq_of_countP (s := mid.toList) hslot (hcs c List.mem_cons_self)
    dsimp only
    rw [Text.toList_replace]
    refine ⟨hle.trans hstep, fun h => ?_⟩
    have hmid := heq (hstep.trans h)
    have hreplace := (hsame (h.trans hle)).1
    rw [← hmid, ← String.toList_inj, Text.toList_replace]
    exact hreplace

theorem clear_of_isClear {columns : List Column} (hcolumns : ∀ c ∈ columns, c.qualifier ≠ .bare)
    (h : ∀ c ∈ columns, c.IsClear) : Clear (columns.map Column.text) := by
  intro text htext p hp
  obtain ⟨c, hc, rfl⟩ := List.mem_map.1 htext
  obtain ⟨s, hcons, -⟩ := Column.text_of_qualified (hcolumns c hc)
  obtain ⟨hcolumn, hpath⟩ := h c hc
  refine Text.clears_iff.2 ⟨?_, ?_⟩
  · rcases mem_slots.1 hp with ⟨i, -, rfl⟩ | ⟨-, rfl⟩ | rfl
    · have hpre : "$COL".toList <+: (numbered i).source :=
        ⟨"[".toList ++ (Nat.repr i).toList ++ "]".toList, by simp [source, columnSlot]⟩
      exact Text.beginsIn_mono hpre hcolumn
    · exact hcolumn
    · exact hpath
  · rw [hcons]
    exact Text.beginsIn_of_notMem (not_mem_source hp).1

/-- Characters with which no slot begins are read as they stand. -/
theorem reads_chars {w : List Char} (hdollar : '$' ∉ w) (hletter : 'E' ∉ w) :
    Reads n (w.map .char) ∧ (w.map char).flatMap source = w := by
  induction w with
  | nil => exact ⟨.nil, rfl⟩
  | cons c w ih =>
    rw [List.mem_cons, not_or] at hdollar hletter
    obtain ⟨hreads, hsource⟩ := ih hdollar.2 hletter.2
    refine ⟨.char (fun q hq hpre => ?_) hreads, congrArg (c :: ·) hsource⟩
    obtain ⟨x, t, hq, hx, -⟩ := source_eq_cons hq
    rw [hq] at hpre
    rcases hx with rfl | rfl
    · exact hdollar.1 (List.cons_prefix_cons.1 hpre).1
    · exact hletter.1 (List.cons_prefix_cons.1 hpre).1

/-- What begins in a text is ended by characters with which no slot begins. -/
theorem exists_infix_of_beginsIn {q : Part} (hq : q ∈ slots n) {s : List Char}
    (h : Text.beginsIn q.source s = true) :
    ∃ w, '$' ∉ w ∧ 'E' ∉ w ∧ q.source <:+: s ++ w := by
  obtain ⟨u, hne, ⟨v, rfl⟩, hagree⟩ := Text.beginsIn_iff.1 h
  obtain ⟨x, t, hsource, -, hdollar, hletter⟩ := source_eq_cons hq
  rcases Text.agree_iff.1 hagree with hpre | ⟨w, hw⟩
  · exact ⟨[], List.not_mem_nil, List.not_mem_nil, by
      rw [List.append_nil]
      exact hpre.isInfix.trans (List.suffix_append v u).isInfix⟩
  · obtain ⟨y, u, rfl⟩ := List.exists_cons_of_ne_nil hne
    rw [hsource, List.cons_append] at hw
    have hsub : w ⊆ t := by
      rw [← (List.cons.inj hw).2]
      exact List.subset_append_right u w
    refine ⟨w, fun h => hdollar (hsub h), fun h => hletter (hsub h), v, [], ?_⟩
    rw [hsource, ← hw]
    simp

theorem reads_numbered {i : Nat} (hi : i < n) {w : List Char} (hdollar : '$' ∉ w)
    (hletter : 'E' ∉ w) : Reads n (.numbered i :: w.map .char) ∧
      (.numbered i :: w.map char).flatMap source = (columnSlot i).toList ++ w := by
  obtain ⟨hreads, hsource⟩ := reads_chars (n := n) hdollar hletter
  refine ⟨.slot (mem_slots.2 (.inl ⟨i, hi, rfl⟩)) nofun hreads, ?_⟩
  rw [List.flatMap_cons, hsource]
  rfl

/-- The steps of later slots do nothing to a template of one numbered slot. -/
theorem foldr_numbered_later {i k : Nat} (hik : i < k) {template : String} {w : List Char}
    (hdollar : '$' ∉ w) (hletter : 'E' ∉ w)
    (htemplate : template.toList = (columnSlot i).toList ++ w) (cs : List String) :
    (cs.zipIdx k).foldr (fun p s => Text.replace s (columnSlot p.2) p.1) template = template := by
  induction cs generalizing k with
  | nil => rfl
  | cons c cs ih =>
    obtain ⟨hreads, hsource⟩ := reads_numbered (Nat.lt_succ_of_lt hik) hdollar hletter
    have hstage : Stage (k + 1) source := ⟨fun _ => rfl, fun _ _ => .inl rfl⟩
    have hslot : numbered k ∈ slots (k + 1) := mem_slots.2 (.inl ⟨k, by omega, rfl⟩)
    have hstep := hstage.replace_slot hreads hslot rfl nofun c.toList
    rw [List.zipIdx_cons, List.foldr_cons, ih (Nat.lt_succ_of_lt hik), ← String.toList_inj,
      Text.toList_replace, htemplate, ← hsource]
    refine hstep.trans (List.flatMap_congr fun p hp => if_neg ?_)
    rintro rfl
    rcases List.mem_cons.1 hp with hp | hp
    · cases hp
      omega
    · simp at hp

theorem toList_fillTemplate_of_cons {columns ds : List String} {d : String}
    (h : columns = d :: ds) (template path : String) :
    (fillTemplate template columns path).toList =
      Text.replaceAll Part.path.source path.toList (Text.replaceAll first.source d.toList
        (columns.zipIdx.foldr (fun p s => Text.replace s (columnSlot p.2) p.1)
          template).toList) := by
  subst h
  rw [fillTemplate, Text.toList_replace, Text.toList_replace]
  rfl

/-- If a slot begins in a column, there is a template in which the column is filled in turn. -/
theorem exists_fillTemplate_ne {pre post : List String} {c : String} {q : Part}
    (hfresh : ∀ d ∈ pre ++ c :: post, 0 < d.toList.countP Text.isFresh)
    (hq : q = .first ∨ q = .path) (hbegins : Text.beginsIn q.source c.toList = true)
    {path : String} (hpath : 0 < path.toList.countP Text.isFresh) :
    ∃ template, fillTemplate template (pre ++ c :: post) path ≠
      fillOnce template (pre ++ c :: post) path := by
  have hlength : pre.length < (pre ++ c :: post).length := by simp
  have hfirst : first ∈ slots (pre ++ c :: post).length := mem_slots.2 (.inr (.inl ⟨by simp, rfl⟩))
  have hlast : Part.path ∈ slots (pre ++ c :: post).length := mem_slots.2 (.inr (.inr rfl))
  have hslot : q ∈ slots (pre ++ c :: post).length := by rcases hq with rfl | rfl <;> assumption
  obtain ⟨w, hdollar, hletter, hinfix⟩ := exists_infix_of_beginsIn hslot hbegins
  obtain ⟨hreads, hsource⟩ := reads_numbered hlength hdollar hletter
  generalize htemplate : String.ofList ((columnSlot pre.length).toList ++ w) = template
  have htoList : template.toList = (columnSlot pre.length).toList ++ w := by
    rw [← htemplate, String.toList_ofList]
  have honce : (fillOnce template (pre ++ c :: post) path).toList = c.toList ++ w := by
    obtain ⟨hread, hback⟩ := reads_read (pre ++ c :: post).length template.toList
    have hparts := hread.unique hreads (by rw [hback, hsource, htoList])
    have hchars : (w.map char).flatMap (filled (pre ++ c :: post) path) = w := by
      rw [List.flatMap_map]
      exact List.flatMap_singleton' w
    rw [fillOnce, String.toList_ofList, hparts, List.flatMap_cons, hchars]
    simp [filled]
  obtain ⟨d, ds, hcons⟩ : ∃ d ds, pre ++ c :: post = d :: ds := by
    cases pre with
    | nil => exact ⟨c, post, rfl⟩
    | cons d pre => exact ⟨d, pre ++ c :: post, rfl⟩
  -- What stands once the column is put in: nothing may be filled from here on.
  have hmid : (Text.replace template (columnSlot pre.length) c).toList = c.toList ++ w := by
    have hw : Text.replaceAll (columnSlot pre.length).toList c.toList w = w := by
      have h := Text.replaceAll_append_of_notMem (p := "COL[".toList ++
        (Nat.repr pre.length).toList ++ "]".toList) c.toList hdollar []
      simpa [columnSlot] using h
    have hne : (columnSlot pre.length).toList ≠ [] :=
      source_ne_nil (mem_slots.2 (.inl ⟨pre.length, hlength, rfl⟩))
    rw [Text.toList_replace, htoList, Text.replaceAll_pat_append hne, hw]
  refine ⟨template, fun heq => ?_⟩
  have hsteps := congrArg String.toList heq
  rw [honce, toList_fillTemplate_of_cons hcons, List.zipIdx_append, List.foldr_append,
    List.zipIdx_cons, List.foldr_cons, Nat.zero_add,
    foldr_numbered_later (Nat.lt_succ_self _) hdollar hletter htoList] at hsteps
  obtain ⟨hgrow, hsame⟩ := foldr_eq_of_countP
    (fun d hd => hfresh d (List.mem_append_left _ hd)) 0
    (Text.replace template (columnSlot pre.length) c)
  generalize (pre.zipIdx 0).foldr _ _ = out at hsteps hgrow hsame
  rw [hmid] at hgrow hsame
  have hd : 0 < d.toList.countP Text.isFresh :=
    hfresh d (by rw [hcons]; exact List.mem_cons_self)
  obtain ⟨hgrow', hsame'⟩ := step_eq_of_countP (s := out.toList) hfirst hd
  obtain ⟨hgrow'', hsame''⟩ := step_eq_of_countP
    (s := Text.replaceAll first.source d.toList out.toList) hlast hpath
  rw [hsteps] at hgrow'' hsame''
  obtain ⟨hpathStep, hnoPath⟩ := hsame'' (hgrow.trans hgrow')
  obtain ⟨hfirstStep, hnoFirst⟩ := hsame' (hgrow''.trans hgrow)
  have hocc : Text.occursIn q.source (c.toList ++ w) = false := by
    rcases hq with rfl | rfl
    · rwa [← hfirstStep, ← hpathStep] at hnoFirst
    · rwa [← hpathStep] at hnoPath
  rw [Text.occursIn_iff.2 hinfix] at hocc
  exact Bool.noConfusion hocc

end Part

/-! ## Templates over one column -/

namespace Slot

/-- What a part of a template over one column is read as. -/
def parts : Slot → List Part
  | .text s => s.toList.map .char
  | .column => [.first]
  | .path => [.path]

theorem flatMap_parts (slots : List Slot) (column path : String) :
    (slots.flatMap parts).flatMap (Part.filled [column] path) =
      slots.flatMap (filled column.toList path.toList) := by
  rw [List.flatMap_assoc]
  refine List.flatMap_congr fun slot _ => ?_
  cases slot with
  | text s =>
    rw [parts, List.flatMap_map]
    exact List.flatMap_singleton' s.toList
  | column => exact List.flatMap_singleton _ _
  | path => exact List.flatMap_singleton _ _

theorem length_flatMap_filled (slots : List Slot) (column path : List Char) :
    (slots.flatMap (filled column path)).length =
      slots.count .column * column.length + (slots.flatMap (filled [] path)).length := by
  induction slots with
  | nil => simp
  | cons slot slots ih =>
    rw [List.flatMap_cons, List.flatMap_cons, List.length_append, List.length_append, ih,
      List.count_cons]
    cases slot with
    | text s => simp [filled]; omega
    | column => simp [filled, Nat.add_mul]; omega
    | path => simp [filled]; omega

/-- A template with its column tells what was put in for the column. -/
theorem filled_inj {slots : List Slot} (h : .column ∈ slots) {column column' path : List Char}
    (heq : slots.flatMap (filled column path) = slots.flatMap (filled column' path)) :
    column = column' := by
  have hlength : column.length = column'.length := by
    have hsum := congrArg List.length heq
    rw [length_flatMap_filled slots column, length_flatMap_filled slots column',
      Nat.add_right_cancel_iff] at hsum
    exact Nat.eq_of_mul_eq_mul_left (List.count_pos_iff.2 h) hsum
  induction slots with
  | nil => exact absurd h List.not_mem_nil
  | cons slot slots ih =>
    rw [List.flatMap_cons, List.flatMap_cons] at heq
    cases slot with
    | column => exact (List.append_inj heq hlength).1
    | text | path =>
      exact ih (by simpa using h) (List.append_inj heq rfl).2

end Slot

theorem Operator.read_template {op : Operator} {t : String} (h : op.template? = some t) :
    Part.read 1 t.toList = op.slots.flatMap Slot.parts ∧ .column ∈ op.slots := by
  cases op <;> simp only [template?, Option.some.injEq, reduceCtorEq] at h <;> subst h <;>
    exact ⟨by decide +kernel, by decide⟩

theorem Dialect.read_searchTemplate {d : Dialect} {mode : SearchMode} {t : String}
    (h : d.searchTemplate mode = .ok t) :
    Part.read 1 t.toList = (d.searchSlots mode).flatMap Slot.parts ∧
      .column ∈ d.searchSlots mode := by
  cases d <;> cases mode <;> simp only [searchTemplate, Except.ok.injEq, reduceCtorEq] at h <;>
    subst h <;> exact ⟨by decide +kernel, by decide⟩

/-- In a spaced template over one column, the slots of a path that stand in the column are filled
too, and those only. -/
theorem Slot.fillTemplate_eq {slots : List Slot} {template : String}
    (htemplate : template.toList = slots.flatMap Slot.source) (hspaced : spaced slots = true)
    (hread : Part.read 1 template.toList = slots.flatMap parts ∧ .column ∈ slots)
    (column base : String) :
    fillTemplate template [column] (Params.valuePath base) =
        fillOnce template [Text.replace column "EXPR" (Params.valuePath base)]
          (Params.valuePath base) ∧
      (fillTemplate template [column] (Params.valuePath base) =
          fillOnce template [column] (Params.valuePath base) ↔
        Text.contains column "EXPR" = false) := by
  have honce (c : String) : (fillOnce template [c] (Params.valuePath base)).toList =
      slots.flatMap (filled c.toList (Params.valuePath base).toList) := by
    rw [fillOnce, String.toList_ofList, List.length_singleton, hread.1, flatMap_parts]
  have hfill : (fillTemplate template [column] (Params.valuePath base)).toList =
      slots.flatMap (filled (Text.replaceAll "EXPR".toList (Params.valuePath base).toList
        column.toList) (Params.valuePath base).toList) := toList_fillTemplate htemplate hspaced
  refine ⟨?_, ?_⟩
  · rw [← String.toList_inj, hfill, honce, Text.toList_replace]
  rw [← String.toList_inj, hfill, honce, Text.contains]
  constructor
  · intro heq
    have hsame := filled_inj hread.2 heq
    refine Text.not_occursIn_of_countP (by decide) (by decide) (Text.countP_valuePath base) ?_
    rw [hsame]
  · intro hocc
    rw [Text.replaceAll_of_not_occursIn hocc]

/-! ## When columns are filled verbatim -/

/-- A comparison by a fixed template, and a search, name their column with the path of the value put
for each slot of a path in it, so verbatim exactly if it has none. Any template is filled in one
pass if no slot begins or ends in a column; columns behind an alias are verbatim in all templates
exactly if neither a slot of a column nor one of a path begins in them. -/
theorem fillTemplate_verbatim_iff (base : String) :
    (∀ (op : Operator) (template : String), op.template? = some template →
      ∀ (column : Column) (value : Value),
        ∃ r, op.resolve column base value = .ok r ∧
          r.text = fillOnce template [Text.replace column.text "EXPR" (Params.valuePath base)]
            (Params.valuePath base) ∧
          (r.text = fillOnce template [column.text] (Params.valuePath base) ↔
            Text.contains column.text "EXPR" = false)) ∧
    (∀ (d : Dialect) (mode : SearchMode) (template : String),
      d.searchTemplate mode = .ok template → ∀ column : Column,
        Filled.text ⟨template, [column], Params.valuePath base⟩ =
            fillOnce template [Text.replace column.text "EXPR" (Params.valuePath base)]
              (Params.valuePath base) ∧
          (Filled.text ⟨template, [column], Params.valuePath base⟩ =
              fillOnce template [column.text] (Params.valuePath base) ↔
            Text.contains column.text "EXPR" = false)) ∧
    (∀ columns : List String, Part.Clear columns → ∀ template path : String,
      fillTemplate template columns path = fillOnce template columns path) ∧
    ∀ columns : List Column, (∀ c ∈ columns, c.qualifier ≠ .bare) →
      ((∀ template : String, Filled.text ⟨template, columns, Params.valuePath base⟩ =
          fillOnce template (columns.map Column.text) (Params.valuePath base)) ↔
        ∀ c ∈ columns, c.IsClear) := by
  refine ⟨?_, ?_, fun columns h template path => fillTemplate_eq_fillOnce h template path, ?_⟩
  · intro op template htemplate column value
    have hfilled : (op.filled column base value).text =
        fillTemplate template [column.text] (Params.valuePath base) := by
      rw [Operator.filled, Predicate.text, Filled.text, htemplate]
      rfl
    refine ⟨op.filled column base value, ?_, ?_⟩
    · cases op <;> first | rfl | simp [Operator.template?] at htemplate
    · rw [hfilled]
      exact Slot.fillTemplate_eq (Operator.toList_template htemplate) op.spaced_slots
        (Operator.read_template htemplate) column.text base
  · intro d mode template htemplate column
    exact Slot.fillTemplate_eq (Dialect.toList_searchTemplate htemplate)
      (d.spaced_searchSlots mode) (Dialect.read_searchTemplate htemplate) column.text base
  · intro columns hcolumns
    refine ⟨fun h c hc => ?_, fun h template => ?_⟩
    · have hfresh : ∀ text ∈ columns.map Column.text, 0 < text.toList.countP Text.isFresh := by
        intro text htext
        obtain ⟨c, hc, rfl⟩ := List.mem_map.1 htext
        exact Column.countP_text (hcolumns c hc)
      obtain ⟨pre, post, hsplit⟩ :=
        List.append_of_mem (List.mem_map_of_mem (f := Column.text) hc)
      rw [hsplit] at hfresh
      have hnot (q : Part) (hq : q = .first ∨ q = .path) :
          Text.beginsIn q.source c.text.toList = false := by
        rw [Bool.eq_false_iff]
        intro hbegins
        obtain ⟨template, hne⟩ := Part.exists_fillTemplate_ne hfresh hq hbegins
          (Text.countP_valuePath base)
        rw [← hsplit] at hne
        exact hne (h template)
      exact ⟨hnot .first (.inl rfl), hnot .path (.inr rfl)⟩
    · exact fillTemplate_eq_fillOnce (Part.clear_of_isClear hcolumns h) template _

/-- The column `aEXPRb` is renamed in a comparison. Behind an alias, `grade` is verbatim in all
templates, and `gradE` is not, since its end may be the beginning of a slot. -/
theorem aEXPRb_not_verbatim :
    (∃ r, Operator.resolve .eq ⟨.bare, "aEXPRb"⟩ "c1" (.int 1) = .ok r ∧
      r.text = "ac1.vb = #\x7bc1.v\x7d" ∧
      r.text ≠ fillOnce "$COL = #\x7bEXPR\x7d" ["aEXPRb"] "c1.v") ∧
    (∀ template : String, Filled.text ⟨template, [⟨.table 0, "grade"⟩], "c1.v"⟩ =
      fillOnce template ["t0.grade"] "c1.v") ∧
    ¬ ∀ template : String, Filled.text ⟨template, [⟨.table 0, "gradE"⟩], "c1.v"⟩ =
      fillOnce template ["t0.gradE"] "c1.v" := by
  obtain ⟨hoperator, -, -, hqualified⟩ := fillTemplate_verbatim_iff "c1"
  refine ⟨?_, ?_, ?_⟩
  · obtain ⟨r, hr, htext, hiff⟩ := hoperator .eq _ rfl ⟨.bare, "aEXPRb"⟩ (.int 1)
    refine ⟨r, hr, htext.trans (by decide), fun h => ?_⟩
    exact absurd (hiff.1 h) (by decide)
  · exact (hqualified [⟨.table 0, "grade"⟩] (by simp)).2 (by simp [Column.IsClear]; decide)
  · intro h
    have hclear := (hqualified [⟨.table 0, "gradE"⟩] (by simp)).1 h _ List.mem_cons_self
    exact absurd hclear.2 (by decide)

end QueryCompiler
