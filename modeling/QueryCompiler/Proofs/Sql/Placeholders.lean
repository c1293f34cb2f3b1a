import QueryCompiler.Proofs.Parameters.Positional

/-!
# The placeholders of a filled template

A template names its value as `EXPR`, and an item of a list as `EXPR[i]`. No slot holds a character
of a placeholder's frame, so filling a template leaves the placeholders where they stand: a filled
template is the template with its literals and the contents of its placeholders filled one by one.
What it is lowered to is therefore told by the template (`Filled.lower_iff`).
-/

namespace QueryCompiler

open Params (IsPath itemPath)

/-- What a placeholder of a template asks for: the value, or the item of a list at a place. -/
inductive Ask where
  | whole
  | item (i : Nat)
  deriving DecidableEq, Repr

namespace Ask

/-- How it is written in a template. -/
def source : Ask → List Char
  | .whole => "EXPR".toList
  | .item i => (itemPath "EXPR" i).toList

/-- The path that it names once the template is filled. -/
def path (base : String) : Ask → String
  | .whole => base
  | .item i => itemPath base i

/-- What it asks of a value; an item of what is no list, or beyond its end, is missing. -/
def value? (v : Value) : Ask → Option Value
  | .whole => some v
  | .item i => v.items?.bind fun items => items[i]?

end Ask

/-- The placeholders of the template ask for these, in this order, and for nothing else. -/
def Asks (template : String) (asks : List Ask) : Prop :=
  ∃ cut : Cut, cut.Clean ∧ cut.text = template.toList ∧ cut.contents = asks.map Ask.source

/-- What is put for a slot, and can be no part of a placeholder's beginning there. -/
structure Text.IsInert (s : String) : Prop where
  nonempty : s ≠ ""
  hash : '#' ∉ s.toList
  brace : '\x7b' ∉ s.toList

/-! ## Steps that leave placeholders where they stand -/

namespace Cut

/-- The cut with its literals and contents changed one by one. -/
def map (f : List Char → List Char) : Cut → Cut
  | .last l => .last (f l)
  | .slot l content rest => .slot (f l) (f content) (rest.map f)

variable {f g : List Char → List Char}

theorem contents_map (f : List Char → List Char) (cut : Cut) :
    (cut.map f).contents = cut.contents.map f := by
  induction cut with
  | last l => rfl
  | slot l content rest ih => rw [map, contents, ih, contents, List.map_cons]

theorem map_map (f g : List Char → List Char) (cut : Cut) :
    (cut.map f).map g = cut.map (g ∘ f) := by
  induction cut with
  | last l => rfl
  | slot l content rest ih => rw [map, map, ih, map]; rfl

theorem Clean.map {cut : Cut} (h : cut.Clean)
    (hshut : ∀ l, ¬ Piece.Opens l → ¬ Piece.Opens (f l))
    (hcontents : ∀ content ∈ cut.contents, '\x7d' ∉ f content) : (cut.map f).Clean := by
  induction cut with
  | last l => exact hshut l h
  | slot l content rest ih =>
    obtain ⟨hl, -, hrest⟩ := h
    rw [contents, List.forall_mem_cons] at hcontents
    exact ⟨hshut l hl, hcontents.1, ih hrest hcontents.2⟩

/-- A change of texts that leaves the frames of placeholders alone, and makes none. -/
structure Step (f : List Char → List Char) : Prop where
  text : ∀ cut : Cut, f cut.text = (cut.map f).text
  shut : ∀ l, ¬ Piece.Opens l → ¬ Piece.Opens (f l)

theorem Step.comp (hg : Step g) (hf : Step f) : Step (g ∘ f) where
  text cut := by rw [Function.comp_apply, hf.text, hg.text, map_map]
  shut l hl := hg.shut _ (hf.shut l hl)

theorem step_id : Step id where
  text cut := by
    induction cut with
    | last l => rfl
    | slot l content rest ih =>
      exact congrArg (fun t => l ++ '#' :: '\x7b' :: (content ++ '\x7d' :: t)) ih
  shut l hl := hl

variable {pat rep : List Char}

/-- Nothing opens by replacing, as what is put in holds neither character of a frame. -/
theorem not_opens_replaceAll (hpat : pat ≠ []) (hrep : rep ≠ []) (hhash : '#' ∉ rep)
    (hbrace : '\x7b' ∉ rep) {l : List Char} (hl : ¬ Piece.Opens l) :
    ¬ Piece.Opens (Text.replaceAll pat rep l) := by
  induction hn : l.length using Nat.strong_induction_on generalizing l with
  | _ n ih =>
    subst hn
    cases l with
    | nil => exact hl
    | cons c l =>
      by_cases hpre : pat <+: c :: l
      · obtain ⟨t, ht⟩ := hpre
        have hlt : t.length < (c :: l).length := by
          rw [← ht, List.length_append]
          have := List.length_pos_of_ne_nil hpat
          omega
        rw [← ht] at hl ⊢
        have ht : ¬ Piece.Opens t :=
          fun hopens => hl (hopens.trans (List.suffix_append _ _).isInfix)
        rw [Text.replaceAll_pat_append hpat]
        exact Piece.not_opens_plain_append hhash (ih _ hlt ht rfl)
      · rw [Piece.opens_cons_iff, not_or, not_and] at hl
        rw [Text.replaceAll_cons_of_not hpre]
        refine Piece.not_opens_cons (ih l.length (by simp) hl.2 rfl) fun hc hhead => ?_
        rcases Text.head?_replaceAll hpat hrep l with heq | heq
        · exact hl.1 hc (heq ▸ hhead)
        · exact hbrace (List.mem_of_mem_head? (heq ▸ hhead))

/-- No occurrence of a slot reaches into the frame of a placeholder. -/
structure IsSlot (pat : List Char) : Prop where
  nonempty : pat ≠ []
  hash : '#' ∉ pat
  brace : '\x7b' ∉ pat
  close : '\x7d' ∉ pat

theorem step_replaceAll {s : String} (hpat : IsSlot pat) (hs : Text.IsInert s) :
    Step (Text.replaceAll pat s.toList) where
  text cut := by
    induction cut with
    | last l => rfl
    | slot l content rest ih =>
      have hopen := Text.replaceAll_append_sep hpat.nonempty hpat.brace s.toList []
        (content ++ '\x7d' :: rest.text)
      rw [List.nil_append, Text.replaceAll_nil, List.nil_append] at hopen
      rw [Cut.text, Text.replaceAll_append_sep hpat.nonempty hpat.hash, hopen,
        Text.replaceAll_append_sep hpat.nonempty hpat.close, ih]
      rfl
  shut _ hl := not_opens_replaceAll hpat.nonempty (by simpa using hs.nonempty) hs.hash hs.brace hl

end Cut

/-! ## Filled templates -/

theorem isSlot_columnSlot (i : Nat) : Cut.IsSlot (columnSlot i).toList := by
  have hrepr (c : Char) (hc : c.isDigit = false) : c ∉ Nat.toDigits 10 i := by
    rw [← Nat.toList_repr]
    exact Params.not_mem_repr hc i
  constructor <;> simp [columnSlot, hrepr]

theorem isSlot_first : Cut.IsSlot "$COL".toList :=
  ⟨by decide, by decide, by decide, by decide⟩

theorem isSlot_path : Cut.IsSlot "EXPR".toList :=
  ⟨by decide, by decide, by decide, by decide⟩

/-- Filling a template leaves its placeholders where they stand. -/
theorem step_fillTemplate {columns : List String} {path : String}
    (hcolumns : ∀ c ∈ columns, Text.IsInert c) (hpath : Text.IsInert path) :
    Cut.Step fun s => (fillTemplate (.ofList s) columns path).toList := by
  have hnumbered : ∀ (cs : List String) (k : Nat), (∀ c ∈ cs, Text.IsInert c) →
      Cut.Step fun s => ((cs.zipIdx k).foldr (fun p s => Text.replace s (columnSlot p.2) p.1)
        (.ofList s)).toList := by
    intro cs
    induction cs with
    | nil =>
      intro k _
      simpa [Function.id_def] using Cut.step_id
    | cons c cs ih =>
      intro k hcs
      rw [List.forall_mem_cons] at hcs
      have hstep := (Cut.step_replaceAll (isSlot_columnSlot k) hcs.1).comp (ih (k + 1) hcs.2)
      simpa [Function.comp_def] using hstep
  have hlast := Cut.step_replaceAll isSlot_path hpath
  cases columns with
  | nil =>
    have hstep := hlast.comp (hnumbered [] 0 hcolumns)
    simpa [Function.comp_def, fillTemplate] using hstep
  | cons c cs =>
    have hfirst := Cut.step_replaceAll isSlot_first (hcolumns c List.mem_cons_self)
    have hstep := hlast.comp (hfirst.comp (hnumbered (c :: cs) 0 hcolumns))
    simpa [Function.comp_def, fillTemplate] using hstep

theorem Text.isInert_of_isPath {path : String} (h : IsPath path) (hne : path ≠ "") :
    Text.IsInert path :=
  ⟨hne, h.not_mem (by decide), h.not_mem (by decide)⟩

/-- In a text without a dollar, only the slot of the path is filled. -/
theorem fillTemplate_of_not_mem {template : String} (h : '$' ∉ template.toList)
    (columns : List String) (path : String) : fillTemplate template columns path =
      Text.replace template "EXPR" path := by
  have hkeep (slot : List Char) (c : String) :
      Text.replaceAll ('$' :: slot) c.toList template.toList = template.toList := by
    have happend := Text.replaceAll_append_of_notMem (p := slot) c.toList h []
    rwa [List.append_nil, Text.replaceAll_nil, List.append_nil] at happend
  have hnumbered (cs : List String) (k : Nat) : (cs.zipIdx k).foldr
      (fun p s => Text.replace s (columnSlot p.2) p.1) template = template := by
    induction cs generalizing k with
    | nil => rfl
    | cons c cs ih =>
      have hslot : (columnSlot k).toList = '$' :: ("COL[" ++ Nat.repr k ++ "]").toList := by
        simp [columnSlot]
      rw [List.zipIdx_cons, List.foldr_cons, ih, ← String.toList_inj, Text.toList_replace, hslot,
        hkeep]
  have hfirst (c : String) : Text.replace template "$COL" c = template := by
    rw [← String.toList_inj, Text.toList_replace]
    exact hkeep "COL".toList c
  simp only [fillTemplate, hnumbered]
  cases columns with
  | nil => rfl
  | cons c cs => simp only [hfirst]

/-- What asks for a value or for an item is filled to its path. -/
theorem Ask.fill_source (ask : Ask) (columns : List String) (path : String) :
    (fillTemplate (.ofList ask.source) columns path).toList = (ask.path path).toList := by
  have hreplace (rest : List Char) (h : 'E' ∉ rest) :
      Text.replaceAll "EXPR".toList path.toList ("EXPR".toList ++ rest) = path.toList ++ rest := by
    have happend := Text.replaceAll_append_of_notMem (p := "XPR".toList) path.toList h []
    rw [List.append_nil, Text.replaceAll_nil, List.append_nil] at happend
    rw [Text.replaceAll_pat_append (by decide)]
    exact congrArg _ happend
  cases ask with
  | whole =>
    rw [fillTemplate_of_not_mem (by rw [source, String.toList_ofList]; decide), source,
      Text.toList_replace, String.toList_ofList]
    have hwhole := hreplace [] List.not_mem_nil
    rwa [List.append_nil, List.append_nil] at hwhole
  | item i =>
    have hrepr (c : Char) (hc : c.isDigit = false) : c ∉ Nat.toDigits 10 i := by
      rw [← Nat.toList_repr]
      exact Params.not_mem_repr hc i
    have hitem (base : String) : (itemPath base i).toList =
        base.toList ++ ("[" ++ Nat.repr i ++ "]").toList := by simp [itemPath]
    have hrest := hreplace ("[" ++ Nat.repr i ++ "]").toList (by simp [hrepr])
    have htemplate : (String.ofList (source (.item i))).toList =
        "EXPR".toList ++ ("[" ++ Nat.repr i ++ "]").toList :=
      String.toList_ofList.trans (hitem "EXPR")
    rw [fillTemplate_of_not_mem (by simp [source, itemPath, hrepr]), Text.toList_replace, htemplate,
      Ask.path, hitem path]
    exact hrest

/-- The path of what is asked for is a path. -/
theorem Ask.isPath_path {path : String} (h : IsPath path) (ask : Ask) : IsPath (ask.path path) := by
  cases ask with
  | whole => exact h
  | item i => exact Params.isPath_itemPath h i

/-- The cut of a filled template: its contents are the paths of what the template asks for. -/
theorem Filled.exists_cut {f : Filled} {asks : List Ask} (h : Asks f.template asks)
    (hcolumns : ∀ c ∈ f.columns, Text.IsInert c.text) (hpath : IsPath f.path) (hne : f.path ≠ "") :
    ∃ cut : Cut, cut.Clean ∧ cut.text = f.text.toList ∧
      cut.contents = asks.map fun ask => (ask.path f.path).toList := by
  obtain ⟨cut, hclean, htext, hcontents⟩ := h
  have hinert : ∀ c ∈ f.columns.map Column.text, Text.IsInert c := by
    intro c hc
    obtain ⟨column, hcolumn, rfl⟩ := List.mem_map.1 hc
    exact hcolumns column hcolumn
  have hstep := step_fillTemplate hinert (Text.isInert_of_isPath hpath hne)
  have hfilled : (cut.map fun s =>
      (fillTemplate (.ofList s) (f.columns.map Column.text) f.path).toList).contents =
        asks.map fun ask => (ask.path f.path).toList := by
    rw [Cut.contents_map, hcontents, List.map_map]
    exact List.map_congr_left fun ask _ => ask.fill_source _ _
  refine ⟨_, hclean.map hstep.shut fun content hcontent => ?_, ?_, hfilled⟩
  · rw [hcontents] at hcontent
    obtain ⟨ask, -, rfl⟩ := List.mem_map.1 hcontent
    rw [ask.fill_source]
    exact (ask.isPath_path hpath).not_mem (by decide)
  · rw [← hstep.text, htext, String.ofList_toList]
    rfl

/-- A filled template is lowered to given values exactly if these are bound to the paths of what it
asks for. -/
theorem Filled.lower_iff {f : Filled} {asks : List Ask} {style : PlaceholderStyle} {params : Params}
    {values : List Value} (h : Asks f.template asks)
    (hcolumns : ∀ c ∈ f.columns, Text.IsInert c.text) (hpath : IsPath f.path) (hne : f.path ≠ "") :
    (∃ positional, lower style f.text params = .ok positional ∧ positional.values = values) ↔
      List.Forall₂ (fun ask v => params.get? (ask.path f.path) = some v) asks values := by
  obtain ⟨cut, hclean, htext, hcontents⟩ := Filled.exists_cut h hcolumns hpath hne
  have hvalues : List.Forall₂ (fun content v => params.get? (Piece.path content) = some v)
      cut.contents values ↔
        List.Forall₂ (fun ask v => params.get? (ask.path f.path) = some v) asks values := by
    rw [hcontents, List.forall₂_map_left_iff]
    refine ⟨fun hall => hall.imp fun ask v hv => ?_, fun hall => hall.imp fun ask v hv => ?_⟩
    · rwa [Piece.path_toList (ask.isPath_path hpath)] at hv
    · rwa [Piece.path_toList (ask.isPath_path hpath)]
  rw [← hvalues]
  constructor
  · rintro ⟨positional, hlower, rfl⟩
    obtain ⟨other, hother, hothertext, -, hall⟩ := lower_eq_ok_iff.1 hlower
    obtain rfl := hclean.unique hother (hothertext.trans htext.symm)
    exact hall
  · exact fun hall => ⟨⟨.ofList (cut.marked style 0), values⟩,
      lower_eq_ok_iff.2 ⟨cut, hclean, htext, String.toList_ofList, hall⟩, rfl⟩

end QueryCompiler
