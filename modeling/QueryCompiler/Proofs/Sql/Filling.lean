import QueryCompiler.Sql.Template
import QueryCompiler.Operator
import QueryCompiler.Dialect.Syntax
import QueryCompiler.Proofs.Text.Replace

/-!
# What stands in a filled template

The templates of operators, of searches and of distances name one column and at most one path, and
their slots are kept apart by text. Then the steps of `fillTemplate` do not disturb each other:
`toList_fillTemplate` gives the filled text slot by slot. Only a slot of the path inside the column's
own text is filled along with the template's.
-/

namespace QueryCompiler

open Text (replaceAll occursIn)

/-- A part of a template over one column. -/
inductive Slot where
  | text (s : String)
  | column
  | path
  deriving DecidableEq

namespace Slot

/-- How a part is written in the template. -/
def source : Slot → List Char
  | .text s => s.toList
  | .column => "$COL".toList
  | .path => "EXPR".toList

/-- What stands for a part once the template is filled. -/
def filled (column path : List Char) : Slot → List Char
  | .text s => s.toList
  | .column => column
  | .path => path

/-- Whether a part is text. -/
def isText : Slot → Bool
  | .text _ => true
  | .column | .path => false

/-- A text that holds no slot and keeps the parts before and behind it apart, if there are any behind
it. -/
def separates (isLast : Bool) (s : List Char) : Bool :=
  !s.contains '$' && !occursIn "EXPR".toList s &&
    s.head?.any (fun c => !"EXPR[".toList.contains c) &&
    (isLast || s.getLast?.any (fun c => !"EXPR".toList.contains c))

/-- No two slots stand side by side. -/
def spaced : List Slot → Bool
  | [] => true
  | .text s :: slots => separates slots.isEmpty s.toList && spaced slots
  | _ :: slots => (slots.head?.all isText) && spaced slots

variable {column path : List Char} {slots : List Slot}

theorem separates_iff {isLast : Bool} {s : List Char} : separates isLast s = true ↔
    '$' ∉ s ∧ occursIn "EXPR".toList s = false ∧ (∃ c ∈ s.head?, c ∉ "EXPR[".toList) ∧
      (isLast = true ∨ ∃ c ∈ s.getLast?, c ∉ "EXPR".toList) := by
  simp only [separates, Bool.and_eq_true, Bool.or_eq_true, Bool.not_eq_true', Option.any_eq_true]
  simp [and_assoc]

/-- What follows a slot begins with a character of no slot. -/
theorem head_of_isText (f : Slot → List Char) (hf : ∀ s, f (.text s) = s.toList)
    (h : slots.head?.all isText = true) (hs : spaced slots = true) :
    ∀ x ∈ (slots.flatMap f).head?, x ∉ "EXPR[".toList := by
  intro x hx
  match slots with
  | [] => simp at hx
  | .text s :: slots =>
    obtain ⟨-, -, ⟨c, hc, hcs⟩, -⟩ := separates_iff.1 (Bool.and_eq_true_iff.1 hs).1
    rw [List.flatMap_cons, hf, List.head?_append, Option.mem_def.1 hc] at hx
    obtain rfl : c = x := by simpa using hx
    exact hcs
  | .column :: _ => simp [isText] at h
  | .path :: _ => simp [isText] at h

/-! ## The three steps -/

theorem replaceAll_numbered (h : spaced slots = true) :
    replaceAll "$COL[0]".toList column (slots.flatMap source) = slots.flatMap source := by
  induction slots with
  | nil => rfl
  | cons slot slots ih =>
    rw [List.flatMap_cons]
    cases slot with
    | text s =>
      obtain ⟨hs, hsp⟩ := Bool.and_eq_true_iff.1 h
      obtain ⟨hd, -, -, -⟩ := separates_iff.1 hs
      have := Text.replaceAll_append_of_notMem (p := "COL[0]".toList) column hd
      exact (this _).trans (congrArg _ (ih hsp))
    | column =>
      obtain ⟨ht, hsp⟩ := Bool.and_eq_true_iff.1 h
      have hhead := head_of_isText source (fun _ => rfl) ht hsp
      have hnot : ¬ "$COL[0]".toList <+: '$' :: ("COL".toList ++ slots.flatMap source) := by
        rintro ⟨t, h⟩
        refine hhead '[' ?_ (by decide)
        have h' : '[' :: ("0]".toList ++ t) = slots.flatMap source := by simpa using h
        rw [← h']; rfl
      have := Text.replaceAll_append_of_notMem (x := '$') (p := "COL[0]".toList) column
        (a := "COL".toList) (by decide) (slots.flatMap source)
      show replaceAll _ _ ('$' :: ("COL".toList ++ slots.flatMap source)) = _
      rw [Text.replaceAll_cons_of_not hnot]
      exact congrArg ('$' :: ·) (this.trans (congrArg _ (ih hsp)))
    | path =>
      have hsp := (Bool.and_eq_true_iff.1 h).2
      have := Text.replaceAll_append_of_notMem (x := '$') (p := "COL[0]".toList) column
        (a := "EXPR".toList) (by decide) (slots.flatMap source)
      exact this.trans (congrArg _ (ih hsp))

theorem replaceAll_first (h : spaced slots = true) :
    replaceAll "$COL".toList column (slots.flatMap source) =
      slots.flatMap (filled column "EXPR".toList) := by
  induction slots with
  | nil => rfl
  | cons slot slots ih =>
    rw [List.flatMap_cons, List.flatMap_cons]
    cases slot with
    | text s =>
      obtain ⟨hs, hsp⟩ := Bool.and_eq_true_iff.1 h
      obtain ⟨hd, -, -, -⟩ := separates_iff.1 hs
      have := Text.replaceAll_append_of_notMem (p := "COL".toList) column hd
      exact (this _).trans (congrArg _ (ih hsp))
    | column =>
      have hsp := (Bool.and_eq_true_iff.1 h).2
      exact (Text.replaceAll_pat_append (by decide) _).trans (congrArg _ (ih hsp))
    | path =>
      have hsp := (Bool.and_eq_true_iff.1 h).2
      have := Text.replaceAll_append_of_notMem (x := '$') (p := "COL".toList) column
        (a := "EXPR".toList) (by decide) (slots.flatMap source)
      exact this.trans (congrArg _ (ih hsp))

theorem replaceAll_path (h : spaced slots = true) :
    replaceAll "EXPR".toList path (slots.flatMap (filled column "EXPR".toList)) =
      slots.flatMap (filled (replaceAll "EXPR".toList path column) path) := by
  have hne : "EXPR".toList ≠ [] := by decide
  have hsub : ∀ x ∈ "EXPR".toList, x ∈ "EXPR[".toList := by simp
  induction slots with
  | nil => rfl
  | cons slot slots ih =>
    rw [List.flatMap_cons, List.flatMap_cons]
    cases slot with
    | text s =>
      obtain ⟨hs, hsp⟩ := Bool.and_eq_true_iff.1 h
      obtain ⟨-, hocc, -, hend⟩ := separates_iff.1 hs
      rcases hend with hend | ⟨y, hy, hyp⟩
      · rw [List.isEmpty_iff.1 hend]
        simpa [filled] using Text.replaceAll_of_not_occursIn hocc
      have hlast : ∀ x ∈ s.toList.getLast?, x ∉ "EXPR".toList := by
        intro x hx
        rw [Option.mem_def] at hx hy
        rw [hx, Option.some.injEq] at hy
        exact hy ▸ hyp
      rw [filled, Text.replaceAll_append_of_last hne hlast, Text.replaceAll_of_not_occursIn hocc,
        ih hsp, filled]
    | column =>
      obtain ⟨hslot, hsp⟩ := Bool.and_eq_true_iff.1 h
      have hhead := head_of_isText (filled column "EXPR".toList) (fun _ => rfl) hslot hsp
      rw [filled, Text.replaceAll_append_of_head hne fun x hx hm => hhead x hx (hsub x hm), ih hsp,
        filled]
    | path =>
      rw [filled, Text.replaceAll_pat_append hne, ih (Bool.and_eq_true_iff.1 h).2, filled]

theorem toList_fillTemplate {template column path : String}
    (ht : template.toList = slots.flatMap source) (h : spaced slots = true) :
    (fillTemplate template [column] path).toList =
      slots.flatMap (filled (replaceAll "EXPR".toList path.toList column.toList) path.toList) := by
  have hslot : (columnSlot 0).toList = "$COL[0]".toList := by decide
  simp only [fillTemplate, List.zipIdx_cons, List.zipIdx_nil, List.foldr_cons, List.foldr_nil,
    Text.toList_replace, hslot, ht]
  rw [replaceAll_numbered h, replaceAll_first h, replaceAll_path h]

end Slot

/-! ## The templates in parts -/

/-- A comparison of the column with the value by a sign. -/
def Slot.infixed (sign : String) : List Slot :=
  [.column, .text (" " ++ sign ++ " #\x7b"), .path, .text "\x7d"]

/-- The template of an operator, in parts. -/
def Operator.slots : Operator → List Slot
  | .eq => Slot.infixed "="
  | .ne => Slot.infixed "!="
  | .lt => Slot.infixed "<"
  | .lte => Slot.infixed "<="
  | .gt => Slot.infixed ">"
  | .gte => Slot.infixed ">="
  | .like => Slot.infixed "LIKE"
  | .contains => [.column, .text " LIKE CONCAT(CONCAT('%', #\x7b", .path, .text "\x7d), '%')"]
  | .startsWith => [.column, .text " LIKE CONCAT(#\x7b", .path, .text "\x7d, '%')"]
  | .endsWith => [.column, .text " LIKE CONCAT('%', #\x7b", .path, .text "\x7d)"]
  | .isNull => [.column, .text " IS NULL"]
  | .isNotNull => [.column, .text " IS NOT NULL"]
  | .isBlank => [.text "(", .column, .text " IS NULL OR ", .column, .text " = '')"]
  | .isNotBlank => [.text "(", .column, .text " IS NOT NULL AND ", .column, .text " != '')"]
  | .isIn | .notIn | .eqOrIn => []

theorem Operator.spaced_slots (op : Operator) : Slot.spaced op.slots = true := by
  cases op <;> decide

theorem Operator.toList_template {op : Operator} {t : String} (h : op.template? = some t) :
    t.toList = op.slots.flatMap Slot.source := by
  cases op <;> simp only [template?, Option.some.injEq, reduceCtorEq] at h <;> subst h <;>
    simp [slots, Slot.infixed, Slot.source]

/-- The template of a search, in parts. -/
def Dialect.searchSlots : Dialect → SearchMode → List Slot
  | .mysql, .boolean | .oceanBase, .boolean =>
    [.text "MATCH (", .column, .text ") AGAINST (#\x7b", .path, .text "\x7d IN BOOLEAN MODE)"]
  | .mysql, .natural | .oceanBase, .natural =>
    [.text "MATCH (", .column, .text ") AGAINST (#\x7b", .path,
      .text "\x7d IN NATURAL LANGUAGE MODE)"]
  | .postgresql, .natural =>
    [.text "to_tsvector('chinese', ", .column, .text ") @@ to_tsquery('chinese', #\x7b", .path,
      .text "\x7d)"]
  | _, _ => []

theorem Dialect.spaced_searchSlots (d : Dialect) (mode : SearchMode) :
    Slot.spaced (d.searchSlots mode) = true := by
  cases d <;> cases mode <;> decide

theorem Dialect.toList_searchTemplate {d : Dialect} {mode : SearchMode} {t : String}
    (h : d.searchTemplate mode = .ok t) : t.toList = (d.searchSlots mode).flatMap Slot.source := by
  cases d <;> cases mode <;> simp only [searchTemplate, Except.ok.injEq, reduceCtorEq] at h <;>
    subst h <;> simp [searchSlots, Slot.source]

end QueryCompiler
