import QueryCompiler.Statement

/-!
# Quoted names

A reader of SQL takes what stands between two quote marks for a name, and two marks together inside it
for one. `scanName?` is that reader. It takes a name where the name stands as `quoteName` writes it,
with no mark behind it, and nowhere else (`scanName?_eq_some_iff`). So a name is read back whatever
marks are in it, and two names are never written alike. In a list of selected columns a comma or the
next clause stands behind a name, so no name ends before its last mark or runs on behind it.
-/

namespace QueryCompiler

/-! ## Reading a name -/

namespace Dialect

/-- A text with each quote mark in it written twice. -/
def doubled (q : Char) (name : List Char) : List Char :=
  name.flatMap fun c => if c = q then [q, q] else [c]

/-- Reads on behind the mark that begins a name: the name, and what stands behind the mark that ends
it. Two marks together stand for one in the name. -/
def readName? (q : Char) : List Char → Option (List Char × List Char)
  | [] => none
  | [c] => if c = q then some ([], []) else none
  | c :: c' :: s =>
    if c ≠ q then (readName? q (c' :: s)).map fun r => (c :: r.1, r.2)
    else if c' = q then (readName? q s).map fun r => (q :: r.1, r.2)
    else some ([], c' :: s)

/-- Reads the quoted name at the beginning of a text. -/
def scanName? (d : Dialect) : List Char → Option (List Char × List Char)
  | [] => none
  | c :: s => if c = d.quoteMark then readName? d.quoteMark s else none

variable {d : Dialect} {q c : Char} {s name rest : List Char}

theorem readName?_cons (h : c ≠ q) :
    readName? q (c :: s) = (readName? q s).map fun r => (c :: r.1, r.2) := by
  cases s <;> simp [readName?, h]

theorem readName?_pair :
    readName? q (q :: q :: s) = (readName? q s).map fun r => (q :: r.1, r.2) := by
  simp [readName?]

theorem readName?_mark (h : rest.head? ≠ some q) : readName? q (q :: rest) = some ([], rest) := by
  cases rest with
  | nil => simp [readName?]
  | cons c rest => simp [readName?, show c ≠ q by simpa using h]

theorem readName?_doubled (h : rest.head? ≠ some q) :
    readName? q (doubled q name ++ q :: rest) = some (name, rest) := by
  induction name with
  | nil => exact readName?_mark h
  | cons c name ih =>
    rw [doubled, List.flatMap_cons, ← doubled]
    split
    case isTrue hc =>
      subst hc
      rw [List.append_assoc, List.cons_append, List.cons_append, List.nil_append, readName?_pair, ih]
      rfl
    case isFalse hc =>
      rw [List.append_assoc, List.cons_append, List.nil_append, readName?_cons hc, ih]
      rfl

theorem eq_doubled_of_readName? (h : readName? q s = some (name, rest)) :
    s = doubled q name ++ q :: rest ∧ rest.head? ≠ some q := by
  fun_induction readName? q s generalizing name with
  | case1 => exact absurd h nofun
  | case2 =>
    cases h
    simp [doubled]
  | case3 => exact absurd h nofun
  | case4 c c' s hc ih =>
    obtain ⟨⟨name, rest⟩, hread, heq⟩ := Option.map_eq_some_iff.1 h
    cases heq
    obtain ⟨hs, hrest⟩ := ih hread
    exact ⟨by rw [hs]; simp [doubled, hc], hrest⟩
  -- two marks together
  | case5 c s hc ih =>
    obtain rfl : c = q := by simpa using hc
    obtain ⟨⟨name, rest⟩, hread, heq⟩ := Option.map_eq_some_iff.1 h
    cases heq
    obtain ⟨hs, hrest⟩ := ih hread
    exact ⟨by rw [hs]; simp [doubled], hrest⟩
  -- the mark that ends the name
  | case6 c c' s hc hc' =>
    obtain rfl : c = q := by simpa using hc
    cases h
    exact ⟨by simp [doubled], by simpa using hc'⟩

theorem toList_quoteName (d : Dialect) (name : String) : (d.quoteName name).toList =
    d.quoteMark :: (doubled d.quoteMark name.toList ++ [d.quoteMark]) := by
  simp [quoteName, doubled]

/-- A name is read where it stands as `quoteName` writes it, with no mark behind it. -/
theorem scanName?_eq_some_iff {name : String} : d.scanName? s = some (name.toList, rest) ↔
    s = (d.quoteName name).toList ++ rest ∧ rest.head? ≠ some d.quoteMark := by
  rw [toList_quoteName]
  constructor
  · intro h
    cases s with
    | nil => exact absurd h nofun
    | cons c s =>
      rw [scanName?] at h
      split at h
      case isFalse => exact absurd h nofun
      case isTrue hc =>
        obtain ⟨rfl, hrest⟩ := eq_doubled_of_readName? h
        exact ⟨by simp [hc], hrest⟩
  · rintro ⟨rfl, hrest⟩
    have hread : readName? d.quoteMark (doubled d.quoteMark name.toList ++ d.quoteMark :: rest) =
        some (name.toList, rest) := readName?_doubled hrest
    simpa [scanName?] using hread

theorem quoteName_injective (d : Dialect) : Function.Injective d.quoteName := by
  intro name name' h
  have hread : d.scanName? (d.quoteName name).toList = some (name.toList, []) :=
    scanName?_eq_some_iff.2 (by simp)
  have hread' : d.scanName? (d.quoteName name).toList = some (name'.toList, []) :=
    scanName?_eq_some_iff.2 (by simp [h])
  rw [hread] at hread'
  exact String.toList_injective (congrArg Prod.fst (Option.some.inj hread'))

/-- A text writes a name between `head` and `tail`, and a reader takes that name and no more. -/
structure Writes (d : Dialect) (name head tail text : String) : Prop where
  text_eq : text = head ++ d.quoteName name ++ tail
  read : d.scanName? (d.quoteName name ++ tail).toList = some (name.toList, tail.toList)

theorem Writes.between {name head tail text : String} (h : d.Writes name head tail text)
    (lead trail : String) (htrail : (tail ++ trail).toList.head? ≠ some d.quoteMark) :
    d.Writes name (lead ++ head) (tail ++ trail) (lead ++ text ++ trail) where
  text_eq := by rw [h.text_eq]; simp only [String.append_assoc]
  read := scanName?_eq_some_iff.2 ⟨String.toList_append, htrail⟩

end Dialect

/-! ## Names of selected columns -/

/-- The text of a selected column. -/
def Leaf.item (d : Dialect) (l : Leaf) : String :=
  l.expression.text ++ " AS " ++ d.quoteName l.property

/-- What stands before the name of a column in a list. -/
def Leaf.lead (d : Dialect) (before : List Leaf) (l : Leaf) : String :=
  String.join (before.map fun b => b.item d ++ ", ") ++ l.expression.text ++ " AS "

/-- What stands behind the name of a column in a list. -/
def Leaf.trail (d : Dialect) (after : List Leaf) : String :=
  String.join (after.map fun b => ", " ++ b.item d)

variable {d : Dialect}

namespace ResultColumn

theorem selectText_eq_items {columns : List ResultColumn} (h : leaves columns ≠ []) :
    selectText d columns = ", ".intercalate ((leaves columns).map (Leaf.item d)) := by
  rw [selectText]
  split
  · rename_i hnone
    exact absurd hnone h
  · rfl

end ResultColumn

theorem Text.intercalate_cons (sep s : String) (ss : List String) :
    sep.intercalate (s :: ss) = s ++ String.join (ss.map (sep ++ ·)) := by
  induction ss generalizing s with
  | nil => simp
  | cons t ss ih =>
    rw [String.intercalate_cons_of_ne_nil (List.cons_ne_nil t ss), ih]
    simp [String.append_assoc]

namespace Leaf

/-- A list of columns, cut at the name of one of them. -/
theorem intercalate_items (before : List Leaf) (l : Leaf) (after : List Leaf) :
    ", ".intercalate ((before ++ l :: after).map (item d)) =
      lead d before l ++ d.quoteName l.property ++ trail d after := by
  induction before with
  | nil =>
    rw [List.nil_append, List.map_cons, Text.intercalate_cons, item, lead, trail, List.map_map]
    simp [Function.comp_def]
  | cons b before ih =>
    have hrest : (before ++ l :: after).map (item d) ≠ [] := by simp
    rw [List.cons_append, List.map_cons, String.intercalate_cons_of_ne_nil hrest, ih]
    simp [lead, String.append_assoc]

/-- No quote mark stands behind the name of a column, if none begins what follows the list. -/
theorem head?_trail_append_ne (after : List Leaf) {s : String}
    (h : s.toList.head? ≠ some d.quoteMark) :
    (trail d after ++ s).toList.head? ≠ some d.quoteMark := by
  cases after with
  | nil => simpa [trail] using h
  | cons l after =>
    have hcomma : (trail d (l :: after) ++ s).toList.head? = some ',' := by simp [trail]
    rw [hcomma]
    cases d <;> decide

end Leaf

theorem ResultColumn.writes_selectText {columns : List ResultColumn} {before after : List Leaf}
    {l : Leaf} (h : leaves columns = before ++ l :: after) :
    d.Writes l.property (Leaf.lead d before l) (Leaf.trail d after) (selectText d columns) where
  text_eq := by
    rw [selectText_eq_items (by simp [h]), h, Leaf.intercalate_items]
  read := by
    have hhead : (Leaf.trail d after ++ "").toList.head? ≠ some d.quoteMark :=
      Leaf.head?_trail_append_ne after nofun
    rw [String.append_empty] at hhead
    exact Dialect.scanName?_eq_some_iff.2 ⟨String.toList_append, hhead⟩

/-- The clauses behind the selected columns begin with a blank. -/
theorem Tail.head?_text (t : Tail) (d : Dialect) : (t.text d).toList.head? = some ' ' := by
  simp [Tail.text, Tail.sourceText, From.text]

/-- A reader takes a quoted name from its first mark to its last and reads the name in it, and no other
text is read as that name. In a list of columns, and in the query that selects them, it takes each
column's name and stops where the next column or clause begins. -/
theorem Dialect.quoteName_read (d : Dialect) :
    (∀ text name : String, d.scanName? text.toList = some (name.toList, []) ↔
      text = d.quoteName name) ∧
    Function.Injective d.quoteName ∧
    (∀ (columns : List ResultColumn) (before : List Leaf) (l : Leaf) (after : List Leaf),
      ResultColumn.leaves columns = before ++ l :: after →
        d.Writes l.property (Leaf.lead d before l) (Leaf.trail d after)
          (ResultColumn.selectText d columns)) ∧
    ∀ (q : Select) (columns : List ResultColumn) (before : List Leaf) (l : Leaf) (after : List Leaf),
      q.list = .columns columns → ResultColumn.leaves columns = before ++ l :: after →
        d.Writes l.property
          ((q.hierarchy.map (Hierarchy.text · d)).getD "" ++ "SELECT " ++ Leaf.lead d before l)
          (Leaf.trail d after ++ q.tail.text d) (q.text d) := by
  refine ⟨fun text name => ?_, d.quoteName_injective,
    fun _ _ _ _ h => ResultColumn.writes_selectText h, fun q columns before l after hlist h => ?_⟩
  · rw [Dialect.scanName?_eq_some_iff, List.append_nil, String.toList_inj]
    exact and_iff_left nofun
  · have hblank : (q.tail.text d).toList.head? ≠ some d.quoteMark := by
      rw [q.tail.head?_text d]
      cases d <;> decide
    have htext : q.text d = (q.hierarchy.map (Hierarchy.text · d)).getD "" ++ "SELECT " ++
        ResultColumn.selectText d columns ++ q.tail.text d := by
      rw [Select.text, hlist, SelectList.text]
      cases q.hierarchy <;> rfl
    rw [htext]
    exact (ResultColumn.writes_selectText h).between _ _ (Leaf.head?_trail_append_ne after hblank)

/-- Two counts whose names begin and end with marks; the second one holds the text between two
columns. -/
def twoCounts : Select where
  list := .columns [.leaf ⟨.rowCount, "`all", false, false⟩,
    .leaf ⟨.rowCount, "all`, 1 AS ``", false, false⟩]
  tail := ⟨⟨none, 0, []⟩, ⟨.absent, .absent⟩, [], [], none⟩

/-- The second name is read to its end, and what looks like a third column is part of it. -/
theorem twoCounts_read :
    twoCounts.list = .columns [.leaf ⟨.rowCount, "`all", false, false⟩,
      .leaf ⟨.rowCount, "all`, 1 AS ``", false, false⟩] ∧
    twoCounts.text .mysql =
      "SELECT COUNT(*) AS ```all`, COUNT(*) AS `all``, 1 AS ````` FROM t0" ∧
    Dialect.mysql.Writes "all`, 1 AS ``" "SELECT COUNT(*) AS ```all`, COUNT(*) AS " " FROM t0"
      (twoCounts.text .mysql) ∧
    Dialect.mysql.Writes "`all" "COUNT(*) AS " ", COUNT(*) AS `all``, 1 AS `````"
      (twoCounts.list.text .mysql) := by
  obtain ⟨-, -, hlist, hquery⟩ := Dialect.quoteName_read .mysql
  have hsecond := hquery twoCounts _ [⟨.rowCount, "`all", false, false⟩]
    ⟨.rowCount, "all`, 1 AS ``", false, false⟩ [] rfl rfl
  have hfirst := hlist [.leaf ⟨.rowCount, "`all", false, false⟩,
    .leaf ⟨.rowCount, "all`, 1 AS ``", false, false⟩] [] ⟨.rowCount, "`all", false, false⟩
    [⟨.rowCount, "all`, 1 AS ``", false, false⟩] rfl
  exact ⟨rfl, by decide +kernel, hsecond, hfirst⟩

end QueryCompiler
