/-!
# Replacing text

`replaceAll pat rep s` puts `rep` for every occurrence of `pat` in `s`. Occurrences are taken from
the left and do not overlap, and what is put in is not read again.
-/

namespace QueryCompiler.Text

/-- Passes over `n` characters of an occurrence already replaced, then replaces in the rest. -/
def replaceFrom (pat rep : List Char) : Nat → List Char → List Char
  | _, [] => []
  | n + 1, _ :: cs => replaceFrom pat rep n cs
  | 0, c :: cs =>
    if pat.isPrefixOf (c :: cs) then rep ++ replaceFrom pat rep (pat.length - 1) cs
    else c :: replaceFrom pat rep 0 cs

/-- Every occurrence of the non-empty text `pat` becomes `rep`. -/
def replaceAll (pat rep s : List Char) : List Char :=
  replaceFrom pat rep 0 s

@[simp] theorem replaceAll_nil (pat rep : List Char) : replaceAll pat rep [] = [] := rfl

/-- `replaceAll` on strings. -/
def replace (s pat rep : String) : String :=
  .ofList (replaceAll pat.toList rep.toList s.toList)

@[simp] theorem toList_replace (s pat rep : String) :
    (replace s pat rep).toList = replaceAll pat.toList rep.toList s.toList := by
  simp [replace]

/-! ## Where a text occurs -/

/-- `pat` stands somewhere in `s`. -/
def occursIn (pat : List Char) : List Char → Bool
  | [] => pat.isEmpty
  | c :: cs => pat.isPrefixOf (c :: cs) || occursIn pat cs

/-- `s` contains `pat`. -/
def contains (s pat : String) : Bool :=
  occursIn pat.toList s.toList

/-- `s` begins with `pat`. -/
def startsWith (s pat : String) : Bool :=
  pat.toList.isPrefixOf s.toList

/-- `s` ends with `pat`. -/
def endsWith (s pat : String) : Bool :=
  pat.toList.isSuffixOf s.toList

end QueryCompiler.Text
