import QueryCompiler.Proofs.Boolean.Predicates
import QueryCompiler.Proofs.Sql.Filling
import QueryCompiler.Proofs.Build.Resolve

/-!
# The text of a condition says what the condition says

A condition of comparisons, searches, groups and negations is a boolean formula over the texts of its
comparisons and searches. Leaves without text are dropped from it, and so are groups and negations
that are left without members. The text of the condition is read as a formula of the same value.
-/

namespace QueryCompiler

/-! ## Leaves -/

namespace Slot

/-- The characters of a text; a slot has none of its own. -/
def chars : Slot → List Char
  | .text s => s.toList
  | .column | .path => []

/-- Some text has a character that no opener has. -/
def isMarked (slots : List Slot) : Bool :=
  slots.any fun slot => slot.chars.any fun c => !openers.contains c

/-- A bracket opens in some text, or the last text ends in no closing bracket. -/
def isOpened (slots : List Slot) : Bool :=
  slots.any (fun slot => slot.chars.contains '(') ||
    slots.getLast?.any fun slot => slot.chars.getLast?.any fun c => c != ')'

theorem filled_of_mem_chars {slot : Slot} {c : Char} (column path : List Char)
    (h : c ∈ slot.chars) : slot.filled column path = slot.chars := by
  cases slot with
  | text s => rfl
  | column | path => exact absurd h List.not_mem_nil

theorem mem_flatMap_filled {slots : List Slot} {slot : Slot} {c : Char} (column path : List Char)
    (hs : slot ∈ slots) (hc : c ∈ slot.chars) : c ∈ slots.flatMap (filled column path) :=
  List.mem_flatMap.2 ⟨slot, hs, (filled_of_mem_chars column path hc).symm ▸ hc⟩

/-- Whether a filled template is a leaf is seen from its texts. -/
theorem atomic_filled {slots : List Slot} (column path : List Char)
    (hm : isMarked slots = true) (ho : isOpened slots = true) :
    Atomic (slots.flatMap (filled column path)) where
  marked := by
    obtain ⟨slot, hslot, hmark⟩ := List.any_eq_true.1 hm
    obtain ⟨c, hc, hnot⟩ := List.any_eq_true.1 hmark
    exact ⟨c, mem_flatMap_filled column path hslot hc, by simpa using hnot⟩
  opened := by
    intro hlast
    rcases Bool.or_eq_true_iff.1 ho with hopen | hend
    · obtain ⟨slot, hslot, hc⟩ := List.any_eq_true.1 hopen
      exact mem_flatMap_filled column path hslot (by simpa using hc)
    · obtain ⟨slot, hslot, hslast⟩ := (Option.any_eq_true _ _).1 hend
      obtain ⟨c, hc, hne⟩ := (Option.any_eq_true _ _).1 hslast
      obtain ⟨front, rfl⟩ := List.getLast?_eq_some_iff.1 hslot
      have hmem : c ∈ slot.chars := List.mem_of_getLast? hc
      rw [List.flatMap_append, List.flatMap_singleton, filled_of_mem_chars column path hmem,
        List.getLast?_append_of_ne_nil _ (List.ne_nil_of_mem hmem), hc] at hlast
      obtain rfl : c = ')' := Option.some.inj hlast
      exact absurd hne (by decide)

end Slot

theorem Operator.isMarked_slots {op : Operator} {t : String} (h : op.template? = some t) :
    Slot.isMarked op.slots = true ∧ Slot.isOpened op.slots = true := by
  cases op <;> first | (constructor <;> decide) | simp [template?] at h

theorem Dialect.isMarked_searchSlots {d : Dialect} {mode : SearchMode} {t : String}
    (h : d.searchTemplate mode = .ok t) :
    Slot.isMarked (d.searchSlots mode) = true ∧ Slot.isOpened (d.searchSlots mode) = true := by
  cases d <;> cases mode <;> first | (constructor <;> decide) | simp [searchTemplate] at h

theorem Slot.atomic_text {f : Filled} {column : Column} {slots : List Slot}
    (hc : f.columns = [column]) (ht : f.template.toList = slots.flatMap Slot.source)
    (hs : Slot.spaced slots = true)
    (h : Slot.isMarked slots = true ∧ Slot.isOpened slots = true) : Atomic f.text.toList := by
  rw [Filled.text, hc, List.map_singleton, Slot.toList_fillTemplate ht hs]
  exact Slot.atomic_filled _ _ h.1 h.2

/-- A predicate that is one leaf, or nothing. -/
structure Predicate.IsLeaf (p : Predicate) : Prop where
  atomic : p.AtomicLeaves
  formula : p.formula? = Formula.leaf? p.text

theorem Operator.atomic_resolve {op : Operator} {column : Column} {base : String} {value : Value}
    {p : Predicate} (h : op.resolve column base value = .ok p) : Atomic p.text.toList := by
  obtain ⟨op, t, value, ht, rfl⟩ | ⟨negated, items, rfl⟩ := resolve_eq_ok h
  · refine Slot.atomic_text rfl ?_ op.spaced_slots (Operator.isMarked_slots ht)
    rw [ht]
    exact Operator.toList_template ht
  · exact Predicate.atomic_membershipText column negated _

theorem Operator.isLeaf_resolve {op : Operator} {column : Column} {base : String} {value : Value}
    {p : Predicate} (h : op.resolve column base value = .ok p) : p.IsLeaf := by
  have hatomic := atomic_resolve h
  obtain ⟨_, _, _, _, rfl⟩ | ⟨_, _, rfl⟩ := resolve_eq_ok h
  · exact ⟨fun _ => hatomic, rfl⟩
  · exact ⟨trivial, rfl⟩

/-! ## Conditions -/

namespace Condition

mutual

/-- Comparisons and searches, grouped and negated. -/
def isBoolean : Condition → Bool
  | .compare _ _ _ _ | .search _ _ _ => true
  | .group _ members => areBoolean members
  | .negate inner => inner.isBoolean
  | .related _ _ _ _ | .custom _ _ _ => false

/-- `isBoolean` of all members of a group. -/
def areBoolean : List Condition → Bool
  | [] => true
  | c :: cs => c.isBoolean && areBoolean cs

end

variable {σ : Type} (d : Dialect) (names : Names σ) (s : σ)

/-- The text that a condition is resolved to, if it is. -/
def resolvedText (c : Condition) (base : String) : String :=
  match (c.resolve d names s base).run {} with
  | .ok p _ => p.text
  | .error _ _ => ""

mutual

/-- The formula of a condition over the texts of its leaves, which are resolved one by one. What
says nothing is dropped. -/
def formula? : Condition → String → Option Formula
  | .group k members, base => Formula.group? k (formulas members base 0)
  | .negate inner, base => (inner.formula? (innerPath base)).map .negate
  | .compare path op value skipEmpty, base =>
    Formula.leaf? (resolvedText d names s (.compare path op value skipEmpty) base)
  | .search path value mode, base =>
    Formula.leaf? (resolvedText d names s (.search path value mode) base)
  | .related path inner joins negated, base =>
    Formula.leaf? (resolvedText d names s (.related path inner joins negated) base)
  | .custom template paths value, base =>
    Formula.leaf? (resolvedText d names s (.custom template paths value) base)

/-- The formulas of the members of a group, from place `i` on, where there are any. -/
def formulas : List Condition → String → Nat → List Formula
  | [], _, _ => []
  | c :: cs, base, i => (c.formula? (memberPath base i)).toList ++ formulas cs base (i + 1)

end

variable {d names s} {c : Condition} {base : String} {p : Predicate} {q q' : Progress}

open Build

theorem resolvedText_eq (h : (c.resolve d names s base).run {} = .ok p q) :
    resolvedText d names s c base = p.text := by
  rw [resolvedText, h]

/-- A comparison is resolved to a leaf, however far the statement has come. -/
theorem resolve_compare {path : String} {op : Operator} {value : Value} {skipEmpty : Bool}
    (h : ((compare path op value skipEmpty).resolve d names s base).run q = .ok p q') :
    p.IsLeaf ∧ resolvedText d names s (.compare path op value skipEmpty) base = p.text := by
  obtain ⟨-, hcompared⟩ := resolve_compare_eq_ok.1 h
  refine ⟨?_, resolvedText_eq (resolve_compare_eq_ok.2 ⟨rfl, hcompared⟩)⟩
  obtain ⟨-, rfl⟩ | ⟨-, column, -, hop⟩ := hcompared
  · exact ⟨trivial, rfl⟩
  · exact Operator.isLeaf_resolve hop

/-- A search is resolved to a leaf that has a text. -/
theorem atomic_resolve_search {path : String} {value : Value} {mode : SearchMode}
    (h : ((search path value mode).resolve d names s base).run q = .ok p q') :
    ∃ sql bindings, p = .filled sql bindings ∧ Atomic sql.text.toList := by
  obtain ⟨-, template, htemplate, sql, hsql, rfl⟩ := resolve_search_eq_ok.1 h
  obtain ⟨column, -, rfl⟩ := Names.fill_singleton_iff.1 hsql
  refine ⟨_, _, rfl, ?_⟩
  exact Slot.atomic_text rfl (Dialect.toList_searchTemplate htemplate)
    (Dialect.spaced_searchSlots d mode) (Dialect.isMarked_searchSlots htemplate)

theorem resolve_search {path : String} {value : Value} {mode : SearchMode}
    (h : ((search path value mode).resolve d names s base).run q = .ok p q') :
    p.IsLeaf ∧ resolvedText d names s (.search path value mode) base = p.text := by
  obtain ⟨-, hsearched⟩ := resolve_search_eq_ok.1 h
  refine ⟨?_, resolvedText_eq (resolve_search_eq_ok.2 ⟨rfl, hsearched⟩)⟩
  obtain ⟨sql, bindings, rfl, hatomic⟩ := atomic_resolve_search h
  exact ⟨fun _ => hatomic, rfl⟩

mutual

theorem formula?_resolve : ∀ (c : Condition) {base : String} {p : Predicate} {q q' : Progress},
    c.isBoolean = true → (c.resolve d names s base).run q = .ok p q' →
    p.AtomicLeaves ∧ p.formula? = c.formula? d names s base
  | .compare path op value skipEmpty, base, p, q, q', _, h => by
    obtain ⟨hp, htext⟩ := resolve_compare h
    exact ⟨hp.atomic, by rw [hp.formula, formula?, htext]⟩
  | .search path value mode, base, p, q, q', _, h => by
    obtain ⟨hp, htext⟩ := resolve_search h
    exact ⟨hp.atomic, by rw [hp.formula, formula?, htext]⟩
  | .negate inner, base, p, q, q', hc, h => by
    obtain ⟨r, hr, rfl⟩ := resolve_negate_eq_ok.1 h
    obtain ⟨hatomic, hformula⟩ := formula?_resolve inner hc hr
    exact ⟨hatomic, by rw [Predicate.formula?, hformula, formula?]⟩
  | .group k members, base, p, q, q', hc, h => by
    obtain ⟨parts, hparts, rfl⟩ := resolve_group_eq_ok.1 h
    obtain ⟨hatomic, hformulas⟩ := formulas_resolve members hc hparts
    exact ⟨hatomic, by rw [Predicate.formula?, hformulas, formula?]⟩
  | .related _ _ _ _, _, _, _, _, hc, _ => absurd hc Bool.false_ne_true
  | .custom _ _ _, _, _, _, _, hc, _ => absurd hc Bool.false_ne_true

theorem formulas_resolve : ∀ (cs : List Condition) {base : String} {i : Nat}
    {ps : List Predicate} {q q' : Progress}, areBoolean cs = true →
    (resolveMembers d names cs s base i).run q = .ok ps q' →
    Predicate.AtomicLeavesOf ps ∧ Predicate.formulas ps = formulas d names s cs base i
  | [], base, i, ps, q, q', _, h => by
    obtain ⟨-, rfl⟩ := resolveMembers_nil_eq_ok.1 h
    exact ⟨trivial, rfl⟩
  | c :: cs, base, i, ps, q, q', hc, h => by
    obtain ⟨hc, hcs⟩ := Bool.and_eq_true_iff.1 hc
    obtain ⟨p, mid, ps, hp, hps, rfl⟩ := resolveMembers_cons_eq_ok.1 h
    obtain ⟨hatomic, hformula⟩ := formula?_resolve c hc hp
    obtain ⟨hatomics, hformulas⟩ := formulas_resolve cs hcs hps
    exact ⟨⟨hatomic, hatomics⟩, by rw [Predicate.formulas, hformula, hformulas, formulas]⟩

end

/-- The text of a condition is empty exactly if nothing is left of it, and else it is read, with its
leaves as they are, as a formula that has the condition's value wherever the leaves have values. -/
theorem text_resolve (hc : c.isBoolean = true)
    (h : (c.resolve d names s base).run q = .ok p q') :
    (p.text = "" ↔ c.formula? d names s base = none) ∧
      ∀ f, c.formula? d names s base = some f →
        ∃ g, Formula.parse f.atoms p.text.toList = some g ∧ ∀ v, g.eval v = f.eval v := by
  obtain ⟨hatomic, hformula⟩ := formula?_resolve c hc h
  have hexp := p.says_text hatomic
  rw [hformula] at hexp
  refine ⟨hexp.eq_empty_iff, fun f hf => ?_⟩
  rw [hf] at hexp
  exact Expresses.parse hexp

/-- A disjunction with a conjunction and a negation in it; the comparison with the empty list is
dropped, and so is the group around it. -/
theorem text_resolve_mixed :
    let c : Condition := .group .or [
      .group .and [.compare "a" .eq (.text "x") false, .negate (.compare "b" .isBlank .null false)],
      .group .and [.compare "d" .ne (.list []) true],
      .compare "e" .isNull .null false]
    ∃ p f g, (c.resolve .mysql Names.verbatim () "c").run {} = .ok p {} ∧
      p.text = "((a = #\x7bc.c[0].c[0].v\x7d AND (NOT (b IS NULL OR b = ''))) OR e IS NULL)" ∧
      c.formula? .mysql Names.verbatim () "c" = some f ∧
      Formula.parse f.atoms p.text.toList = some g ∧ ∀ v, g.eval v = f.eval v := by
  intro c
  have hrun : ∃ p, (c.resolve .mysql Names.verbatim () "c").run {} = .ok p {} := ⟨_, rfl⟩
  obtain ⟨p, hp⟩ := hrun
  obtain ⟨f, hf⟩ : ∃ f, c.formula? .mysql Names.verbatim () "c" = some f := ⟨_, rfl⟩
  obtain ⟨g, hg⟩ := (text_resolve (c := c) rfl hp).2 f hf
  refine ⟨p, f, g, hp, ?_, hf, hg⟩
  cases hp
  decide

end Condition
end QueryCompiler
