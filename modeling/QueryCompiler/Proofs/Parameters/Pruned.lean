import QueryCompiler.Proofs.Boolean.Silent
import QueryCompiler.Proofs.Parameters.Bag
import QueryCompiler.Proofs.Parameters.Layout
import QueryCompiler.Proofs.Parameters.Placement
import QueryCompiler.Proofs.Parameters.Resolve
import QueryCompiler.Proofs.Parameters.Skeleton

/-!
# Conditions without their empty members

A member of a group that is resolved to no text can be left out, and a group of one member can be
replaced by the member. The members behind it and below it are then bound to other paths, but the
text says the same between its placeholders, and the values at them are the same in their order. So
the statement that is executed is the same (`pruned_lower`).
-/

namespace QueryCompiler

open Build Params

/-- The predicates bind the same values in the same order, and their texts are the same apart from
the paths of the values. -/
structure Predicate.Alike (p p' : Predicate) : Prop where
  left : Marks p.text p.paths
  right : Marks p'.text p'.paths
  skeleton : Piece.skeleton p.text.toList = Piece.skeleton p'.text.toList
  values : p.bindings.map Binding.value = p'.bindings.map Binding.value

namespace Predicate

variable {p p' r : Predicate} {ps ps' : List Predicate}

namespace Alike

theorem text (h : Alike p p') : Text.Alike p.text p'.text :=
  ⟨⟨_, h.left⟩, ⟨_, h.right⟩, h.skeleton⟩

theorem absent : Alike .absent .absent :=
  ⟨.empty, .empty, rfl, rfl⟩

theorem negate (h : Alike p p') : Alike (.negate p) (.negate p') :=
  ⟨h.left.negateText, h.right.negateText, h.text.negateText.skeleton, h.values⟩

theorem group (k : Connective) (h : List.Forall₂ Alike ps ps') :
    Alike (.group k ps) (.group k ps') := by
  have hall : (∀ p ∈ ps, Marks p.text p.paths) ∧ (∀ p ∈ ps', Marks p.text p.paths) ∧
      List.Forall₂ Text.Alike (texts ps) (texts ps') ∧
      (bindingsOf ps).map Binding.value = (bindingsOf ps').map Binding.value := by
    induction h with
    | nil => exact ⟨List.forall_mem_nil _, List.forall_mem_nil _, .nil, rfl⟩
    | cons hp _ ih =>
      obtain ⟨hleft, hright, htexts, hvalues⟩ := ih
      refine ⟨List.forall_mem_cons.2 ⟨hp.left, hleft⟩, List.forall_mem_cons.2 ⟨hp.right, hright⟩,
        .cons hp.text htexts, ?_⟩
      rw [bindingsOf, bindingsOf, List.map_append, List.map_append, hp.values, hvalues]
  obtain ⟨hleft, hright, htexts, hvalues⟩ := hall
  exact ⟨marks_group hleft, marks_group hright, (Text.Alike.joinFragments k htexts).skeleton,
    hvalues⟩

/-- A predicate is alike to what another one of its text and bindings is alike to. -/
theorem of_eq (h : Alike r p') (htext : p.text = r.text) (hbindings : p.bindings = r.bindings) :
    Alike p p' := by
  obtain ⟨hleft, hright, hskeleton, hvalues⟩ := h
  refine ⟨?_, hright, htext ▸ hskeleton, hbindings ▸ hvalues⟩
  rw [htext, paths, hbindings]
  exact hleft

/-- Where each binds to distinct paths, predicates that are alike are lowered to one statement. -/
theorem lower (h : Alike p p') (hp : p.paths.Nodup) (hp' : p'.paths.Nodup)
    (style : PlaceholderStyle) : ∃ positional,
      QueryCompiler.lower style p.text (.ofBindings p.bindings) = .ok positional ∧
      QueryCompiler.lower style p'.text (.ofBindings p'.bindings) = .ok positional := by
  have hvalues : ∀ {p : Predicate}, p.paths.Nodup →
      List.Forall₂ (fun path v => (ofBindings p.bindings).get? path = some v) p.paths
        (p.bindings.map Binding.value) := by
    intro p hp
    rw [paths, List.forall₂_map_left_iff, List.forall₂_map_right_iff, List.forall₂_same]
    exact fun b hb => get?_ofBindings hp hb
  exact lower_alike h.left h.right h.skeleton (hvalues hp) (h.values ▸ hvalues hp') style

end Alike

/-! ## Members without text -/

/-- The predicate contributes to the text of a group. -/
def hasText (p : Predicate) : Bool :=
  !p.text.isEmpty

theorem texts_filter (ps : List Predicate) :
    texts (ps.filter hasText) = (texts ps).filter fun s => !s.isEmpty := by
  induction ps with
  | nil => rfl
  | cons p ps ih =>
    rw [List.filter_cons, texts, List.filter_cons]
    change (texts (if !p.text.isEmpty then _ else _)) = _
    split
    · rw [texts, ih]
    · exact ih

/-- Members without text bind nothing, as their text would name it. -/
theorem bindingsOf_filter (h : ∀ p ∈ ps, Marks p.text p.paths) :
    bindingsOf (ps.filter hasText) = bindingsOf ps := by
  induction ps with
  | nil => rfl
  | cons p ps ih =>
    obtain ⟨hp, hps⟩ := List.forall_mem_cons.1 h
    rw [List.filter_cons]
    split
    · rw [bindingsOf, ih hps, bindingsOf]
    case isFalse hempty =>
      have htext : p.text = "" := by simpa [hasText] using hempty
      rw [htext] at hp
      rw [bindingsOf, List.map_eq_nil_iff.1 hp.of_empty, List.nil_append, ih hps]

/-- A group is what it is without its members without text. -/
theorem group_filter (k : Connective) (h : ∀ p ∈ ps, Marks p.text p.paths) :
    (group k ps).text = (group k (ps.filter hasText)).text ∧
      (group k ps).bindings = (group k (ps.filter hasText)).bindings := by
  refine ⟨?_, ?_⟩
  · rw [Predicate.text, Predicate.text, texts_filter, Text.joinFragments, Text.joinFragments,
      List.filter_filter]
    simp only [Bool.and_self]
  · rw [bindings, bindings, bindingsOf_filter h]

/-- A group of one member that has a text is the member. -/
theorem group_singleton (k : Connective) (h : r.hasText = true) :
    (group k [r]).text = r.text ∧ (group k [r]).bindings = r.bindings := by
  refine ⟨?_, List.append_nil _⟩
  have hkeep : [r.text].filter (fun s => !s.isEmpty) = [r.text] :=
    List.filter_cons_of_pos h
  rw [Predicate.text, texts, texts, Text.joinFragments, hkeep]

end Predicate

/-! ## Leaves -/

theorem NamesOnce.alike {template path path' : String} {column : Column} (h : NamesOnce template)
    (hcolumn : Text.isPlain column.name = true) (hpath : IsPath path) (hpath' : IsPath path') :
    Text.Alike (Filled.text ⟨template, [column], path⟩)
      (Filled.text ⟨template, [column], path'⟩) := by
  obtain ⟨lead, gap, tail, hlead, hgap, htail, htext⟩ := h.exists_text hcolumn
  have hfront := (Text.Alike.refl (Column.marks hcolumn)).text_append lead hlead
  have hend := (Text.Alike.refl (Marks.text tail htail)).placeholder_append hpath hpath'
  rw [htext, htext]
  exact hfront.between gap hgap hend

namespace Operator

variable {op : Operator} {column : Column} {value : Value} {r : Predicate} {base base' : String}
  {n n' : Nat}

/-- Operators that do not read their value say the same under every path. -/
theorem text_of_not_needsValue {template : String} (h : op.template? = some template)
    (hvalue : op.needsValue = false) (hcolumn : Text.isPlain column.name = true)
    (path path' : String) :
    Filled.text ⟨template, [column], path⟩ = Filled.text ⟨template, [column], path'⟩ := by
  rw [← String.toList_inj, toList_text h hcolumn, toList_text h hcolumn]
  cases op with
  | eq | ne | lt | lte | gt | gte | like | contains | startsWith | endsWith | isIn | notIn |
    eqOrIn => exact absurd hvalue Bool.noConfusion
  | isNull | isNotNull | isBlank | isNotBlank => rfl

theorem filled_alike {template : String} (h : op.template? = some template)
    (hcolumn : Text.isPlain column.name = true) (hbase : IsBase base n) (hbase' : IsBase base' n') :
    (filled op column base value).Alike (filled op column base' value) := by
  refine ⟨filled_marks h hcolumn hbase, filled_marks h hcolumn hbase', ?_, ?_⟩
  · rw [text_filled h, text_filled h]
    cases hvalue : op.needsValue with
    | true =>
      have halike := (namesOnce_template h hvalue).alike hcolumn hbase.isPath_valuePath
        hbase'.isPath_valuePath
      exact halike.skeleton
    | false => rw [text_of_not_needsValue h hvalue hcolumn (valuePath base) (valuePath base')]
  · rw [filled, filled, Predicate.bindings, Predicate.bindings]
    split <;> rfl

theorem membership_alike {negated : Bool} {items : List Value}
    (hcolumn : Text.isPlain column.name = true) (hbase : IsBase base n) (hbase' : IsBase base' n') :
    (Predicate.membership column negated (Binding.ofItems (valuePath base) items)).Alike
      (.membership column negated (Binding.ofItems (valuePath base') items)) := by
  refine ⟨membership_marks hcolumn hbase, membership_marks hcolumn hbase', ?_, ?_⟩
  · have hitems : List.Forall₂ Text.Alike
        ((Binding.ofItems (valuePath base) items).map fun b => placeholder b.path)
        ((Binding.ofItems (valuePath base') items).map fun b => placeholder b.path) := by
      rw [Binding.ofItems, Binding.ofItems, List.map_map, List.map_map, List.forall₂_map_left_iff,
        List.forall₂_map_right_iff, List.forall₂_same]
      exact fun e _ => .placeholder (isPath_itemPath hbase.isPath_valuePath e.2)
        (isPath_itemPath hbase'.isPath_valuePath e.2)
    have hgap : isGap (if negated then " NOT IN (" else " IN (") = true := by
      cases negated <;> decide
    have hlist := (Text.Alike.refl (Column.marks hcolumn)).between _ hgap
      (Text.Alike.intercalate "," (by decide) hitems)
    exact (hlist.append_gap ")" (by decide)).skeleton
  · rw [Predicate.bindings, Predicate.bindings, Binding.ofItems, Binding.ofItems, List.map_map,
      List.map_map]
    rfl

/-- A comparison that is resolved under one path is resolved alike under every other. -/
theorem resolve_alike (h : op.resolve column base value = .ok r)
    (hcolumn : Text.isPlain column.name = true) (hbase : IsBase base n) (hbase' : IsBase base' n') :
    ∃ r', op.resolve column base' value = .ok r' ∧ r.Alike r' := by
  obtain ⟨op', template, value', htemplate, hfilled⟩ | ⟨negated, items, hmember⟩ :=
    exists_resolve_eq h
  · obtain rfl := Except.ok.inj ((hfilled base).symm.trans h)
    exact ⟨_, hfilled base', filled_alike htemplate hcolumn hbase hbase'⟩
  · obtain rfl := Except.ok.inj ((hmember base).symm.trans h)
    exact ⟨_, hmember base', membership_alike hcolumn hbase hbase'⟩

end Operator

/-! ## Pruning -/

namespace Condition

variable {σ : Type} (d : Dialect) (names : Names σ) (s : σ)

/-- The condition is resolved to no text. -/
def rendersEmpty (c : Condition) (base : String) : Bool :=
  match (c.resolve d names s base).run {} with
  | .ok p _ => p.text.isEmpty
  | .error _ _ => false

/-- The group of the members; one member stands for itself. -/
def grouped (k : Connective) : List Condition → Condition
  | [c] => c
  | cs => .group k cs

mutual

/-- The condition without the members that are resolved to no text, in all of its groups. A group
that is left with one member is that member. -/
def pruned : Condition → String → Condition
  | .group k members, base => grouped k (prunedMembers members base 0)
  | .negate inner, base => .negate (inner.pruned (innerPath base))
  | .compare path op value skipEmpty, _ => .compare path op value skipEmpty
  | .related path inner joins negated, _ => .related path inner joins negated
  | .custom template paths value, _ => .custom template paths value
  | .search path value mode, _ => .search path value mode

/-- The members of a group, from place `i` on, that are resolved to a text, each pruned. -/
def prunedMembers : List Condition → String → Nat → List Condition
  | [], _, _ => []
  | c :: cs, base, i =>
    if c.rendersEmpty d names s (memberPath base i) then prunedMembers cs base (i + 1)
    else c.pruned (memberPath base i) :: prunedMembers cs base (i + 1)

end

/-- Under every path, and however far the statement has come, the condition is resolved to a
predicate that is alike. -/
def ResolvesAlike (c : Condition) (p : Predicate) : Prop :=
  ∀ base n, IsBase base n →
    ∃ p', (∀ q, (c.resolve d names s base).run q = .ok p' q) ∧ p.Alike p'

variable {d names s} {c : Condition} {cs : List Condition} {base : String} {p : Predicate}
  {ps : List Predicate} {q q' : Progress} {n : Nat}

mutual

theorem hasTemplate_of_isBoolean : ∀ (c : Condition), c.isBoolean = true → c.hasTemplate = false
  | .compare _ _ _ _, _ | .search _ _ _, _ => rfl
  | .negate inner, h => hasTemplate_of_isBoolean inner h
  | .group _ members, h => haveTemplate_of_areBoolean members h

theorem haveTemplate_of_areBoolean : ∀ (cs : List Condition), areBoolean cs = true →
    haveTemplate cs = false
  | [], _ => rfl
  | c :: cs, h => by
    obtain ⟨hc, hcs⟩ := Bool.and_eq_true_iff.1 h
    rw [haveTemplate, hasTemplate_of_isBoolean c hc, haveTemplate_of_areBoolean cs hcs]
    rfl

end

/-- How far the statement has come makes no difference to whether a condition has a text. -/
theorem rendersEmpty_eq (hc : c.hasTemplate = false)
    (h : (c.resolve d names s base).run q = .ok p q') :
    c.rendersEmpty d names s base = p.text.isEmpty := by
  have hsilent : c.saysNothing = true → ∃ p, c.resolve d names s base = pure p ∧ p.IsSilent :=
    resolve_of_saysNothing c
  rw [Bool.eq_iff_iff, String.isEmpty_iff]
  constructor
  · intro hempty
    unfold rendersEmpty at hempty
    split at hempty
    case h_1 p₀ q₀ hrun =>
      have hnothing := saysNothing_of_text hc hrun (String.isEmpty_iff.1 hempty)
      obtain ⟨p₁, hp₁, hp⟩ := hsilent hnothing
      rw [hp₁] at h
      obtain ⟨rfl, -⟩ := run_pure_eq_ok.1 h
      exact hp.text
    · exact absurd hempty Bool.false_ne_true
  · intro htext
    obtain ⟨p₁, hp₁, hp⟩ := hsilent (saysNothing_of_text hc h htext)
    rw [rendersEmpty, hp₁]
    exact String.isEmpty_iff.2 hp.text

/-! ## Groups of what is alike -/

theorem resolveMembers_alike (h : List.Forall₂ (ResolvesAlike d names s) cs ps)
    (hbase : IsBase base n) (i : Nat) :
    ∃ ps', (∀ q, (resolveMembers d names cs s base i).run q = .ok ps' q) ∧
      List.Forall₂ Predicate.Alike ps ps' := by
  induction h generalizing i with
  | nil => exact ⟨[], fun _ => resolveMembers_nil_eq_ok.2 ⟨rfl, rfl⟩, .nil⟩
  | cons hc _ ih =>
    obtain ⟨p', hp', halike⟩ := hc _ n (hbase.member i)
    obtain ⟨ps', hps', halikes⟩ := ih (i + 1)
    exact ⟨p' :: ps', fun q => resolveMembers_cons_eq_ok.2 ⟨p', q, ps', hp' q, hps' q, rfl⟩,
      .cons halike halikes⟩

/-- The group of what is left of its members says what the whole group says. -/
theorem resolvesAlike_grouped {k : Connective} (hmarks : ∀ p ∈ ps, Marks p.text p.paths)
    (h : List.Forall₂ (ResolvesAlike d names s) cs (ps.filter Predicate.hasText)) :
    ResolvesAlike d names s (grouped k cs) (.group k ps) := by
  intro base n hbase
  obtain ⟨htext, hbindings⟩ := Predicate.group_filter k hmarks
  have hgroup : ∃ p', (∀ q, ((group k cs).resolve d names s base).run q = .ok p' q) ∧
      (Predicate.group k ps).Alike p' := by
    obtain ⟨ps', hps', halike⟩ := resolveMembers_alike h hbase 0
    exact ⟨.group k ps', fun q => resolve_group_eq_ok.2 ⟨ps', hps' q, rfl⟩,
      (Predicate.Alike.group k halike).of_eq htext hbindings⟩
  -- a group of one member is dropped, and with it a step of the path
  have hone : ∀ c, cs = [c] → ∃ p', (∀ q, (c.resolve d names s base).run q = .ok p' q) ∧
      (Predicate.group k ps).Alike p' := by
    rintro c rfl
    generalize hkept : ps.filter Predicate.hasText = kept at h htext hbindings
    cases h with
    | @cons _ r _ _ hc hnil =>
      cases hnil
      have hr : r.hasText = true := (List.mem_filter.1 (hkept ▸ List.mem_singleton_self r)).2
      obtain ⟨hsame, hbound⟩ := Predicate.group_singleton k hr
      obtain ⟨p', hp', halike⟩ := hc base n hbase
      exact ⟨p', hp', halike.of_eq (htext.trans hsame) (hbindings.trans hbound)⟩
  unfold Condition.grouped
  split
  · exact hone _ rfl
  · exact hgroup

/-! ## Pruned conditions -/

/-- The paths are resolved to columns with plain names. -/
def PlainColumns (names : Names σ) (s : σ) (paths : List String) : Prop :=
  ∀ path ∈ paths, ∀ column, names.column s path = .ok column → Text.isPlain column.name = true

theorem resolvesAlike_compare {path : String} {op : Operator} {value : Value} {skipEmpty : Bool}
    (hplain : PlainColumns names s (compare path op value skipEmpty).columnPaths)
    (hbase : IsBase base n)
    (h : ((compare path op value skipEmpty).resolve d names s base).run q = .ok p q') :
    ResolvesAlike d names s (.compare path op value skipEmpty) p := by
  intro base' n' hbase'
  obtain ⟨rfl, ⟨hnothing, rfl⟩ | ⟨hcompares, column, hcolumn, hr⟩⟩ := resolve_compare_eq_ok.1 h
  · exact ⟨.absent, fun _ => resolve_compare_eq_ok.2 ⟨rfl, .inl ⟨hnothing, rfl⟩⟩, .absent⟩
  · have hpath : path ∈ (compare path op value skipEmpty).columnPaths := by
      rw [columnPaths, if_neg fun hempty => hcompares (by simp [comparesNothing, hempty])]
      exact List.mem_singleton_self path
    obtain ⟨p', hp', halike⟩ :=
      Operator.resolve_alike hr (hplain path hpath column hcolumn) hbase hbase'
    exact ⟨p', fun _ => resolve_compare_eq_ok.2 ⟨rfl, .inr ⟨hcompares, column, hcolumn, hp'⟩⟩,
      halike⟩

theorem resolvesAlike_search {path : String} {value : Value} {mode : SearchMode}
    (hplain : PlainColumns names s (search path value mode).columnPaths) (hbase : IsBase base n)
    (h : ((search path value mode).resolve d names s base).run q = .ok p q') :
    ResolvesAlike d names s (.search path value mode) p := by
  intro base' n' hbase'
  obtain ⟨rfl, template, htemplate, sql, hsql, rfl⟩ := resolve_search_eq_ok.1 h
  obtain ⟨column, hcolumn, rfl⟩ := Names.fill_singleton_iff.1 hsql
  have hname := hplain path (List.mem_singleton_self path) column hcolumn
  have honce := Dialect.namesOnce_searchTemplate htemplate
  have hsql' : names.fill s template [path] base' = .ok ⟨template, [column], valuePath base'⟩ :=
    Names.fill_singleton_iff.2 ⟨column, hcolumn, rfl⟩
  refine ⟨_, fun _ => resolve_search_eq_ok.2 ⟨rfl, template, htemplate, _, hsql', rfl⟩, ?_⟩
  exact ⟨honce.marks hname hbase.isPath_valuePath, honce.marks hname hbase'.isPath_valuePath,
    (honce.alike hname hbase.isPath_valuePath hbase'.isPath_valuePath).skeleton, rfl⟩

theorem ResolvesAlike.marks (h : ResolvesAlike d names s c p) (hbase : IsBase base n) :
    Marks p.text p.paths := by
  obtain ⟨p', -, halike⟩ := h base n hbase
  exact halike.left

theorem ResolvesAlike.negate {inner : Condition} (h : ResolvesAlike d names s inner p) :
    ResolvesAlike d names s (.negate inner) (.negate p) := by
  intro base n hbase
  obtain ⟨p', hp', halike⟩ := h _ n hbase.inner
  exact ⟨.negate p', fun q => resolve_negate_eq_ok.2 ⟨p', hp' q, rfl⟩, halike.negate⟩

mutual

/-- What is resolved under a path is resolved alike under every path once it is pruned. -/
theorem resolvesAlike_pruned : ∀ (c : Condition) {base : String} {p : Predicate} {q q' : Progress},
    c.isBoolean = true → PlainColumns names s c.columnPaths → IsBase base n →
    (c.resolve d names s base).run q = .ok p q' →
    ResolvesAlike d names s (c.pruned d names s base) p
  | .compare path op value skipEmpty, base, p, q, q', _, hplain, hbase, h =>
    resolvesAlike_compare hplain hbase h
  | .search path value mode, base, p, q, q', _, hplain, hbase, h =>
    resolvesAlike_search hplain hbase h
  | .negate inner, base, p, q, q', hc, hplain, hbase, h => by
    obtain ⟨r, hr, rfl⟩ := resolve_negate_eq_ok.1 h
    exact (resolvesAlike_pruned inner hc hplain hbase.inner hr).negate
  | .group k members, base, p, q, q', hc, hplain, hbase, h => by
    obtain ⟨parts, hparts, rfl⟩ := resolve_group_eq_ok.1 h
    obtain ⟨hkept, hmarks⟩ := resolvesAlike_prunedMembers members hc hplain hbase hparts
    exact resolvesAlike_grouped hmarks hkept
  | .related _ _ _ _, _, _, _, _, hc, _, _, _ => absurd hc Bool.false_ne_true
  | .custom _ _ _, _, _, _, _, hc, _, _, _ => absurd hc Bool.false_ne_true

theorem resolvesAlike_prunedMembers : ∀ (cs : List Condition) {base : String} {i : Nat}
    {ps : List Predicate} {q q' : Progress}, areBoolean cs = true →
    PlainColumns names s (columnPathsOf cs) → IsBase base n →
    (resolveMembers d names cs s base i).run q = .ok ps q' →
    List.Forall₂ (ResolvesAlike d names s) (prunedMembers d names s cs base i)
        (ps.filter Predicate.hasText) ∧ ∀ p ∈ ps, Marks p.text p.paths
  | [], base, i, ps, q, q', _, _, _, h => by
    obtain ⟨-, rfl⟩ := resolveMembers_nil_eq_ok.1 h
    exact ⟨.nil, nofun⟩
  | c :: cs, base, i, ps, q, q', hc, hplain, hbase, h => by
    obtain ⟨hc, hcs⟩ := Bool.and_eq_true_iff.1 hc
    obtain ⟨hplain, hplains⟩ := List.forall_mem_append.1 hplain
    obtain ⟨p, mid, ps, hp, hps, rfl⟩ := resolveMembers_cons_eq_ok.1 h
    have hfirst := resolvesAlike_pruned c hc hplain (hbase.member i) hp
    obtain ⟨hkept, hmarks⟩ := resolvesAlike_prunedMembers cs hcs hplains hbase hps
    refine ⟨?_, List.forall_mem_cons.2 ⟨hfirst.marks hbase, hmarks⟩⟩
    rw [prunedMembers, rendersEmpty_eq (hasTemplate_of_isBoolean c hc) hp, List.filter_cons]
    cases hempty : p.text.isEmpty with
    | true => simpa [Predicate.hasText, hempty] using hkept
    | false => simpa [Predicate.hasText, hempty] using ⟨hfirst, hkept⟩

end

theorem placed_verbatim : Names.verbatim.Placed where
  subquery h := absurd h nofun

/-- Pruning a condition of comparisons, searches, groups and negations over plain fields does not
change the statement that is executed: the condition with its empty members and the one without them
are lowered to the same text and to the same values, in both styles. -/
theorem pruned_lower {c : Condition} {p : Predicate} {q q' : Progress} (hc : c.isBoolean = true)
    (hplain : ∀ path ∈ c.columnPaths, Text.isPlain path = true)
    (h : (c.resolve d .verbatim () "c1").run q = .ok p q') :
    ∃ p', (∀ r, ((c.pruned d .verbatim () "c1").resolve d .verbatim () "c1").run r = .ok p' r) ∧
      ∀ style, ∃ positional, lower style p.text (.ofBindings p.bindings) = .ok positional ∧
        lower style p'.text (.ofBindings p'.bindings) = .ok positional := by
  have hbase : ∀ n, IsBase "c1" n := fun n => isBase_of_isPart (by decide)
  have hcolumns : PlainColumns .verbatim () c.columnPaths := by
    intro path hpath column hcolumn
    obtain rfl := Except.ok.inj hcolumn
    exact hplain path hpath
  obtain ⟨p', hp', halike⟩ := resolvesAlike_pruned c hc hcolumns (hbase 0) h "c1" 0 (hbase 0)
  exact ⟨p', hp', halike.lower (resolve_scoped placed_verbatim c (hbase _) h).nodup
    (resolve_scoped placed_verbatim _ (hbase _) (hp' {})).nodup⟩

/-- Two comparisons and a group are dropped, and two groups of one member with them; the values
behind them move to other paths. -/
theorem pruned_lower_mixed :
    let c : Condition := .group .and [
      .compare "a" .eq (.text "x") false,
      .group .or [
        .compare "b" .ne (.list []) true, .compare "d" .isIn (.list [.int 1, .int 2]) false],
      .group .and [.compare "e" .eq (.text "") true],
      .negate (.group .or [.compare "" .eq (.int 0) false, .compare "f" .gt (.int 3) false])]
    let left : Condition := .group .and [
      .compare "a" .eq (.text "x") false, .compare "d" .isIn (.list [.int 1, .int 2]) false,
      .negate (.compare "f" .gt (.int 3) false)]
    c.pruned .mysql .verbatim () "c1" = left ∧
      ∃ p p', (c.resolve .mysql .verbatim () "c1").run {} = .ok p {} ∧
        (left.resolve .mysql .verbatim () "c1").run {} = .ok p' {} ∧
        p.paths = ["c1.c[0].v", "c1.c[1].c[1].v[0]", "c1.c[1].c[1].v[1]", "c1.c[3].c.c[1].v"] ∧
        p'.paths = ["c1.c[0].v", "c1.c[1].v[0]", "c1.c[1].v[1]", "c1.c[2].c.v"] ∧
        ∀ style, ∃ positional, lower style p.text (.ofBindings p.bindings) = .ok positional ∧
          lower style p'.text (.ofBindings p'.bindings) = .ok positional := by
  intro c left
  have hpruned : c.pruned .mysql .verbatim () "c1" = left := rfl
  obtain ⟨p, hp⟩ : ∃ p, (c.resolve .mysql .verbatim () "c1").run {} = .ok p {} := ⟨_, rfl⟩
  obtain ⟨p', hp', hlower⟩ := pruned_lower (c := c) rfl (by decide) hp
  refine ⟨hpruned, p, p', hp, hp' {}, ?_, ?_, hlower⟩
  · cases hp
    decide
  · cases hp' {}
    decide

end Condition
end QueryCompiler
