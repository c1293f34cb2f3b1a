import QueryCompiler.Proofs.Build.Resolve
import QueryCompiler.Proofs.Compile.Resolved
import QueryCompiler.Proofs.Parameters.Texts
import QueryCompiler.Proofs.Sql.Placeholders

/-!
# The templates of conditions

Comparisons, searches and templates of the caller are filled in where a condition is resolved, and
the value of each is bound there: as a whole, and by its items too if the template is one of the
caller's. The templates written here ask for no item (`NamesOnce.asks_whole`).
-/

namespace QueryCompiler

open Build Params

variable {catalog : Catalog} {f : Filled} {v : Value}

/-! ## Templates of predicates -/

namespace Predicate

mutual

/-- The templates in a predicate, with what is bound for each of them. -/
def templates : Predicate → List (Filled × List Binding)
  | .absent | .membership _ _ _ => []
  | .filled sql bs => [(sql, bs)]
  | .group _ parts => templatesOf parts
  | .negate inner => inner.templates
  | .related _ ⟨_, _, _, joins, enforced⟩ inner =>
    joinsTemplates joins ++ enforced.templates ++ inner.templates

/-- The templates in the parts of a group. -/
def templatesOf : List Predicate → List (Filled × List Binding)
  | [] => []
  | p :: ps => p.templates ++ templatesOf ps

/-- The templates in joins. -/
def joinsTemplates : List (JoinClause Predicate) → List (Filled × List Binding)
  | [] => []
  | ⟨_, _, _, _, ⟨enforced, requested⟩⟩ :: js =>
    enforced.templates ++ requested.templates ++ joinsTemplates js

end

variable {t : Filled × List Binding} {b : Binding}

mutual

theorem mem_bindings_of_templates (hb : b ∈ t.2) :
    ∀ {p : Predicate}, t ∈ p.templates → b ∈ p.bindings
  | .absent, h | .membership _ _ _, h => absurd h List.not_mem_nil
  | .filled sql bs, h => by
    obtain rfl := List.mem_singleton.1 h
    exact hb
  | .group _ parts, h => by
    rw [templates] at h
    rw [bindings]
    exact mem_bindingsOf_of_templates hb h
  | .negate inner, h => by
    rw [templates] at h
    rw [bindings]
    exact mem_bindings_of_templates hb h
  | .related _ ⟨_, _, _, joins, enforced⟩ inner, h => by
    rw [bindings]
    rcases List.mem_append.1 h with h | h
    · refine List.mem_append_left _ ?_
      rcases List.mem_append.1 h with h | h
      · exact List.mem_append_left _ (mem_joinsBindings_of_templates hb h)
      · exact List.mem_append_right _ (mem_bindings_of_templates hb h)
    · exact List.mem_append_right _ (mem_bindings_of_templates hb h)

theorem mem_bindingsOf_of_templates (hb : b ∈ t.2) :
    ∀ {ps : List Predicate}, t ∈ templatesOf ps → b ∈ bindingsOf ps
  | [], h => absurd h List.not_mem_nil
  | p :: ps, h => by
    rcases List.mem_append.1 h with h | h
    · exact List.mem_append_left _ (mem_bindings_of_templates hb h)
    · exact List.mem_append_right _ (mem_bindingsOf_of_templates hb h)

theorem mem_joinsBindings_of_templates (hb : b ∈ t.2) :
    ∀ {js : List (JoinClause Predicate)}, t ∈ joinsTemplates js → b ∈ joinsBindings js
  | [], h => absurd h List.not_mem_nil
  | ⟨_, _, _, _, ⟨enforced, requested⟩⟩ :: js, h => by
    rw [joinsBindings]
    rcases List.mem_append.1 h with h | h
    · refine List.mem_append_left _ ?_
      rcases List.mem_append.1 h with h | h
      · exact List.mem_append_left _ (mem_bindings_of_templates hb h)
      · exact List.mem_append_right _ (mem_bindings_of_templates hb h)
    · exact List.mem_append_right _ (mem_joinsBindings_of_templates hb h)

end

theorem joinsTemplates_eq (js : List (JoinClause Predicate)) :
    joinsTemplates js = (joinsParts js).flatMap templates := by
  induction js with
  | nil => rfl
  | cons j js ih =>
    obtain ⟨_, _, _, _, ⟨enforced, requested⟩⟩ := j
    rw [joinsTemplates, ih]
    simp [joinsParts, Filter.parts]

end Predicate

/-! ## What is bound for a template -/

/-- How the value of a template in a condition is bound. -/
inductive Supplied : Filled × List Binding → Prop
  | none (f : Filled) : Supplied (f, [])
  | items (f : Filled) (v : Value) : Supplied (f, Binding.withItems f.path v)
  /-- A template that asks for no item. -/
  | whole (f : Filled) (v : Value)
      (hwhole : ∀ asks, Asks f.template asks → ∀ ask ∈ asks, ask = .whole) :
      Supplied (f, [⟨f.path, v⟩])

/-- The template names its value by a path, and the value is bound. -/
structure Fits (t : Filled × List Binding) : Prop where
  isPath : IsPath t.1.path
  nonempty : t.1.path ≠ ""
  supplied : Supplied t

theorem Ask.source_whole_ne (i : Nat) : Ask.whole.source ≠ (Ask.item i).source := by
  intro heq
  have hlength := congrArg List.length heq
  simp [source, itemPath] at hlength

/-- A template that names its value once asks for no item. -/
theorem NamesOnce.asks_whole {template : String} (h : NamesOnce template) {asks : List Ask}
    (hasks : Asks template asks) : ∀ ask ∈ asks, ask = .whole := by
  obtain ⟨slots, ⟨lead, gap, tail, hlead, hgap, htail, heq⟩, -, htemplate⟩ := h
  obtain ⟨cut, hclean, htext, hcontents⟩ := hasks
  have hsource : slots.flatMap Slot.source =
      slots.flatMap (Slot.filled "$COL".toList "EXPR".toList) :=
    List.flatMap_congr fun slot _ => by cases slot <;> rfl
  have hgap := (Marks.gap_iff.1 hgap).1
  have honce : (Cut.slot (lead.toList ++ "$COL".toList ++ gap.toList) "EXPR".toList
      (.last tail.toList)).Clean := by
    refine ⟨Piece.not_opens_of_not_mem ?_, by decide, Piece.not_opens_of_not_mem htail⟩
    simp [hlead, hgap]
  obtain rfl := honce.unique hclean (by
    rw [htext, htemplate, hsource, heq]
    rfl)
  intro ask hask
  have hmem : ask.source ∈ asks.map Ask.source := List.mem_map_of_mem hask
  rw [← hcontents, Cut.contents, Cut.contents, List.mem_singleton] at hmem
  cases ask with
  | whole => rfl
  | item i => exact absurd hmem.symm (Ask.source_whole_ne i)

theorem Names.fill_eq_ok {σ : Type} {names : Names σ} {s : σ} {template base : String}
    {paths : List String} (h : names.fill s template paths base = .ok f) :
    f.template = template ∧ f.path = valuePath base := by
  obtain ⟨columns, -, rfl⟩ := fill_iff.1 h
  exact ⟨rfl, rfl⟩

theorem valuePath_ne {base : String} (h : base ≠ "") : valuePath base ≠ "" := by
  simp [valuePath, childPath_of_ne h]

theorem Fits.of_isBase {base : String} {n : Nat} {t : Filled × List Binding} (hbase : IsBase base n)
    (hpath : t.1.path = valuePath base) (h : Supplied t) : Fits t where
  isPath := hpath ▸ hbase.isPath_valuePath
  nonempty := hpath ▸ valuePath_ne hbase.nonempty
  supplied := h

theorem Operator.resolve_fits {op : Operator} {column : Column} {base : String} {value : Value}
    {r : Predicate} {n : Nat} (hbase : IsBase base n) (h : op.resolve column base value = .ok r) :
    ∀ t ∈ r.templates, Fits t := by
  obtain ⟨op, template, value, htemplate, rfl⟩ | ⟨negated, items, rfl⟩ := resolve_eq_ok h
  · intro t ht
    obtain rfl := List.mem_singleton.1 ht
    refine .of_isBase hbase rfl ?_
    split
    case isTrue hvalue =>
      refine .whole _ _ fun asks hasks => (op.namesOnce_template ?_ hvalue).asks_whole hasks
      rw [htemplate]
      rfl
    case isFalse => exact .none _
  · exact nofun

/-- In the subqueries that names stand for, the values of templates are bound. -/
structure Names.Fit {σ : Type} (names : Names σ) : Prop where
  subquery : ∀ {s path joins paths body s' p p'},
    (names.subquery s path joins paths).run p = .ok (body, s') p' →
      ∀ t ∈ Predicate.joinsTemplates body.joins ++ body.enforced.templates, Fits t

namespace Condition

variable {σ : Type} {d : Dialect} {names : Names σ}

mutual

theorem resolve_fits (hn : names.Fit) :
    ∀ (c : Condition) {s : σ} {base : String} {n : Nat} {r : Predicate} {p p' : Progress},
      IsBase base n → (c.resolve d names s base).run p = .ok r p' → ∀ t ∈ r.templates, Fits t
  | .compare path op value skipEmpty, s, base, n, r, p, p', hbase, h => by
    obtain ⟨-, ⟨-, rfl⟩ | ⟨-, column, -, hr⟩⟩ := resolve_compare_eq_ok.1 h
    · exact nofun
    · exact Operator.resolve_fits hbase hr
  | .group k members, s, base, n, r, p, p', hbase, h => by
    obtain ⟨parts, hparts, rfl⟩ := resolve_group_eq_ok.1 h
    exact resolveMembers_fits hn members hbase hparts
  | .negate inner, s, base, n, r, p, p', hbase, h => by
    obtain ⟨q, hq, rfl⟩ := resolve_negate_eq_ok.1 h
    rw [Predicate.templates]
    exact resolve_fits hn inner hbase.inner hq
  | .custom template paths value, s, base, n, r, p, p', hbase, h => by
    obtain ⟨-, sql, hfill, rfl⟩ := resolve_custom_eq_ok.1 h
    obtain ⟨-, hpath⟩ := Names.fill_eq_ok hfill
    intro t ht
    obtain rfl := List.mem_singleton.1 ht
    refine .of_isBase hbase hpath ?_
    rw [← hpath]
    cases value with
    | none => exact .none sql
    | some v => exact .items sql v
  | .search path value mode, s, base, n, r, p, p', hbase, h => by
    obtain ⟨-, template, htemplate, sql, hfill, rfl⟩ := resolve_search_eq_ok.1 h
    obtain ⟨hsource, hpath⟩ := Names.fill_eq_ok hfill
    intro t ht
    obtain rfl := List.mem_singleton.1 ht
    refine .of_isBase hbase hpath ?_
    rw [← hpath]
    refine .whole sql value fun asks hasks => ?_
    exact (Dialect.namesOnce_searchTemplate htemplate).asks_whole (hsource ▸ hasks)
  | .related path inner joins negated, s, base, n, r, p, p', hbase, h => by
    obtain ⟨-, -, rfl⟩ | ⟨-, body, s', mid, q, hbody, hq, rfl⟩ := resolve_related_eq_ok.1 h
    · exact nofun
    · rw [Predicate.templates]
      exact List.forall_mem_append.2 ⟨hn.subquery hbody, resolve?_fits hn hbase.inner hq⟩

theorem resolve?_fits (hn : names.Fit) {c : Option Condition} {s : σ} {base : String} {n : Nat}
    {r : Predicate} {p p' : Progress} (hbase : IsBase base n)
    (h : (resolve? d names c s base).run p = .ok r p') : ∀ t ∈ r.templates, Fits t := by
  cases c with
  | none =>
    obtain ⟨rfl, -⟩ := run_pure_eq_ok.1 h
    exact nofun
  | some c => exact resolve_fits hn c hbase h

theorem resolveMembers_fits (hn : names.Fit) :
    ∀ (cs : List Condition) {s : σ} {base : String} {i n : Nat} {rs : List Predicate}
      {p p' : Progress}, IsBase base n → (resolveMembers d names cs s base i).run p = .ok rs p' →
      ∀ t ∈ Predicate.templatesOf rs, Fits t
  | [], s, base, i, n, rs, p, p', _, h => by
    obtain ⟨-, rfl⟩ := resolveMembers_nil_eq_ok.1 h
    exact nofun
  | c :: cs, s, base, i, n, rs, p, p', hbase, h => by
    obtain ⟨r, mid, rs', hr, hrs, rfl⟩ := resolveMembers_cons_eq_ok.1 h
    exact List.forall_mem_append.2 ⟨resolve_fits hn c (hbase.member i) hr,
      resolveMembers_fits hn cs hbase hrs⟩

end

end Condition

theorem Names.fit_ofTable (a : Access) (qualifier : Qualifier) : (Names.ofTable a qualifier).Fit :=
  ⟨fun h => absurd h run_reject_ne_ok⟩

theorem Names.fit_ofTree (catalog : Catalog) (depth : Nat) : (Names.ofTree catalog depth).Fit := by
  induction depth with
  | zero => exact ⟨fun h => absurd h nofun⟩
  | succ depth ih =>
    refine ⟨fun {s path joins paths body s' p p'} h => ?_⟩
    change (s.subquery catalog (Names.ofTree catalog depth) path joins paths).run p = _ at h
    obtain ⟨link, access, tree, _, _, -, -, -, -, -, -, -, hclauses, henforced, -⟩ :=
      Scope.subquery_eq_ok h
    refine List.forall_mem_append.2 ⟨?_, ?_⟩
    · rw [Predicate.joinsTemplates_eq, List.forall_mem_flatMap]
      intro part hpart
      obtain ⟨c, _, _, _, _, _, hbase, hresolve⟩ := JoinTree.clauses_resolved hclauses part hpart
      exact Condition.resolve?_fits ih hbase hresolve
    · exact Condition.resolve?_fits ih (isBase_joinBase false (Nat.lt_succ_self _)) henforced

theorem Predicate.ResolvedFrom.fits {c : Option Condition} {r : Predicate}
    (h : r.ResolvedFrom catalog c) : ∀ t ∈ r.templates, Fits t := by
  rcases h with ⟨access, qualifier, _, _, _, _, _, hbase, h⟩ | ⟨depth, _, _, _, _, _, hbase, h⟩
  · exact Condition.resolve?_fits (Names.fit_ofTable access qualifier) hbase h
  · exact Condition.resolve?_fits (Names.fit_ofTree catalog depth) hbase h

/-! ## Templates of the request -/

/-- The condition has the template, with this value, where it is resolved: a condition on related
rows is left out if it names no relationship. -/
inductive Condition.Uses (template : String) (v : Value) : Condition → Prop
  | custom (paths : List String) : Uses template v (.custom template paths (some v))
  | member {k : Connective} {members : List Condition} {c : Condition} (hc : c ∈ members) :
      Uses template v c → Uses template v (.group k members)
  | negate {inner : Condition} : Uses template v inner → Uses template v (.negate inner)
  | related {path : String} {inner : Condition} {joins : List Join} {negated : Bool}
      (hpath : path ≠ "") : Uses template v inner →
      Uses template v (.related path (some inner) joins negated)

/-- Each member of a group is resolved to one of the parts. -/
theorem Condition.exists_resolve_of_mem {σ : Type} {d : Dialect} {names : Names σ} {c : Condition}
    {cs : List Condition} {s : σ} {base : String} {i : Nat} {rs : List Predicate}
    {p p' : Progress} (hc : c ∈ cs) (h : (resolveMembers d names cs s base i).run p = .ok rs p') :
    ∃ j q r q', (c.resolve d names s (memberPath base j)).run q = .ok r q' ∧ r ∈ rs := by
  induction cs generalizing i rs p with
  | nil => exact absurd hc List.not_mem_nil
  | cons c' cs ih =>
    obtain ⟨r, mid, rs', hr, hrs, rfl⟩ := resolveMembers_cons_eq_ok.1 h
    rcases List.mem_cons.1 hc with rfl | hc
    · exact ⟨i, p, r, mid, hr, List.mem_cons_self⟩
    · obtain ⟨j, q, r', q', hr', hmem⟩ := ih hc hrs
      exact ⟨j, q, r', q', hr', List.mem_cons_of_mem _ hmem⟩

theorem Predicate.mem_templatesOf {t : Filled × List Binding} {p : Predicate} {ps : List Predicate}
    (hp : p ∈ ps) (ht : t ∈ p.templates) : t ∈ templatesOf ps := by
  induction ps with
  | nil => exact absurd hp List.not_mem_nil
  | cons q ps ih =>
    rw [templatesOf]
    rcases List.mem_cons.1 hp with rfl | hp
    · exact List.mem_append_left _ ht
    · exact List.mem_append_right _ (ih hp)

/-- A template that a condition has with a value stands in the predicate, and the value is bound
with its items. -/
theorem Condition.Uses.exists_mem {σ : Type} {d : Dialect} {names : Names σ} {c : Condition}
    {template : String} (hc : c.Uses template v) {s : σ} {base : String} {r : Predicate}
    {p p' : Progress} (h : (c.resolve d names s base).run p = .ok r p') :
    ∃ f : Filled, f.template = template ∧ (f, Binding.withItems f.path v) ∈ r.templates := by
  induction hc generalizing s base r p p' with
  | custom paths =>
    obtain ⟨-, sql, hfill, rfl⟩ := resolve_custom_eq_ok.1 h
    obtain ⟨htemplate, hpath⟩ := Names.fill_eq_ok hfill
    refine ⟨sql, htemplate, List.mem_singleton.2 ?_⟩
    rw [hpath]
    rfl
  | member hmem _ ih =>
    obtain ⟨parts, hparts, rfl⟩ := resolve_group_eq_ok.1 h
    obtain ⟨_, _, _, _, hr, hpart⟩ := exists_resolve_of_mem hmem hparts
    obtain ⟨f, htemplate, hf⟩ := ih hr
    exact ⟨f, htemplate, Predicate.mem_templatesOf hpart hf⟩
  | negate _ ih =>
    obtain ⟨q, hq, rfl⟩ := resolve_negate_eq_ok.1 h
    rw [Predicate.templates]
    exact ih hq
  | related hpath _ ih =>
    obtain ⟨hempty, -, -⟩ | ⟨-, body, s', mid, q, -, hq, rfl⟩ := resolve_related_eq_ok.1 h
    · exact absurd (String.isEmpty_iff.1 hempty) hpath
    · obtain ⟨f, htemplate, hf⟩ := ih hq
      obtain ⟨_, _, _, joins, enforced⟩ := body
      exact ⟨f, htemplate, List.mem_append_right _ hf⟩

theorem Condition.Uses.exists_mem_of_resolvedFrom {c : Condition} {template : String}
    (hc : c.Uses template v) {r : Predicate} (h : r.ResolvedFrom catalog (some c)) :
    ∃ f : Filled, f.template = template ∧ (f, Binding.withItems f.path v) ∈ r.templates := by
  rcases h with ⟨access, qualifier, _, _, _, _, _, -, h⟩ | ⟨depth, _, _, _, _, _, -, h⟩
  · exact hc.exists_mem h
  · exact hc.exists_mem h

end QueryCompiler
