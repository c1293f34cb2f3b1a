import QueryCompiler.Proofs.Parameters.Apart
import QueryCompiler.Proofs.Parameters.Templates

/-!
# What templates find bound

Templates stand in conditions, in computed columns and in terms of the order. In a condition the
value of a template is bound with its items, so whatever the template asks of it can be looked up. For
a computed column and for a term of the order the value is bound only as a whole, and what asks for an
item cannot be lowered.
-/

namespace QueryCompiler

open Build Params

variable {catalog : Catalog} {params : Params} {f : Filled} {v : Value}

/-! ## What is looked up -/

/-- Whatever the template asks of the value, is bound if the value has it; and the filled text is
lowered to it. -/
def Filled.Served (params : Params) (f : Filled) (v : Value) : Prop :=
  ∀ asks, Asks f.template asks → (∀ ask ∈ asks, (ask.value? v).isSome) →
    (∀ ask ∈ asks, params.get? (ask.path f.path) = ask.value? v) ∧
      ((∀ c ∈ f.columns, Text.IsInert c.text) → ∀ style, ∃ positional,
        lower style f.text params = .ok positional ∧
          positional.values.map some = asks.map (Ask.value? v))

/-- The value is bound as a whole and no item of it is, so the filled text is lowered only if the
template asks for no item. -/
structure Filled.ServedWhole (params : Params) (f : Filled) (v : Value) : Prop where
  whole : params.get? f.path = some v
  item : ∀ i, params.get? (itemPath f.path i) = none
  lowered_iff : ∀ asks, Asks f.template asks → (∀ c ∈ f.columns, Text.IsInert c.text) →
    ∀ style, (∃ positional, lower style f.text params = .ok positional) ↔
      ∀ ask ∈ asks, ask = .whole

theorem Filled.served_of_bound (hpath : IsPath f.path) (hne : f.path ≠ "")
    (h : ∀ asks, Asks f.template asks → ∀ ask ∈ asks, ∀ x, ask.value? v = some x →
      params.get? (ask.path f.path) = some x) : f.Served params v := by
  intro asks hasks hvalues
  have hbound : ∀ ask ∈ asks, params.get? (ask.path f.path) = ask.value? v := by
    intro ask hask
    obtain ⟨x, hx⟩ := Option.isSome_iff_exists.1 (hvalues ask hask)
    rw [hx]
    exact h asks hasks ask hask x hx
  have hvalue : ∀ ask ∈ asks, some ((ask.value? v).getD .null) = ask.value? v := by
    intro ask hask
    obtain ⟨x, hx⟩ := Option.isSome_iff_exists.1 (hvalues ask hask)
    rw [hx, Option.getD_some]
  refine ⟨hbound, fun hcolumns style => ?_⟩
  have hall : List.Forall₂ (fun ask x => params.get? (ask.path f.path) = some x) asks
      (asks.map fun ask => (ask.value? v).getD .null) := by
    rw [List.forall₂_map_right_iff, List.forall₂_same]
    intro ask hask
    rw [hbound ask hask, hvalue ask hask]
  obtain ⟨positional, hlower, heq⟩ := (Filled.lower_iff hasks hcolumns hpath hne).2 hall
  refine ⟨positional, hlower, ?_⟩
  rw [heq, List.map_map]
  exact List.map_congr_left hvalue

theorem Filled.servedWhole_of_bound (hpath : IsPath f.path) (hne : f.path ≠ "")
    (hwhole : params.get? f.path = some v) (hitem : ∀ i, params.get? (itemPath f.path i) = none) :
    f.ServedWhole params v where
  whole := hwhole
  item := hitem
  lowered_iff asks hasks hcolumns style := by
    constructor
    · rintro ⟨positional, hlower⟩ ask hask
      have hall := (Filled.lower_iff hasks hcolumns hpath hne).1 ⟨positional, hlower, rfl⟩
      obtain ⟨x, -, hx⟩ := forall₂_mem_right hall.flip hask
      cases ask with
      | whole => rfl
      | item i => exact absurd ((hitem i).symm.trans hx) nofun
    · intro hasks'
      have hall : List.Forall₂ (fun ask x => params.get? (ask.path f.path) = some x) asks
          (asks.map fun _ => v) := by
        rw [List.forall₂_map_right_iff, List.forall₂_same]
        intro ask hask
        rw [hasks' ask hask]
        exact hwhole
      obtain ⟨positional, hlower, -⟩ := (Filled.lower_iff hasks hcolumns hpath hne).2 hall
      exact ⟨positional, hlower⟩

/-- A value that is bound with its items, is bound to whatever can be asked of it. -/
theorem Binding.mem_withItems {ask : Ask} {path : String} {x : Value} (h : ask.value? v = some x) :
    ⟨ask.path path, x⟩ ∈ Binding.withItems path v := by
  cases ask with
  | whole =>
    obtain rfl := Option.some.inj h
    exact List.mem_append_right _ List.mem_cons_self
  | item i =>
    obtain ⟨items, hitems, hx⟩ := Option.bind_eq_some_iff.1 h
    refine List.mem_append_left _ (List.mem_map.2 ⟨(x, i), ?_, rfl⟩)
    rw [hitems]
    exact List.mem_zipIdx_iff_getElem?.2 hx

section Bag

variable {bs : List Binding} (hnodup : (bs.map Binding.path).Nodup)
include hnodup

theorem Filled.served_withItems (hpath : IsPath f.path) (hne : f.path ≠ "")
    (h : ∀ b ∈ Binding.withItems f.path v, b ∈ bs) : f.Served (.ofBindings bs) v :=
  Filled.served_of_bound hpath hne fun _ _ _ _ _ hx =>
    Params.get?_ofBindings hnodup (h _ (Binding.mem_withItems hx))

/-- A template of a condition is served if it has a value. -/
theorem Fits.served {t : Filled × List Binding} (ht : Fits t) (h : ∀ b ∈ t.2, b ∈ bs)
    (hvalue : t.2 ≠ []) : ∃ v, (Params.ofBindings bs).get? t.1.path = some v ∧
      t.1.Served (.ofBindings bs) v := by
  obtain ⟨hpath, hne, hsupplied⟩ := ht
  cases hsupplied with
  | none f => exact absurd rfl hvalue
  | items f v =>
    refine ⟨v, ?_, Filled.served_withItems hnodup hpath hne h⟩
    exact Params.get?_ofBindings hnodup (h ⟨f.path, v⟩ (List.mem_append_right _ List.mem_cons_self))
  | whole f v hwhole =>
    have hv := Params.get?_ofBindings hnodup (h ⟨f.path, v⟩ List.mem_cons_self)
    refine ⟨v, hv, Filled.served_of_bound hpath hne fun asks hasks ask hask x hx => ?_⟩
    obtain rfl := hwhole asks hasks ask hask
    obtain rfl := Option.some.inj hx
    exact hv

end Bag

/-- A template in a numbered part of a query is served by the whole value only. -/
theorem Select.Placed.servedWhole {s : Select} (hs : s.Placed) {part : String}
    (hpart : isPart part = true) (hother : part ∉ fixedParts) (hpath : f.path = valuePath part)
    (hv : ⟨f.path, v⟩ ∈ s.bindings) : f.ServedWhole (.ofBindings s.bindings) v := by
  have hbase : IsBase part 0 := isBase_of_isPart hpart
  refine Filled.servedWhole_of_bound ?_ ?_ (Params.get?_ofBindings hs.nodup hv) fun i => ?_
  · rw [hpath]
    exact hbase.isPath_valuePath
  · rw [hpath]
    exact valuePath_ne hbase.nonempty
  · refine Params.get?_ofBindings_eq_none hs.nodup ?_
    rw [hpath]
    exact hs.itemPath_not_mem hpart hother i

/-! ## Compiled templates -/

/-- The query that lists rows for a request, if there is one. -/
def Request.query? (d : Dialect) : Request → Option Query
  | .query _ q => some q
  | .recursive _ q => some q.query
  | .vectorSearch _ q => (q.toQuery d).toOption
  | _ => none

/-- The order that a request asks for. -/
def Request.order (d : Dialect) : Request → List OrderTerm
  | .aggregate _ q => q.order
  | r => ((r.query? d).map Query.order).getD []

namespace JoinTree

variable {names : Names Scope} {tree : JoinTree}

theorem exists_computedColumn {computed : List ComputedColumn} {columns : List ResultColumn}
    {bindings : List Binding} (h : tree.computedColumns names computed = .ok (columns, bindings))
    {i : Nat} {c : ComputedColumn} (hc : computed[i]? = some c) (hv : c.value = some v) :
    ∃ f : Filled, f.template = c.template ∧ f.path = valuePath (computedPart i) ∧
      .leaf ⟨.filled f, c.name, false, false⟩ ∈ columns ∧ ⟨f.path, v⟩ ∈ bindings := by
  obtain ⟨hcolumns, rfl⟩ := computedColumns_eq_ok h
  have hmem : (c, i) ∈ computed.zipIdx := List.mem_zipIdx_iff_getElem?.2 hc
  obtain ⟨column, hcolumn, f, hfill, rfl⟩ := forall₂_mem_right hcolumns.flip hmem
  obtain ⟨htemplate, hpath⟩ := Names.fill_eq_ok hfill
  refine ⟨f, htemplate, hpath, hcolumn, List.mem_flatMap.2 ⟨(c, i), hmem, ?_⟩⟩
  rw [hv, hpath]
  exact List.mem_cons_self

theorem exists_orderKey {order : List OrderTerm} {keys : List OrderKey}
    (h : tree.orderKeys names order = .ok keys) {i : Nat} {o : OrderTerm} {template : String}
    (ho : order[i]? = some o) (htemplate : o.template = some template) (hv : o.value = some v) :
    ∃ f : Filled, f.template = template ∧ f.path = valuePath (orderPart i) ∧
      ⟨.filled f, o.ascending, [⟨f.path, v⟩]⟩ ∈ keys := by
  obtain ⟨keys?, hkeys, h⟩ := except_bind_eq_ok.1 h
  obtain rfl := Except.ok.inj h
  have hmem : (o, i) ∈ order.zipIdx := List.mem_zipIdx_iff_getElem?.2 ho
  obtain ⟨key?, hkey, hrun⟩ := forall₂_mem_right (except_mapM_eq_ok.1 hkeys).flip hmem
  change tree.orderKey? names o i = .ok key? at hrun
  simp only [orderKey?, htemplate] at hrun
  obtain ⟨f, hfill, hrun⟩ := except_bind_eq_ok.1 hrun
  obtain rfl := Except.ok.inj hrun
  obtain ⟨hsource, hpath⟩ := Names.fill_eq_ok hfill
  refine ⟨f, hsource, hpath, List.mem_filterMap.2 ⟨_, hkey, ?_⟩⟩
  rw [hv, hpath]
  rfl

end JoinTree

section Compiled

variable {r : Request} {statement : Statement} {events : List Event}

/-- The query of a request is compiled to the statement's command. -/
theorem Request.query_compiled (h : r.compile catalog = (.ok statement, events)) {q : Query}
    (hq : r.query? catalog.dialect = some q) : ∃ names model grown s p p',
      (q.compile catalog names model grown).run p = .ok s p' ∧ statement.command = .select s := by
  obtain ⟨depth, q', hbuild, -⟩ := Request.build_of_compile h
  cases r with
  | count | existence | aggregate | deleteWhere | recursiveCount => exact absurd hq nofun
  | query model query =>
    obtain rfl := Option.some.inj hq
    obtain ⟨s, hs, hcommand⟩ := run_map_eq_ok.1 hbuild
    exact ⟨_, _, _, s, _, _, hs, hcommand.symm⟩
  | recursive model query =>
    obtain rfl := Option.some.inj hq
    obtain ⟨s, hs, hcommand⟩ := run_map_eq_ok.1 hbuild
    obtain ⟨access, start, _, -, -, hs⟩ := HierarchyQuery.rows_eq_ok hs
    rcases hs with ⟨-, hs⟩ | ⟨-, table, _, -, hs⟩
    · exact ⟨_, _, _, s, _, _, hs, hcommand.symm⟩
    · exact ⟨_, _, _, s, _, _, hs, hcommand.symm⟩
  | vectorSearch model query =>
    obtain ⟨s, hs, hcommand⟩ := run_map_eq_ok.1 hbuild
    obtain ⟨query', _, hrun, hs⟩ := run_bind_eq_ok.1 hs
    obtain ⟨hquery, rfl⟩ := run_ofExcept_eq_ok.1 hrun
    rw [query?, hquery] at hq
    obtain rfl := Option.some.inj hq
    exact ⟨_, _, _, s, _, _, hs, hcommand.symm⟩

/-- The order of a request is that of the statement's query. -/
theorem Request.order_compiled (h : r.compile catalog = (.ok statement, events))
    (hne : r.order catalog.dialect ≠ []) : ∃ (names : Names Scope) (tree : JoinTree) (s : Select),
      tree.orderKeys names (r.order catalog.dialect) = .ok s.tail.order ∧
        statement.command = .select s := by
  by_cases hquery : ∃ q, r.query? catalog.dialect = some q
  · obtain ⟨q, hq⟩ := hquery
    obtain ⟨names, _, _, s, _, _, hs, hcommand⟩ := query_compiled h hq
    obtain ⟨_, tree, _, _, -, -, -, -, -, -, htail⟩ := Query.compile_eq_ok hs
    obtain ⟨_, _, -, -, -, horder, -⟩ := JoinTree.tail_eq_ok htail
    have heq : r.order catalog.dialect = q.order := by
      cases r <;> simp_all [order, query?]
    exact ⟨names, tree, s, heq ▸ horder, hcommand⟩
  · obtain ⟨depth, q', hbuild, -⟩ := Request.build_of_compile h
    cases r with
    | query | recursive => exact absurd ⟨_, rfl⟩ hquery
    | count | existence | deleteWhere | recursiveCount => exact absurd rfl hne
    | vectorSearch model query =>
      have hnone : (vectorSearch model query).query? catalog.dialect = none :=
        Option.eq_none_iff_forall_not_mem.2 fun q hq => hquery ⟨q, hq⟩
      rw [order, hnone] at hne
      · exact absurd rfl hne
      · exact nofun
    | aggregate model query =>
      obtain ⟨s, hs, hcommand⟩ := run_map_eq_ok.1 hbuild
      obtain ⟨_, tree, _, _, -, -, -, -, -, -, -, htail⟩ := AggregateQuery.compile_eq_ok hs
      obtain ⟨_, _, -, -, -, horder, -⟩ := JoinTree.tail_eq_ok htail
      exact ⟨_, tree, s, horder, hcommand.symm⟩

/-- Every template of a compiled condition finds bound whatever it asks of its value, and so does
each template that the request's condition has. For a computed column and for a term of the order
only the whole value is bound, so a template there that asks for an item is never lowered. -/
theorem Request.templates_served (h : r.compile catalog = (.ok statement, events)) :
    (∀ part ∈ statement.command.parts, ∀ t ∈ part.templates, t.2 ≠ [] →
      ∃ v, statement.params.get? t.1.path = some v ∧ t.1.Served statement.params v) ∧
    (∀ c ∈ r.condition? catalog.dialect, ∀ template v, c.Uses template v →
      ∃ part ∈ statement.command.parts, ∃ f : Filled, f.template = template ∧
        (f, Binding.withItems f.path v) ∈ part.templates ∧ f.Served statement.params v) ∧
    (∀ q ∈ r.query? catalog.dialect, ∀ i c v, q.computed[i]? = some c → c.value = some v →
      ∃ f : Filled, f.template = c.template ∧ f.path = valuePath (computedPart i) ∧
        .leaf ⟨.filled f, c.name, false, false⟩ ∈ statement.columns ∧
        f.ServedWhole statement.params v) ∧
    (∀ i o template v, (r.order catalog.dialect)[i]? = some o → o.template = some template →
      o.value = some v → ∃ f : Filled, f.template = template ∧ f.path = valuePath (orderPart i) ∧
        (∃ s, statement.command = .select s ∧
          ⟨.filled f, o.ascending, [⟨f.path, v⟩]⟩ ∈ s.tail.order) ∧
        f.ServedWhole statement.params v) := by
  obtain ⟨hall, requested, hrequested, hfrom⟩ := Request.resolved h
  obtain ⟨hnodup, hplaced⟩ := Request.paths_nodup h
  have hbound : ∀ part ∈ statement.command.parts, ∀ t ∈ part.templates, ∀ b ∈ t.2,
      b ∈ statement.command.bindings := fun part hpart t ht b hb =>
    Command.mem_bindings hpart (Predicate.mem_bindings_of_templates hb ht)
  refine ⟨fun part hpart t ht hvalue => ?_, fun c hc template v huses => ?_,
    fun q hq i c v hc hv => ?_, fun i o template v ho htemplate hv => ?_⟩
  · obtain ⟨c, hpartfrom⟩ := hall part hpart
    exact (hpartfrom.fits t ht).served hnodup (hbound part hpart t ht) hvalue
  · rw [Option.mem_def.1 hc] at hfrom
    obtain ⟨f, htemplate, hf⟩ := huses.exists_mem_of_resolvedFrom hfrom
    obtain ⟨hpath, hne, -⟩ := hfrom.fits _ hf
    exact ⟨requested, hrequested, f, htemplate, hf,
      Filled.served_withItems hnodup hpath hne (hbound requested hrequested _ hf)⟩
  · obtain ⟨names, model, grown, s, _, _, hs, hcommand⟩ := Request.query_compiled h hq
    obtain ⟨_, tree, columns, _, -, -, -, hcolumns, hlist, -, -⟩ := Query.compile_eq_ok hs
    obtain ⟨⟨computed, bound⟩, hcomputed, hcolumns⟩ := except_bind_eq_ok.1 hcolumns
    obtain ⟨hcolumns, hbindings⟩ := Prod.mk.inj (Except.ok.inj hcolumns)
    obtain ⟨f, htemplate, hpath, hmem, hbinding⟩ :=
      JoinTree.exists_computedColumn hcomputed hc hv
    refine ⟨f, htemplate, hpath, ?_, ?_⟩
    · rw [Statement.columns_of_list hcommand hlist, ← hcolumns]
      exact List.mem_append_right _ hmem
    · rw [Statement.params, hcommand]
      refine (hplaced s hcommand).servedWhole (isPart_computedPart i) (computedPart_not_fixed i)
        hpath ?_
      rw [Select.bindings, ← hbindings]
      exact List.mem_append_left _ (List.mem_append_right _ hbinding)
  · have hne : r.order catalog.dialect ≠ [] := by
      intro hnil
      rw [hnil, List.getElem?_nil] at ho
      cases ho
    obtain ⟨names, tree, s, horder, hcommand⟩ := Request.order_compiled h hne
    obtain ⟨f, hsource, hpath, hkey⟩ := JoinTree.exists_orderKey horder ho htemplate hv
    refine ⟨f, hsource, hpath, ⟨s, hcommand, hkey⟩, ?_⟩
    rw [Statement.params, hcommand]
    refine (hplaced s hcommand).servedWhole (isPart_orderPart i) (orderPart_not_fixed i) hpath ?_
    rw [Select.bindings, Tail.bindings]
    refine List.mem_append_right _ (List.mem_append_left _ (List.mem_append_right _ ?_))
    exact List.mem_flatMap.2 ⟨_, hkey, List.mem_cons_self⟩

end Compiled

/-- Employees with their grades. -/
def gradedStaff : Catalog where
  models := [
    ("Employee",
      { name := "Employee", table := "employee"
        fields := [⟨"id", .basic ⟨"id", "id", true⟩⟩,
          ⟨"grade", .basic ⟨"grade", "grade", true⟩⟩] })]

/-- Whether a column is one of two items. -/
def amongTwo : String := "$COL IN (#\x7bEXPR[0]\x7d, #\x7bEXPR[1]\x7d)"

/-- The two items. -/
def twoGrades : Value := .list [.text "a", .text "b"]

/-- One template in all three places. -/
def gradedAlike : Request :=
  .query "Employee"
    { select := some ["id"]
      condition := some (.custom amongTwo ["grade"] (some twoGrades))
      computed := [⟨"among", amongTwo, ["grade"], some twoGrades⟩]
      order := [⟨some "grade", true, some amongTwo, some twoGrades⟩] }

theorem asks_amongTwo : Asks amongTwo [.item 0, .item 1] := by
  refine ⟨.slot "$COL IN (".toList "EXPR[0]".toList (.slot ", ".toList "EXPR[1]".toList
    (.last ")".toList)), ?_, by decide +kernel, by decide +kernel⟩
  exact ⟨Piece.not_opens_of_not_mem (by decide), by decide, Piece.not_opens_of_not_mem (by decide),
    by decide, Piece.not_opens_of_not_mem (by decide)⟩

/-- The condition can be lowered, and the column and the term by the same template cannot. -/
theorem gradedAlike_templates_served : ∃ statement events,
    gradedAlike.compile gradedStaff = (.ok statement, events) ∧
      statement.params.map (·.1) = ["c1.v", "c1.v[0]", "c1.v[1]", "o0.v", "select[0].v"] ∧
      (∃ f : Filled, f.template = amongTwo ∧ f.Served statement.params twoGrades ∧
        ∀ ask ∈ [Ask.item 0, .item 1],
          statement.params.get? (ask.path f.path) = ask.value? twoGrades) ∧
      (∃ f : Filled, f.template = amongTwo ∧ f.path = "select[0].v" ∧
        f.ServedWhole statement.params twoGrades) ∧
      (∃ f : Filled, f.template = amongTwo ∧ f.path = "o0.v" ∧
        f.ServedWhole statement.params twoGrades) ∧
      (match statement.lower .question with
        | .ok _ => none
        | .error e => some e) = some (.condition (.unboundParameter "select[0].v[0]")) := by
  obtain ⟨statement, events, hcompile⟩ : ∃ statement events,
      gradedAlike.compile gradedStaff = (.ok statement, events) := ⟨_, _, rfl⟩
  obtain ⟨-, hcondition, hcomputed, horder⟩ := Request.templates_served hcompile
  obtain ⟨_, -, f, htemplate, -, hserved⟩ := hcondition _ rfl amongTwo twoGrades (.custom ["grade"])
  obtain ⟨f', htemplate', hpath', -, hserved'⟩ := hcomputed _ rfl 0 _ twoGrades rfl rfl
  obtain ⟨f₂, htemplate₂, hpath₂, -, hserved₂⟩ := horder 0 _ amongTwo twoGrades rfl rfl rfl
  have hbound := hserved [.item 0, .item 1] (htemplate.symm ▸ asks_amongTwo) (by decide)
  refine ⟨statement, events, hcompile, ?_, ⟨f, htemplate, hserved, hbound.1⟩,
    ⟨f', htemplate', hpath'.trans (by decide), hserved'⟩,
    ⟨f₂, htemplate₂, hpath₂.trans (by decide), hserved₂⟩, ?_⟩
  · cases hcompile
    decide +kernel
  · cases hcompile
    decide +kernel

end QueryCompiler
