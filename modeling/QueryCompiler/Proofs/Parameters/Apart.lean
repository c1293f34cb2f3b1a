import QueryCompiler.Proofs.Compile.Columns
import QueryCompiler.Proofs.Compile.Outcome
import QueryCompiler.Proofs.Compile.Parts
import QueryCompiler.Proofs.Hierarchy.Table
import QueryCompiler.Proofs.Parameters.Bag
import QueryCompiler.Proofs.Parameters.Layout
import QueryCompiler.Proofs.Parameters.Placement

/-!
# No two values of a statement share a path

Conditions, joins and paging bind in parts of their own, and each computed column and each term of the
order in a part with its number. So the bag of a statement holds each bound value at its path, and in
the part of a computed column or of a term nothing is bound but the value of its template as a whole.
-/

namespace QueryCompiler

open Build Params

variable {catalog : Catalog} {names : Names Scope} {model : String} {p p' : Progress}
  {lo mid hi : Nat} {s : Select}

/-! ## Numbered parts -/

/-- The part of a request that its computed column at place `i` is. -/
def computedPart (i : Nat) : String :=
  "select[" ++ Nat.repr i ++ "]"

/-- The part of a request that the term at place `i` of its order is. -/
def orderPart (i : Nat) : String :=
  "o" ++ Nat.repr i

/-- The parts of a statement that have no number. -/
def fixedParts : List String :=
  ["r_t01", "r_t00", "r_t02", "c0", "c1", "_rows", "_offset"]

namespace Params

theorem isPart_of_digits (before after : List Char) (n : Nat) {part : String}
    (hpart : part.toList = before ++ (Nat.repr n).toList ++ after)
    (hbefore : before.all (fun c => 46 < c.toNat && c.toNat ≤ 122) = true)
    (hafter : after.all (fun c => 46 < c.toNat && c.toNat ≤ 122) = true)
    (hhead : before.head?.any (· ≠ 'j') = true) : isPart part = true := by
  have hdigits : ∀ c ∈ (Nat.repr n).toList, (46 < c.toNat && c.toNat ≤ 122) = true := by
    intro c hc
    rw [Nat.toList_repr] at hc
    have hdigit := Nat.isDigit_of_mem_toDigits (by decide) (by decide) hc
    simp only [Char.isDigit, Bool.and_eq_true, decide_eq_true_eq] at hdigit
    have hlow : 48 ≤ c.toNat := by simpa using UInt32.le_iff_toNat_le.1 hdigit.1
    have hhigh : c.toNat ≤ 57 := by simpa using UInt32.le_iff_toNat_le.1 hdigit.2
    simp
    omega
  rw [isPart, hpart, Bool.and_eq_true]
  refine ⟨?_, ?_⟩
  · rw [List.all_append, List.all_append, hbefore, hafter, List.all_eq_true.2 hdigits]
    rfl
  · rw [List.append_assoc, List.head?_append]
    cases before with
    | nil => exact absurd hhead Bool.false_ne_true
    | cons c before => exact hhead

theorem isPart_computedPart (i : Nat) : isPart (computedPart i) = true :=
  isPart_of_digits "select[".toList "]".toList i (by simp [computedPart]) (by decide) (by decide)
    (by decide)

theorem isPart_orderPart (i : Nat) : isPart (orderPart i) = true :=
  isPart_of_digits "o".toList [] i (by simp [orderPart]) (by decide) (by decide) (by decide)

theorem computedPart_inj {i j : Nat} (h : computedPart i = computedPart j) : i = j := by
  have h := congrArg String.toList h
  simp only [computedPart, String.toList_append, List.append_assoc,
    List.append_cancel_left_eq] at h
  exact repr_append_inj (c := ']') (s := []) (t := []) (by decide) h

theorem orderPart_inj {i j : Nat} (h : orderPart i = orderPart j) : i = j := by
  have h := congrArg String.toList h
  simp only [orderPart, String.toList_append, List.append_cancel_left_eq] at h
  exact repr_inj h

theorem orderPart_ne_computedPart (i j : Nat) : orderPart i ≠ computedPart j := by
  intro h
  have h := congrArg (fun s => s.toList.head?) h
  simp [orderPart, computedPart] at h

theorem not_mem_fixedParts {part : String} {c : Char} (hc : c = 's' ∨ c = 'o')
    (hpart : part.toList.head? = some c) : part ∉ fixedParts := by
  have hheads : ∀ fixed ∈ fixedParts, fixed.toList.head? ≠ some 's' ∧
      fixed.toList.head? ≠ some 'o' := by decide
  intro hmem
  rcases hc with rfl | rfl
  · exact (hheads part hmem).1 hpart
  · exact (hheads part hmem).2 hpart

theorem nonempty_of_isPart {part : String} (h : isPart part = true) : part ≠ "" :=
  (isBase_of_isPart (n := 0) h).nonempty

theorem head_valuePath {part : String} (h : isPart part = true) :
    Path.head (valuePath part) = part :=
  head_of_under (dot_not_mem_part h) (under_childPath (nonempty_of_isPart h))

theorem head_itemPath {part : String} (h : isPart part = true) (i : Nat) :
    Path.head (itemPath (valuePath part) i) = part :=
  head_of_under (dot_not_mem_part h) (under_itemPath (under_childPath (nonempty_of_isPart h)))

/-- The path of an item is that of no value. -/
theorem itemPath_ne_valuePath {part : String} (h : isPart part = true) (path : String) (i : Nat) :
    itemPath path i ≠ valuePath part := by
  intro heq
  have hitem : (itemPath path i).toList = (path.toList ++ '[' :: (Nat.repr i).toList) ++ [']'] := by
    simp [itemPath]
  have hvalue : (valuePath part).toList = (part.toList ++ ['.']) ++ ['v'] := by
    simp [valuePath, childPath_of_ne (nonempty_of_isPart h)]
  rw [heq, hvalue] at hitem
  exact absurd (List.append_inj' hitem rfl).2 (by decide)

/-- What is laid out in parts is not bound in another one. -/
theorem Laid.not_mem {parts paths : List String} {path : String} (h : Laid parts lo hi paths)
    (hpart : isPart (Path.head path) = true) (hother : Path.head path ∉ parts) : path ∉ paths := by
  intro hmem
  rcases h.within path hmem with hhead | ⟨n, -, -, hnumbered⟩
  · exact hother hhead
  · rw [hnumbered.not_isPart] at hpart
    exact Bool.false_ne_true hpart

end Params

/-! ## Queries -/

/-- The values are those of parts that a function numbers, each bound as a whole. -/
def BoundInParts (part : Nat → String) (bindings : List Binding) : Prop :=
  ∃ places : List Nat, places.Nodup ∧
    bindings.map Binding.path = places.map fun i => valuePath (part i)

theorem BoundInParts.nodup {part : Nat → String} {bindings : List Binding}
    (h : BoundInParts part bindings) (hpart : ∀ i, isPart (part i) = true)
    (hinj : ∀ {i j}, part i = part j → i = j) : (bindings.map Binding.path).Nodup := by
  obtain ⟨places, hplaces, heq⟩ := h
  rw [heq]
  refine List.Nodup.map (fun i j hij => hinj ?_) hplaces
  rw [← head_valuePath (hpart i), hij, head_valuePath (hpart j)]

theorem BoundInParts.exists_head {part : Nat → String} {bindings : List Binding}
    (h : BoundInParts part bindings) (hpart : ∀ i, isPart (part i) = true) {path : String}
    (hpath : path ∈ bindings.map Binding.path) : ∃ i, Path.head path = part i := by
  obtain ⟨places, -, heq⟩ := h
  rw [heq] at hpath
  obtain ⟨i, -, rfl⟩ := List.mem_map.1 hpath
  exact ⟨i, head_valuePath (hpart i)⟩

/-- The values of templates, of which the first is at place `n`. -/
theorem boundInParts_zipIdx {α : Type} (part : Nat → String) (value : α → Option Value)
    (as : List α) (n : Nat) : BoundInParts part
      ((as.zipIdx n).flatMap fun e => JoinTree.templateBinding (part e.2) (value e.1)) := by
  suffices hplaces : ∃ places : List Nat, places.Nodup ∧ (∀ i ∈ places, n ≤ i) ∧
      ((as.zipIdx n).flatMap fun e => JoinTree.templateBinding (part e.2) (value e.1)).map
        Binding.path = places.map fun i => valuePath (part i) by
    obtain ⟨places, hnodup, -, heq⟩ := hplaces
    exact ⟨places, hnodup, heq⟩
  induction as generalizing n with
  | nil => exact ⟨[], .nil, nofun, rfl⟩
  | cons a as ih =>
    obtain ⟨places, hnodup, hle, heq⟩ := ih (n + 1)
    rw [List.zipIdx_cons, List.flatMap_cons, List.map_append, heq]
    cases value a with
    | none => exact ⟨places, hnodup, fun i hi => (Nat.le_succ n).trans (hle i hi), rfl⟩
    | some v =>
      refine ⟨n :: places, List.nodup_cons.2 ⟨fun hmem => ?_, hnodup⟩, fun i hi => ?_, rfl⟩
      · have := hle n hmem
        omega
      · rcases List.mem_cons.1 hi with rfl | hi
        · exact le_rfl
        · exact (Nat.le_succ n).trans (hle i hi)

/-- What a tail binds besides the values of its order. -/
def Tail.fixedBindings (t : Tail) : List Binding :=
  Predicate.joinsBindings t.source.joins ++ t.filter.bindings ++
    (t.limit.map Limit.bindings).getD []

/-- What a query binds besides the values of its computed columns and of its order. -/
def Select.fixedBindings (s : Select) : List Binding :=
  (s.hierarchy.map Hierarchy.bindings).getD [] ++ s.tail.fixedBindings

/-- Each part of a query binds in its own place. -/
structure Select.Placed (s : Select) : Prop where
  list : BoundInParts computedPart s.listBindings
  order : BoundInParts orderPart (s.tail.order.flatMap OrderKey.bindings)
  fixed : ∃ lo hi, Laid fixedParts lo hi (s.fixedBindings.map Binding.path)

theorem computedPart_not_fixed (i : Nat) : computedPart i ∉ fixedParts :=
  not_mem_fixedParts (.inl rfl) (by simp [computedPart])

theorem orderPart_not_fixed (i : Nat) : orderPart i ∉ fixedParts :=
  not_mem_fixedParts (.inr rfl) (by simp [orderPart])

theorem Select.bindings_perm (s : Select) : (s.bindings.map Binding.path).Perm
    (s.fixedBindings.map Binding.path ++ (s.listBindings.map Binding.path ++
      (s.tail.order.flatMap OrderKey.bindings).map Binding.path)) := by
  rw [List.perm_iff_count]
  intro path
  simp only [Select.bindings, Select.fixedBindings, Tail.bindings, Tail.fixedBindings,
    List.map_append, List.count_append]
  omega

namespace Select.Placed

theorem nodup (h : s.Placed) : (s.bindings.map Binding.path).Nodup := by
  obtain ⟨lo, hi, hfixed⟩ := h.fixed
  have hlist := h.list.nodup isPart_computedPart computedPart_inj
  have horder := h.order.nodup isPart_orderPart orderPart_inj
  rw [s.bindings_perm.nodup_iff, List.nodup_append', List.nodup_append']
  refine ⟨hfixed.nodup, ⟨hlist, horder, fun path hpath hmem => ?_⟩, fun path hpath hmem => ?_⟩
  · obtain ⟨i, hi⟩ := h.list.exists_head isPart_computedPart hpath
    obtain ⟨j, hj⟩ := h.order.exists_head isPart_orderPart hmem
    exact orderPart_ne_computedPart j i (hj.symm.trans hi)
  · rcases List.mem_append.1 hmem with hmem | hmem
    · obtain ⟨i, hi⟩ := h.list.exists_head isPart_computedPart hmem
      refine hfixed.not_mem ?_ ?_ hpath
      · rw [hi, isPart_computedPart]
      · rw [hi]
        exact computedPart_not_fixed i
    · obtain ⟨i, hi⟩ := h.order.exists_head isPart_orderPart hmem
      refine hfixed.not_mem ?_ ?_ hpath
      · rw [hi, isPart_orderPart]
      · rw [hi]
        exact orderPart_not_fixed i

/-- In a numbered part, no item is bound. -/
theorem itemPath_not_mem (h : s.Placed) {part : String} (hpart : isPart part = true)
    (hother : part ∉ fixedParts) (i : Nat) :
    itemPath (valuePath part) i ∉ s.bindings.map Binding.path := by
  obtain ⟨lo, hi, hfixed⟩ := h.fixed
  obtain ⟨computed, -, hcomputed⟩ := h.list
  obtain ⟨terms, -, hterms⟩ := h.order
  rw [s.bindings_perm.mem_iff, List.mem_append, List.mem_append, hcomputed, hterms]
  rintro (hmem | hmem | hmem)
  · refine hfixed.not_mem ?_ ?_ hmem
    · rwa [head_itemPath hpart]
    · rwa [head_itemPath hpart]
  · obtain ⟨j, -, heq⟩ := List.mem_map.1 hmem
    exact itemPath_ne_valuePath (isPart_computedPart j) _ _ heq.symm
  · obtain ⟨j, -, heq⟩ := List.mem_map.1 hmem
    exact itemPath_ne_valuePath (isPart_orderPart j) _ _ heq.symm

end Select.Placed

/-! ## Compiled queries -/

/-- The value of a term of the order, which only a template binds. -/
def OrderTerm.bound (o : OrderTerm) : Option Value :=
  o.template.bind fun _ => o.value

theorem JoinTree.orderKeys_bound {tree : JoinTree} {order : List OrderTerm} {keys : List OrderKey}
    (h : tree.orderKeys names order = .ok keys) :
    BoundInParts orderPart (keys.flatMap OrderKey.bindings) := by
  obtain ⟨keys?, hkeys, hkept⟩ := except_bind_eq_ok.1 h
  obtain rfl := Except.ok.inj hkept
  have hbindings : (keys?.filterMap id).flatMap OrderKey.bindings =
      order.zipIdx.flatMap fun e => templateBinding (orderPart e.2) e.1.bound := by
    replace hkeys := except_mapM_eq_ok.1 hkeys
    generalize order.zipIdx = es at hkeys
    clear h hkept
    induction hkeys with
    | nil => rfl
    | @cons e key? es keys? hkey _ ih =>
      obtain ⟨o, i⟩ := e
      change tree.orderKey? names o i = .ok key? at hkey
      rw [List.flatMap_cons, ← ih]
      unfold orderKey? at hkey
      cases htemplate : o.template with
      | some template =>
        simp only [htemplate] at hkey
        obtain ⟨sql, -, hkey⟩ := except_bind_eq_ok.1 hkey
        obtain rfl := Except.ok.inj hkey
        simp [OrderTerm.bound, htemplate, orderPart]
      | none =>
        cases hpath : o.path with
        | none =>
          simp only [htemplate, hpath] at hkey
          obtain rfl := Except.ok.inj hkey
          simp [OrderTerm.bound, htemplate, templateBinding]
        | some path =>
          simp only [htemplate, hpath] at hkey
          obtain ⟨column, -, hkey⟩ := except_bind_eq_ok.1 hkey
          obtain rfl := Except.ok.inj hkey
          simp [OrderTerm.bound, htemplate, templateBinding]
  rw [hbindings]
  exact boundInParts_zipIdx orderPart OrderTerm.bound order 0

theorem Limit.laid (limit : Option Limit) (n : Nat) : Laid ["_rows", "_offset"] n n
    (((limit.map Limit.bindings).getD []).map Binding.path) := by
  have hrows : Laid ["_rows"] n n ["_rows"] := laid_singleton (by decide) n
  have hoffset : Laid ["_offset"] n n ["_offset"] := laid_singleton (by decide) n
  have hnone : Laid ["_offset"] n n [] := laid_nil (by decide) n
  cases limit with
  | none => exact laid_nil (by decide) n
  | some l =>
    rw [Option.map_some, Option.getD_some, Limit.bindings]
    split
    · exact hrows.append hoffset (by decide)
    · exact hrows.append hnone (by decide)

/-- The tail of a query over a tree whose numbers were drawn from `lo` on. -/
theorem JoinTree.tail_placed (hn : names.Placed) {tree : JoinTree}
    (htree : Regular catalog lo (tree, p.nextNumber)) (hle : lo ≤ p.nextNumber) {hierarchy : Bool}
    {condition : Option Condition} {keys : List Expression} {order : List OrderTerm}
    {page : Option Page} {t : Tail}
    (h : (tree.tail catalog names hierarchy condition keys order page).run p = .ok t p') :
    BoundInParts orderPart (t.order.flatMap OrderKey.bindings) ∧
      Laid ["c0", "c1", "_rows", "_offset"] lo p'.nextNumber
        (t.fixedBindings.map Binding.path) := by
  obtain ⟨q, q', hclauses, henforced, hasked, hterms, -, -, -, -⟩ := JoinTree.tail_eq_ok h
  obtain ⟨hq, hranged⟩ := clauses_ranged hn htree le_rfl hclauses
  have hheld : Scoped "c0" q.nextNumber q'.nextNumber t.filter.enforced.paths := by
    rcases henforced with ⟨-, habsent, rfl⟩ | ⟨-, henforced⟩
    · rw [habsent]
      exact scoped_nil "c0" _
    · exact enforced_scoped hn (isBase_of_isPart (by decide)) henforced
  have hasked : Scoped "c1" q'.nextNumber p'.nextNumber t.filter.requested.paths :=
    Condition.resolve?_scoped hn (isBase_of_isPart (by decide)) hasked
  have hjoined : Laid [] lo q.nextNumber (Predicate.joinsPaths t.source.joins) := by
    refine (hranged.mono fun n hn => ?_).laid (hle.trans hq)
    rcases hn with ⟨j, hj, rfl⟩ | hn
    · have hnumber := htree.range_of_has (.of_mem hj)
      exact ⟨hnumber.1, hnumber.2.trans_le hq⟩
    · exact ⟨hle.trans hn.1, hn.2⟩
  have hfilter := (hjoined.append (hheld.laid (by decide)) (by decide)).append
    (hasked.laid (by decide)) (by decide)
  have hall := hfilter.append (Limit.laid t.limit p'.nextNumber) (by decide)
  refine ⟨orderKeys_bound hterms, ?_⟩
  simpa [Tail.fixedBindings, Filter.bindings, Predicate.joinsPaths, Predicate.paths,
    List.append_assoc] using hall

theorem HierarchyQuery.table_laid {access : Access} {q : HierarchyQuery} {start : Predicate}
    {r : Progress} {table : Hierarchy} (hstart : (q.start? catalog access).run p = .ok start r)
    (h : (q.table catalog access start).run r = .ok table p') :
    Laid ["r_t01", "r_t00", "r_t02"] p.nextNumber p'.nextNumber
      (table.bindings.map Binding.path) := by
  have hn := Names.placed_ofTable access .row
  obtain ⟨keys, parents, held, r', step, -, -, -, hheld, hstep, rfl⟩ := table_eq_ok h
  have hstart : Scoped "r_t01" p.nextNumber r.nextNumber start.paths :=
    Condition.resolve?_scoped hn (isBase_of_isPart (by decide)) hstart
  have hheld : Scoped "r_t00" r.nextNumber r'.nextNumber held.paths :=
    Condition.resolve?_scoped hn (isBase_of_isPart (by decide)) hheld
  have hstep : Scoped "r_t02" r'.nextNumber p'.nextNumber
      (((step.map Predicate.bindings).getD []).map Binding.path) := by
    cases step with
    | none =>
      obtain ⟨-, rfl⟩ := hstep
      exact scoped_nil _ _
    | some mark => exact Condition.resolve_scoped hn notDeleted (isBase_of_isPart (by decide)) hstep.2
  have hanchor := (hstart.laid (by decide)).append (hheld.laid (by decide)) (by decide)
  have hall := hanchor.append (hstep.laid (by decide)) (by decide)
  simpa [Hierarchy.bindings, Predicate.paths] using hall

/-- A query over a tree that was built for it, over the model's table or over a growing one. -/
theorem Select.placed_of_tail (hn : names.Placed) {a : Access} {joins : List Join} {tree : JoinTree}
    {r : Progress} {checked hierarchy : Bool} {condition : Option Condition}
    {keys : List Expression} {order : List OrderTerm} {page : Option Page} (ha : catalog.Knows a)
    (hmade : JoinTree.Made catalog checked a joins mid tree r.nextNumber)
    (hlist : BoundInParts computedPart s.listBindings)
    (hgrown : Laid ["r_t01", "r_t00", "r_t02"] lo mid
      (((s.hierarchy.map Hierarchy.bindings).getD []).map Binding.path))
    (h : (tree.tail catalog names hierarchy condition keys order page).run r = .ok s.tail p') :
    s.Placed := by
  obtain ⟨htree, hle⟩ := hmade.regular ha
  obtain ⟨horder, hfixed⟩ := JoinTree.tail_placed hn htree hle h
  refine ⟨hlist, horder, lo, p'.nextNumber, ?_⟩
  rw [Select.fixedBindings, List.map_append]
  exact hgrown.append hfixed (by decide)

theorem Select.notGrown (hnone : s.hierarchy = none) (n : Nat) :
    Laid ["r_t01", "r_t00", "r_t02"] n n
      (((s.hierarchy.map Hierarchy.bindings).getD []).map Binding.path) := by
  rw [hnone]
  exact laid_nil (by decide) n

theorem boundInParts_nil (part : Nat → String) : BoundInParts part [] :=
  ⟨[], .nil, rfl⟩

theorem Query.compile_placed (hn : names.Placed) {q : Query} {hierarchy : Option Hierarchy}
    (hgrown : Laid ["r_t01", "r_t00", "r_t02"] lo p.nextNumber
      (((hierarchy.map Hierarchy.bindings).getD []).map Binding.path))
    (h : (q.compile catalog names model hierarchy).run p = .ok s p') : s.Placed := by
  obtain ⟨a, tree, columns, r, hmodel, hmade, -, hcolumns, -, hhierarchy, htail⟩ :=
    Query.compile_eq_ok h
  refine Select.placed_of_tail hn ⟨model, hmodel⟩ hmade ?_ (hhierarchy ▸ hgrown) htail
  obtain ⟨⟨computed, bound⟩, hcomputed, hcolumns⟩ := except_bind_eq_ok.1 hcolumns
  obtain ⟨-, rfl⟩ := Prod.mk.inj (Except.ok.inj hcolumns)
  rw [(JoinTree.computedColumns_eq_ok hcomputed).2]
  exact boundInParts_zipIdx computedPart ComputedColumn.value q.computed 0

theorem countRows_placed (hn : names.Placed) {condition : Option Condition} {joins : List Join}
    {ignoreDeleted : Bool}
    (h : (countRows catalog names model condition joins ignoreDeleted).run p = .ok s p') :
    s.Placed := by
  obtain ⟨a, tree, r, hmodel, hmade, -, -, hlist, hnone, htail⟩ := countRows_eq_ok h
  exact Select.placed_of_tail hn ⟨model, hmodel⟩ hmade (hlist ▸ boundInParts_nil _)
    (Select.notGrown hnone _) htail

theorem checkExistence_placed (hn : names.Placed) {condition : Option Condition}
    {joins : List Join} {ignoreDeleted : Bool}
    (h : (checkExistence catalog names model condition joins ignoreDeleted).run p = .ok s p') :
    s.Placed := by
  obtain ⟨a, tree, r, hmodel, hmade, -, -, hlist, hnone, htail⟩ := checkExistence_eq_ok h
  exact Select.placed_of_tail hn ⟨model, hmodel⟩ hmade (hlist ▸ boundInParts_nil _)
    (Select.notGrown hnone _) htail

theorem AggregateQuery.compile_placed (hn : names.Placed) {q : AggregateQuery}
    (h : (q.compile catalog names model).run p = .ok s p') : s.Placed := by
  obtain ⟨a, tree, columns, r, hmodel, hmade, -, -, -, hlist, hnone, htail⟩ :=
    AggregateQuery.compile_eq_ok h
  exact Select.placed_of_tail hn ⟨model, hmodel⟩ hmade (hlist ▸ boundInParts_nil _)
    (Select.notGrown hnone _) htail

theorem HierarchyQuery.rows_placed (hn : names.Placed) {q : HierarchyQuery}
    (h : (q.rows catalog names model).run p = .ok s p') : s.Placed := by
  obtain ⟨a, start, r, -, hstart, h⟩ := rows_eq_ok h
  rcases h with ⟨-, h⟩ | ⟨-, table, r', htable, h⟩
  · exact Query.compile_placed hn (laid_nil (by decide) r.nextNumber) h
  · exact Query.compile_placed hn (table_laid hstart htable) h

theorem HierarchyQuery.count_placed (hn : names.Placed) {q : HierarchyQuery}
    (h : (q.count catalog names model).run p = .ok s p') : s.Placed := by
  obtain ⟨a, start, r, hmodel, hstart, h⟩ := count_eq_ok h
  rcases h with ⟨-, h⟩ | ⟨-, table, tree, r₁, r₂, htable, hmade, -, hlist, hhierarchy, htail⟩
  · exact countRows_placed hn h
  · have hgrown : Laid ["r_t01", "r_t00", "r_t02"] p.nextNumber r₁.nextNumber
        (((s.hierarchy.map Hierarchy.bindings).getD []).map Binding.path) := by
      rw [hhierarchy]
      exact table_laid hstart htable
    exact Select.placed_of_tail hn ⟨model, hmodel⟩ hmade (hlist ▸ boundInParts_nil _) hgrown htail

theorem deleteWhere_nodup {condition : Condition} {physical : Bool} {command : Command}
    (h : (deleteWhere catalog model condition physical).run p = .ok command p') :
    (command.bindings.map Binding.path).Nodup := by
  obtain ⟨a, filter, r, -, hasked, hheld, hcommand⟩ := deleteWhere_eq_ok h
  have hn := Names.placed_ofTable a .bare
  have hasked : Scoped "c1" p.nextNumber r.nextNumber filter.requested.paths :=
    condition.resolve_scoped hn (isBase_of_isPart (by decide)) hasked
  have hheld : Scoped "c0" r.nextNumber p'.nextNumber filter.enforced.paths :=
    Condition.resolve?_scoped hn (isBase_of_isPart (by decide)) hheld
  have hresolved := (hasked.laid (by decide)).append (hheld.laid (by decide)) (by decide)
  have hfilter : Laid ["c1", "c0"] p.nextNumber p'.nextNumber
      (filter.bindings.map Binding.path) := by
    refine hresolved.perm ?_
    rw [Filter.bindings, List.map_append]
    exact List.perm_append_comm
  rcases hcommand with rfl | ⟨flag, -, rfl⟩
  · exact hfilter.nodup
  · have hvalue : Laid [deleteFlagParam] p'.nextNumber p'.nextNumber [deleteFlagParam] :=
      laid_singleton (by decide) _
    rw [Command.bindings, List.map_append]
    exact (hfilter.append hvalue (by decide)).nodup

/-- Whatever is requested, no two values are bound to one path, and the parts of the statement's query
bind in their own places. -/
theorem Request.paths_nodup {r : Request} {statement : Statement} {events : List Event}
    (h : r.compile catalog = (.ok statement, events)) :
    (statement.command.bindings.map Binding.path).Nodup ∧
      ∀ s, statement.command = .select s → s.Placed := by
  obtain ⟨depth, q, hbuild, -⟩ := Request.build_of_compile h
  have hn := Names.placed_ofTree catalog depth
  generalize statement.command = command at hbuild
  have hselect : ∀ {build : Build Select}, (Command.select <$> build).run {} = .ok command q →
      (∀ {s p'}, build.run {} = .ok s p' → s.Placed) →
      (command.bindings.map Binding.path).Nodup ∧ ∀ s, command = .select s → s.Placed := by
    intro build hbuild hplaced
    obtain ⟨s, hs, rfl⟩ := run_map_eq_ok.1 hbuild
    refine ⟨(hplaced hs).nodup, fun s' heq => ?_⟩
    cases heq
    exact hplaced hs
  cases r with
  | query model query =>
    exact hselect hbuild fun hs => Query.compile_placed hn (laid_nil (by decide) _) hs
  | count model condition joins ignoreDeleted => exact hselect hbuild (countRows_placed hn)
  | existence model condition joins ignoreDeleted => exact hselect hbuild (checkExistence_placed hn)
  | aggregate model query => exact hselect hbuild (AggregateQuery.compile_placed hn)
  | deleteWhere model condition physical =>
    refine ⟨deleteWhere_nodup hbuild, fun s hs => ?_⟩
    obtain ⟨a, filter, r, -, -, -, rfl | ⟨flag, -, rfl⟩⟩ := deleteWhere_eq_ok hbuild <;>
      exact absurd hs nofun
  | recursive model query => exact hselect hbuild (HierarchyQuery.rows_placed hn)
  | recursiveCount model query => exact hselect hbuild (HierarchyQuery.count_placed hn)
  | vectorSearch model query =>
    refine hselect hbuild fun hs => ?_
    obtain ⟨query', _, hrun, hs⟩ := run_bind_eq_ok.1 hs
    obtain ⟨-, rfl⟩ := run_ofExcept_eq_ok.1 hrun
    exact Query.compile_placed hn (laid_nil (by decide) _) hs

end QueryCompiler
