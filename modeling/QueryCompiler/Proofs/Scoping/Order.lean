import QueryCompiler.Proofs.Scoping.Joins

/-!
# Tables in front of a join and behind it

A table is listed behind the one it hangs on, so the tables below a joined table are listed behind it,
though its own `ON` clause may name them. It names none of them exactly if the conditions on the table
keep to its own fields (`On.Of.ahead_eq_nil_iff`).
-/

namespace QueryCompiler

variable {catalog : Catalog} {tree : JoinTree} {j : Joined} {on : On} {column : Column}

/-- The condition keeps to the fields of its own model: no column is looked up over a relationship,
nor is the owner of a relationship. -/
def Condition.StaysOn (c : Condition) (a : Access) : Prop :=
  (∀ path ∈ c.readPaths, ∀ f, a.model.field? (Path.head path) = some f → f.isRelation = false) ∧
    ∀ path ∈ c.relatedPaths, Path.owner? path = none

/-! ## Numbers and paths -/

namespace JoinTree

theorem IsTree.number_eq_iff (h : tree.IsTree) {t t' : Table} (ht : tree.Has t) (ht' : tree.Has t') :
    t.number = t'.number ↔ t.path = t'.path := by
  have hnumbers : (tree.cores.map fun c => c.2.1).Nodup := h.numbers_nodup
  have hpaths : (tree.cores.map fun c => c.1).Nodup := by
    rw [cores, List.map_map]
    exact h.paths
  constructor
  · exact fun heq => congrArg (fun c => c.1) (List.inj_on_of_nodup_map hnumbers ht ht' heq)
  · exact fun heq => congrArg (fun c => c.2.1) (List.inj_on_of_nodup_map hpaths ht ht' heq)

end JoinTree

namespace HangInOrder

variable {before : List Table} {js ks : List Joined}

theorem of_append (h : HangInOrder before (js ++ ks)) : HangInOrder before js := by
  induction js generalizing before with
  | nil => trivial
  | cons j js ih => exact ⟨h.1, ih h.2⟩

end HangInOrder

namespace JoinTree.IsTree

variable {front back : List Joined}

/-- No table that is listed in front of a joined table is below it. -/
theorem not_below_of_front (h : tree.IsTree) (hsplit : tree.inOrder = front ++ j :: back) {t : Table}
    (ht : t ∈ tree.root :: front.map Joined.toTable) : ¬ j.path <+: t.path := by
  intro hbelow
  have hhang : HangInOrder [tree.root] front := (hsplit ▸ h.hang_inOrder).of_append
  obtain ⟨s, hs, hpath⟩ := hhang.prefixes (fun t ht path hpath => by
    obtain rfl := List.mem_singleton.1 ht
    rw [h.root, List.prefix_nil] at hpath
    exact ⟨tree.root, List.mem_cons_self, hpath ▸ h.root⟩) t ht _ hbelow
  have hnodup : (tree.listed.map Table.path).Nodup :=
    (tree.listed_perm.map Table.path).nodup_iff.2 h.paths
  have hlisted : tree.listed = (tree.root :: front.map Joined.toTable) ++
      j.toTable :: back.map Joined.toTable := by simp [listed, hsplit]
  rw [hlisted, List.map_append, List.nodup_append'] at hnodup
  exact hnodup.2.2 (List.mem_map_of_mem hs) (hpath ▸ List.mem_cons_self)

end JoinTree.IsTree

/-! ## What is looked up stays on a table -/

namespace Scope

variable {s : Scope} {c : Condition} {path : String}

/-- A path stands for a column of the scope's own table exactly if it does not begin with a
relationship. -/
theorem column_isOf_iff (hs : s.Stands catalog) (htree : s.tree.IsTree)
    (h : s.column path = .ok column) : column.isOf [s.table.number] = true ↔
      ∀ f, s.table.access.model.field? (Path.head path) = some f → f.isRelation = false := by
  obtain ⟨t, hops, last, b, hhas, hall, hpath, hwalk, hshows, rfl⟩ :=
    column_eq_ok hs.walked hs.has h
  rw [Column.isOf_table, List.mem_singleton, htree.number_eq_iff hhas hs.has, hpath]
  cases hops with
  | nil =>
    have haccess : s.table.access = t.access := Option.some.inj hwalk
    refine iff_of_true (List.append_nil _) fun f hf => ?_
    cases hshows with
    | field hfield hk | member hfield hk _ =>
      rw [haccess, Path.head_of_all hall, (Access.field_eq_ok.1 hfield).1] at hf
      obtain rfl := Option.some.inj hf
      exact Field.isRelation_eq_false (by simp [hk])
  | cons name hops =>
    refine iff_of_false (by simp) fun hstays => ?_
    obtain ⟨a, hhop, -⟩ := Option.bind_eq_some_iff.1 hwalk
    obtain ⟨f, r, hf, hk, -⟩ := Catalog.hop?_eq_some.1 hhop
    have hfield := (Access.field_eq_ok.1 hf).1
    have hhead : Path.head path = name := Path.head_of_all hall
    rw [← hhead] at hfield
    exact absurd (Field.isRelation_iff.2 ⟨r, hk⟩) (by simp [hstays f hfield])

/-- The owner of a relationship is the scope's own table exactly if the path is the relationship's
name. -/
theorem link_isOf_iff (hs : s.Stands catalog) (htree : s.tree.IsTree) {l : Link}
    (h : s.link path = .ok l) :
    l.parentNumber = s.table.number ↔ Path.owner? path = none := by
  obtain ⟨t, hops, name, f, r, hhas, hall, hpath, -, -, -, rfl⟩ := link_eq_ok hs.walked hs.has h
  show t.number = _ ↔ _
  rw [htree.number_eq_iff hhas hs.has, hpath, Path.owner?, Option.map_eq_none_iff]
  cases hsplit : Path.splitLast path with
  | none =>
    rw [Path.all_of_splitLast_eq_none hsplit] at hall
    obtain ⟨rfl, -⟩ := List.append_eq_singleton_iff.1 hall.symm |>.resolve_right (by simp)
    simp
  | some split =>
    obtain ⟨before, last⟩ := split
    rw [Path.all_of_splitLast_eq_some hsplit] at hall
    have hhops : Path.all before = hops := (List.append_inj' hall rfl).1
    refine iff_of_false (fun heq => ?_) (by simp)
    have hnil : hops = [] := by simpa using heq
    exact absurd (hhops.trans hnil) (List.cons_ne_nil _ _)

/-- A condition reads columns of the scope's own table only, exactly if it keeps to the fields of its
own model. -/
theorem reads_isOf_iff (hs : s.Stands catalog) (htree : s.tree.IsTree) (hknows : s.Knows c) :
    (∀ column, s.Reads c column → column.isOf [s.table.number] = true) ↔
      c.StaysOn s.table.access := by
  constructor
  · refine fun h => ⟨fun path hpath => ?_, fun path hpath => ?_⟩
    · obtain ⟨column, hcolumn⟩ := hknows.columns path hpath
      exact (column_isOf_iff hs htree hcolumn).1 (h column (.path hpath hcolumn))
    · obtain ⟨l, name, b, hlink, hname, hb⟩ := hknows.owners path hpath
      have hown := h _ (.owner hpath hlink hname hb)
      exact (link_isOf_iff hs htree hlink).1 (by simpa [Column.isOf_table] using hown)
  · rintro ⟨hcolumns, howners⟩ column (⟨hpath, hcolumn⟩ | ⟨hpath, hlink, -, -⟩)
    · exact (column_isOf_iff hs htree hcolumn).2 (hcolumns _ hpath)
    · exact Column.isOf_table.2 (List.mem_singleton.2
        ((link_isOf_iff hs htree hlink).2 (howners _ hpath)))

end Scope

/-! ## `ON` clauses -/

namespace On.Of

theorem mem_joined (h : on.Of catalog tree j) : j ∈ tree.joined := by
  obtain ⟨front, back, hsplit, -, -⟩ := h.order
  exact tree.inOrder_perm.subset (hsplit ▸ List.mem_append_right _ List.mem_cons_self)

theorem stands (h : on.Of catalog tree j) (checked : Bool) :
    Scope.Stands catalog ⟨tree, j.toTable, checked⟩ :=
  ⟨h.walked, .of_mem h.mem_joined⟩

/-- A table is tied to one in front of it. -/
theorem link_isOf (h : on.Of catalog tree j) (hc : column ∈ Equality.columns on.clause.link) :
    column.isOf (on.front ++ [on.clause.number]) = true := by
  obtain ⟨front, back, hsplit, hfront, -⟩ := h.order
  rcases Equality.mem_columns.1 hc with hc | hc
  · obtain ⟨name, -, b, -, rfl⟩ := h.clause.link.child.mem_iff.1 hc
    exact Column.isOf_table.2 (h.clause.number ▸ List.mem_append_right _ List.mem_cons_self)
  · obtain ⟨name, -, b, -, rfl⟩ := h.clause.link.parent.mem_iff.1 hc
    obtain ⟨t, ht, hangs⟩ := (hsplit ▸ h.isTree.hang_inOrder).exists_parent
    refine Column.isOf_table.2 (List.mem_append_left _ ?_)
    rw [hangs.parentNumber, hfront, List.mem_cons]
    refine ht.imp (fun ht => by rw [List.mem_singleton.1 ht]) fun ht => ?_
    obtain ⟨k, hk, rfl⟩ := List.mem_map.1 ht
    exact List.mem_map_of_mem (f := fun k : Joined => k.number) hk

/-- The columns that the conditions on the table read are of tables at its path or below it. -/
theorem free_below (h : on.Of catalog tree j) (hc : column ∈ on.clause.filter.free) :
    ∃ t, tree.Has t ∧ j.path <+: t.path ∧ column.qualifier = .table t.number := by
  rcases (h.clause.free column).1 hc with ⟨c, -, hc⟩ | ⟨c, -, hc⟩
  · exact hc.has (h.stands false)
  · exact hc.has (h.stands true)

theorem not_mem_front (h : on.Of catalog tree j) {t : Table} (ht : tree.Has t)
    (hbelow : j.path <+: t.path) : t.number ∉ on.front := by
  obtain ⟨front, back, hsplit, hfront, -⟩ := h.order
  intro hmem
  obtain ⟨s, hs, hnumber⟩ : ∃ s ∈ tree.root :: front.map Joined.toTable, t.number = s.number := by
    rw [hfront, List.mem_cons] at hmem
    rcases hmem with heq | hmem
    · exact ⟨tree.root, List.mem_cons_self, heq⟩
    · obtain ⟨k, hk, hnumber⟩ := List.mem_map.1 hmem
      exact ⟨k.toTable, List.mem_cons_of_mem _ (List.mem_map_of_mem hk), hnumber.symm⟩
  have hhas : tree.Has s := by
    rcases List.mem_cons.1 hs with rfl | hs
    · exact .root
    · obtain ⟨k, hk, rfl⟩ := List.mem_map.1 hs
      exact .of_mem (tree.inOrder_perm.subset (hsplit ▸ List.mem_append_left _ hk))
  rw [h.isTree.number_eq_iff ht hhas] at hnumber
  exact h.isTree.not_below_of_front hsplit hs (hnumber ▸ hbelow)

/-- What an `ON` clause names ahead is what the conditions on its table read of other tables. -/
theorem mem_ahead_iff (h : on.Of catalog tree j) :
    column ∈ on.ahead ↔ column ∈ on.clause.filter.free ∧ column.isOf [j.number] ≠ true := by
  rw [On.ahead, List.mem_filter, JoinClause.free, List.mem_append, Bool.not_eq_true']
  constructor
  · rintro ⟨hc, hahead⟩
    rw [Column.isOf_append, Bool.or_eq_false_iff, h.clause.number] at hahead
    refine ⟨hc.resolve_left fun hc => ?_, by simp [hahead.2]⟩
    have hlink := h.link_isOf hc
    rw [Column.isOf_append, h.clause.number, hahead.1, hahead.2] at hlink
    exact absurd hlink Bool.false_ne_true
  · rintro ⟨hc, hother⟩
    obtain ⟨t, ht, hbelow, hqualifier⟩ := h.free_below hc
    refine ⟨.inr hc, Bool.eq_false_iff.2 fun hfront => ?_⟩
    rw [Column.isOf_append, Bool.or_eq_true, h.clause.number] at hfront
    rcases hfront with hfront | hfront
    · obtain ⟨n, hn, heq⟩ := Column.isOf_iff.1 hfront
      obtain rfl := Qualifier.table.inj (hqualifier.symm.trans heq)
      exact h.not_mem_front ht hbelow hn
    · exact hother hfront

/-- What an `ON` clause names ahead is of tables below its own, which are joined behind it. -/
theorem ahead_below (h : on.Of catalog tree j) (hc : column ∈ on.ahead) :
    ∃ k ∈ tree.joined, j.path <+: k.path ∧ k.path ≠ j.path ∧ k.number ∈ on.back ∧
      column.qualifier = .table k.number := by
  obtain ⟨hc, hother⟩ := h.mem_ahead_iff.1 hc
  obtain ⟨t, ht, hbelow, hqualifier⟩ := h.free_below hc
  have hpath : t.path ≠ j.path := by
    intro hpath
    rw [← h.isTree.number_eq_iff ht (.of_mem h.mem_joined)] at hpath
    exact hother (Column.isOf_iff.2 ⟨t.number, List.mem_singleton.2 hpath, hqualifier⟩)
  obtain ⟨front, back, hsplit, hfront, hback⟩ := h.order
  obtain ⟨t', ht', hpath', hnumber', -⟩ := ht.listed
  have hnot := h.not_mem_front ht hbelow
  rw [JoinTree.listed, hsplit, List.map_append, List.map_cons, List.mem_cons, List.mem_append,
    List.mem_cons] at ht'
  rcases ht' with rfl | ht' | rfl | ht'
  · exact absurd (hfront ▸ hnumber' ▸ List.mem_cons_self) hnot
  · obtain ⟨k, hk, rfl⟩ := List.mem_map.1 ht'
    refine absurd ?_ hnot
    rw [hfront, ← hnumber']
    exact List.mem_cons_of_mem _ (List.mem_map_of_mem (f := fun k : Joined => k.number) hk)
  · exact absurd hpath'.symm hpath
  · obtain ⟨k, hk, rfl⟩ := List.mem_map.1 ht'
    refine ⟨k, tree.inOrder_perm.subset (hsplit ▸ ?_), hpath' ▸ hbelow, hpath' ▸ hpath, ?_, ?_⟩
    · exact List.mem_append_right _ (List.mem_cons_of_mem _ hk)
    · rw [hback]
      exact List.mem_map_of_mem (f := fun k : Joined => k.number) hk
    · exact hqualifier.trans (congrArg Qualifier.table hnumber'.symm)

/-- An `ON` clause names nothing ahead exactly if the conditions on its table keep to the table's own
fields. -/
theorem ahead_eq_nil_iff (h : on.Of catalog tree j) :
    on.ahead = [] ↔ (∀ c ∈ j.access.enforced? j.ignoreDeleted, c.StaysOn j.access) ∧
      ∀ c ∈ j.condition, c.StaysOn j.access := by
  have hfree : on.ahead = [] ↔ ∀ column ∈ on.clause.filter.free, column.isOf [j.number] = true := by
    rw [List.eq_nil_iff_forall_not_mem]
    refine forall_congr' fun column => ?_
    rw [h.mem_ahead_iff, not_and_not_right]
  have hstays := fun checked c (hknows : Scope.Knows ⟨tree, j.toTable, checked⟩ c) =>
    Scope.reads_isOf_iff (h.stands checked) h.isTree hknows
  rw [hfree]
  constructor
  · refine fun hall => ⟨fun c hc => ?_, fun c hc => ?_⟩
    · exact (hstays false c (h.clause.enforced c hc)).1 fun column hreads =>
        hall column ((h.clause.free column).2 (.inl ⟨c, hc, hreads⟩))
    · exact (hstays true c (h.clause.requested c hc)).1 fun column hreads =>
        hall column ((h.clause.free column).2 (.inr ⟨c, hc, hreads⟩))
  · rintro ⟨henforced, hrequested⟩ column hcolumn
    rcases (h.clause.free column).1 hcolumn with ⟨c, hc, hreads⟩ | ⟨c, hc, hreads⟩
    · exact (hstays false c (h.clause.enforced c hc)).2 (henforced c hc) column hreads
    · exact (hstays true c (h.clause.requested c hc)).2 (hrequested c hc) column hreads

end On.Of
end QueryCompiler
