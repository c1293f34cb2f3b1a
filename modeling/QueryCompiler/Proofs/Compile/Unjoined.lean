import QueryCompiler.Compile.Request
import QueryCompiler.Proofs.Compile.Lookups
import QueryCompiler.Proofs.JoinTree.Scopes

/-!
# Relationships that are not joined

A tree spans all that is looked up in it, but for the rule on a table that was joined late, for the
rule on another table only (`JoinTree.Late`). So a compilation that fails because a relationship is
not joined has come upon such a rule, in the tree of the request or in that of a subquery which it
opens (`Request.notJoined_overlooks`). This does happen: a chain of two rules is enough.
-/

namespace QueryCompiler

open Build

/-- The condition is resolved on a table of the tree, with the caller's permissions in mind or not.
`asked` is what is asked of the rows of the root. -/
inductive JoinTree.Poses (tree : JoinTree) (asked : Option Condition) (checked : Bool) :
    Table → Bool → Condition → Prop where
  | asked {c : Condition} : asked = some c → tree.Poses asked checked tree.root checked c
  | joined {j : Joined} {c : Condition} : j ∈ tree.joined → j.condition = some c →
      tree.Poses asked checked j.toTable true c
  | enforced {t : Table} {c : Condition} : t ∈ tree.tables →
      t.access.enforced? t.ignoreDeleted = some c → tree.Poses asked checked t false c

namespace Request

/-- What a request may ask of tables. Over a hierarchy without rows to start from, a count is one by
its condition. -/
def demands (d : Dialect) : Request → List Demand
  | .query _ q => [q.demand]
  | .count _ condition joins ignoreDeleted => [{ condition, joins, ignoreDeleted }]
  | .existence _ condition joins ignoreDeleted =>
    [{ condition, joins, ignoreDeleted, place := some .existenceCheck }]
  | .aggregate _ q => [q.demand]
  | .vectorSearch _ q => (q.toQuery d).toOption.toList.map Query.demand
  | .deleteWhere _ _ _ => []
  | .recursive _ q => [q.query.demand]
  | .recursiveCount _ q =>
    [{ condition := q.query.condition, joins := q.query.joins,
       ignoreDeleted := q.query.ignoreDeleted }, q.query.demand]

/-- The tree of a request, and the trees of the subqueries that open while conditions are resolved on
its tables, at every depth. Each goes with what it was before the rules on its tables were looked at,
and with what is asked of the rows of its root. -/
inductive Opens (catalog : Catalog) (r : Request) :
    JoinTree → JoinTree → Option Condition → Bool → Prop where
  | request {d : Demand} {mid tree : JoinTree} {q q' : Progress} : d ∈ r.demands catalog.dialect →
      (JoinTree.ofDemand catalog r.model d).run q = .ok tree q' →
      JoinTree.Spanned catalog true d.namedPaths mid tree → r.Opens catalog mid tree d.condition true
  | subquery {mid tree mid' tree' : JoinTree} {asked inner : Option Condition}
      {checked minded negated : Bool} {t : Table} {c : Condition} {path : String}
      {joins : List Join} {l : Link} : r.Opens catalog mid tree asked checked →
      tree.Poses asked checked t minded c → c.PartOf (.related path inner joins negated) →
      Scope.link ⟨tree, t, minded⟩ path = .ok l →
      catalog.target l.parentModel l.name l.relation = .ok tree'.root.access →
      JoinTree.Spanned catalog minded ((inner.map Condition.joinPaths).getD []) mid' tree' →
      r.Opens catalog mid' tree' inner minded

/-- A table that was joined late is held to a rule that names the path, and a relationship on the
path has no table. -/
def Overlooks (catalog : Catalog) (r : Request) (model path : String) : Prop :=
  ∃ mid tree asked checked j c, r.Opens catalog mid tree asked checked ∧ j ∈ tree.joined ∧
    JoinTree.Late mid j ∧ j.access.enforced? j.ignoreDeleted = some c ∧ path ∈ c.joinPaths ∧
    tree.find j.toTable path false = .error (.field model path .notJoined)

/-- The condition is one that is resolved in the scope, or a part of one. -/
def Resolves (catalog : Catalog) (r : Request) (s : Scope) (c : Condition) : Prop :=
  ∃ mid asked checked whole, r.Opens catalog mid s.tree asked checked ∧
    s.tree.Poses asked checked s.table s.checked whole ∧ whole.PartOf c

/-- The failure names the empty path, or a path that has been overlooked. -/
def Excused (catalog : Catalog) (r : Request) (model path : String) : Prop :=
  path = "" ∨ r.Overlooks catalog model path

variable {catalog : Catalog} {r : Request} {names : Names Scope} {mid tree : JoinTree}
  {asked : Option Condition} {checked minded : Bool} {t : Table} {c : Condition}
  {model path path' : String} {p p' : Progress}

theorem Opens.spanned (h : r.Opens catalog mid tree asked checked) :
    ∃ paths, JoinTree.Spanned catalog checked paths mid tree ∧
      ∀ c ∈ asked, c.joinPaths ⊆ paths := by
  cases h with
  | @request d _ _ _ _ hd hrun hspanned =>
    refine ⟨_, hspanned, fun c hc path hpath => ?_⟩
    rw [Demand.namedPaths, Option.mem_def.1 hc]
    exact List.mem_append_left _ (List.mem_append_left _ hpath)
  | subquery _ _ _ _ _ hspanned =>
    refine ⟨_, hspanned, fun c hc => ?_⟩
    rw [Option.mem_def.1 hc]
    exact fun _ => id

/-- A path of a condition is looked up in vain only if it is overlooked. -/
theorem Opens.find_excused (h : r.Opens catalog mid tree asked checked)
    (hc : tree.Poses asked checked t minded c) (hpath : path ∈ c.joinPaths)
    (hfind : tree.find t path minded = .error (.field model path' .notJoined)) :
    r.Excused catalog model path' := by
  obtain ⟨paths, hspanned, hasked⟩ := h.spanned
  cases hc with
  | asked hc => exact .inl (hspanned.named.find_notJoined (hasked c hc hpath) hfind)
  | joined hj hc => exact .inl ((hspanned.joins _ hj c hc).find_notJoined hpath hfind)
  | enforced ht hc =>
    rcases hspanned.enforced t ht with hspans | ⟨j, hj, rfl, hlate⟩
    · exact .inl ((hspans c hc).find_notJoined hpath hfind)
    · obtain rfl := (JoinTree.find_notJoined hfind).1
      exact .inr ⟨mid, tree, asked, checked, j, c, h, hj, hlate, hc, hpath, hfind⟩

/-! ## Trees -/

theorem Opens.clauses_blame (hn : names.Blame (r.Excused catalog) (r.Resolves catalog))
    (h : r.Opens catalog mid tree asked checked) :
    Blames (r.Excused catalog) (tree.clauses catalog names) := by
  refine Blames.mapM fun j hj => ?_
  have hj : j ∈ tree.joined := tree.inOrder_perm.subset hj
  have ht : j.toTable ∈ tree.tables := List.mem_cons_of_mem _ (List.mem_map_of_mem hj)
  refine Blames.bind (.ofExcept fun _ _ h => absurd h Link.equalities_ne_notJoined) ?_
  refine fun _ _ _ _ => Blames.bind (Blames.bind ?_ fun _ _ _ _ => Blames.bind ?_ ?_) ?_
  · exact Condition.resolve?_blames hn fun c hc =>
      ⟨mid, asked, checked, c, h, .enforced ht hc, .whole⟩
  · exact Condition.resolve?_blames hn fun c hc =>
      ⟨mid, asked, checked, c, h, .joined hj hc, .whole⟩
  · exact fun _ _ _ _ => .pure _
  · exact fun _ _ _ _ => .pure _

theorem Opens.enforced_blames (hn : names.Blame (r.Excused catalog) (r.Resolves catalog))
    (h : r.Opens catalog mid tree asked checked) {mark : String} :
    Blames (r.Excused catalog) (tree.enforced catalog names tree.root mark) :=
  Condition.resolve?_blames hn fun c hc =>
    ⟨mid, asked, checked, c, h, .enforced List.mem_cons_self hc, .whole⟩

end Request

/-! ## Subqueries -/

variable {catalog : Catalog} {names : Names Scope} {joins : List Join} {paths : List String}
  {p p' : Progress}

theorem JoinTree.ofSubquery_blames {P : String → String → Prop} {access : Access} {checked : Bool} :
    Blames P (JoinTree.ofSubquery catalog access joins paths checked) := by
  refine Blames.bind (Blames.freshNumber.bind fun _ _ _ _ => .pure _) fun _ _ _ _ => ?_
  exact addJoins_blames.bind fun _ _ _ _ => addPaths_blames.bind fun _ _ _ _ =>
    addEnforcedPaths_blames

namespace Request

variable {r : Request}

theorem Resolves.part {s : Scope} {whole c : Condition} (h : r.Resolves catalog s whole)
    (hc : whole.PartOf c) : r.Resolves catalog s c := by
  obtain ⟨mid, asked, checked, outer, hopens, hposes, hwhole⟩ := h
  exact ⟨mid, asked, checked, outer, hopens, hposes, hwhole.trans hc⟩

theorem Resolves.find_excused {s : Scope} {c : Condition} {path path' model : String}
    (h : r.Resolves catalog s c) (hpath : path ∈ c.joinPaths)
    (hfind : s.tree.find s.table path s.checked = .error (.field model path' .notJoined)) :
    r.Excused catalog model path' := by
  obtain ⟨mid, asked, checked, whole, hopens, hposes, hwhole⟩ := h
  exact hopens.find_excused hposes (hwhole.joinPaths_subset hpath) hfind

/-- A subquery whose tree has been made is one that the request opens. -/
theorem Resolves.opens {s : Scope} {path : String} {inner : Option Condition} {negated : Bool}
    {link : Link} {access : Access} {tree : JoinTree}
    (h : r.Resolves catalog s (.related path inner joins negated)) (hlink : s.link path = .ok link)
    (htarget : catalog.target link.parentModel link.name link.relation = .ok access)
    (hrun : (JoinTree.ofSubquery catalog access joins ((inner.map Condition.joinPaths).getD [])
      s.checked).run p = .ok tree p') : ∃ mid, r.Opens catalog mid tree inner s.checked := by
  obtain ⟨mid, asked, checked, whole, hopens, hposes, hwhole⟩ := h
  obtain rfl := (JoinTree.ofSubquery_made hrun).access_eq
  obtain ⟨mid', hspanned⟩ := JoinTree.ofSubquery_spanned hrun
  exact ⟨mid', .subquery hopens hposes hwhole hlink htarget hspanned⟩

/-- At every depth, what is looked up for the conditions of a request is found, or excused. -/
theorem blame_ofTree (depth : Nat) :
    (Names.ofTree catalog depth).Blame (r.Excused catalog) (r.Resolves catalog) := by
  have hcolumn : ∀ {s : Scope} {c : Condition} {path model path' : String},
      r.Resolves catalog s c → path ∈ c.columnPaths →
      s.column path = .error (.field model path' .notJoined) → r.Excused catalog model path' :=
    fun hc hpath h =>
      hc.find_excused (List.mem_append_left _ hpath) (Scope.column_notJoined h)
  induction depth with
  | zero =>
    exact ⟨Resolves.part, hcolumn, fun _ _ => (fun _ _ _ _ h => nomatch h), fun _ _ => nofun⟩
  | succ depth ih =>
    refine ⟨Resolves.part, hcolumn, ?_, ?_⟩
    · intro s path inner joins negated hc hpath
      change Blames _ (s.subquery catalog (Names.ofTree catalog depth) path joins _)
      rw [Scope.subquery_eq]
      refine Blames.bind (.ofExcept fun model path' h => ?_) fun link p₁ _ hlink => ?_
      · obtain ⟨owner, howner, hfind⟩ := Scope.link_notJoined h
        refine hc.find_excused (List.mem_append_right _ ?_) hfind
        rw [Condition.relatedPaths, if_neg (by simpa using hpath)]
        exact List.mem_filterMap.2 ⟨path, List.mem_singleton_self path, howner⟩
      refine Blames.bind (.ofExcept fun _ _ h => absurd h Catalog.target_ne_notJoined) ?_
      refine fun access _ _ htarget => (Blames.report _).bind fun _ _ _ _ => ?_
      refine JoinTree.ofSubquery_blames.bind fun tree _ _ htree => ?_
      obtain ⟨mid, hopens⟩ := hc.opens (run_ofExcept_eq_ok.1 hlink).1
        (run_ofExcept_eq_ok.1 htarget).1 htree
      refine Blames.bind (.ofExcept fun _ _ h => absurd h Link.equalities_ne_notJoined) ?_
      refine fun _ _ _ _ => (hopens.clauses_blame ih).bind fun _ _ _ _ => ?_
      exact (hopens.enforced_blames ih).bind fun _ _ _ _ => .pure _
    · intro s path inner joins negated body s' p p' hc hpath h
      change (s.subquery catalog (Names.ofTree catalog depth) path joins _).run p = _ at h
      rw [Scope.subquery_eq] at h
      obtain ⟨link, _, hlink, h⟩ := run_bind_eq_ok.1 h
      obtain ⟨access, _, htarget, h⟩ := run_bind_eq_ok.1 h
      obtain ⟨_, _, -, h⟩ := run_bind_eq_ok.1 h
      obtain ⟨tree, _, htree, h⟩ := run_bind_eq_ok.1 h
      obtain ⟨_, _, -, h⟩ := run_bind_eq_ok.1 h
      obtain ⟨_, _, -, h⟩ := run_bind_eq_ok.1 h
      obtain ⟨_, _, -, h⟩ := run_bind_eq_ok.1 h
      obtain ⟨heq, -⟩ := run_pure_eq_ok.1 h
      cases heq
      obtain ⟨mid, hopens⟩ : ∃ mid, r.Opens catalog mid _ (some inner) _ :=
        hc.opens (run_ofExcept_eq_ok.1 hlink).1 (run_ofExcept_eq_ok.1 htarget).1 htree
      exact ⟨mid, some inner, s.checked, inner, hopens, .asked rfl, .whole⟩

/-! ## Requests -/

/-- On a table that stands alone, no relationship is followed. -/
theorem blame_ofTable {P : String → String → Prop} {access : Access} {qualifier : Qualifier} :
    (Names.ofTable access qualifier).Blame P fun _ _ => True := by
  refine ⟨fun _ _ => trivial, fun {s c path model path'} _ _ h => ?_, fun _ _ => .fault nofun,
    fun _ _ _ => trivial⟩
  rcases hsplit : Path.splitFirst path with ⟨name, rest⟩
  simp only [Names.ofTable, hsplit] at h
  rcases except_bind_eq_error.1 h with h | ⟨f, -, h⟩
  · exact absurd h Access.field_ne_notJoined
  · split at h
    · simp at h
    · simp at h
    · split at h <;> simp at h
    · simp at h
    · simp at h

variable {names : Names Scope} {d : Demand} {mid tree : JoinTree} {model path : String}

/-- Of the paths that a request names, only the empty one is looked up in vain. -/
theorem callerColumn_excused (hcolumn : names.column = Scope.column)
    (hspanned : JoinTree.Spanned catalog true paths mid tree) {name : String} (hname : name ∈ paths)
    (h : names.column tree.callerScope name = .error (.field model path .notJoined)) :
    r.Excused catalog model path := by
  rw [hcolumn] at h
  exact .inl (hspanned.named.find_notJoined hname (Scope.column_notJoined h))

theorem callerFill_excused (hcolumn : names.column = Scope.column)
    (hspanned : JoinTree.Spanned catalog true paths mid tree) {template base : String}
    {used : List String} (hused : used ⊆ paths)
    (h : names.fill tree.callerScope template used base = .error (.field model path .notJoined)) :
    r.Excused catalog model path := by
  rw [Names.fill] at h
  rcases except_bind_eq_error.1 h with h | ⟨_, -, h⟩
  · obtain ⟨name, hname, h⟩ := except_mapM_eq_error h
    exact callerColumn_excused hcolumn hspanned (hused hname) h
  · cases h

theorem orderKeys_excused (hcolumn : names.column = Scope.column)
    (hspanned : JoinTree.Spanned catalog true paths mid tree) {order : List OrderTerm}
    (horder : order.filterMap OrderTerm.path ⊆ paths)
    (h : tree.orderKeys names order = .error (.field model path .notJoined)) :
    r.Excused catalog model path := by
  rw [JoinTree.orderKeys] at h
  rcases except_bind_eq_error.1 h with h | ⟨_, -, h⟩
  · obtain ⟨⟨o, i⟩, ho, h⟩ := except_mapM_eq_error h
    have ho : o ∈ order := (List.mem_zipIdx' ho).2 ▸ List.getElem_mem _
    have hpath : ∀ name ∈ o.path, name ∈ paths :=
      fun name hname => horder (List.mem_filterMap.2 ⟨o, ho, hname⟩)
    simp only [JoinTree.orderKey?] at h
    split at h
    · rcases except_bind_eq_error.1 h with h | ⟨_, -, h⟩
      · refine callerFill_excused hcolumn hspanned (fun name hname => hpath name ?_) h
        exact Option.mem_toList.1 hname
      · exact absurd h nofun
    case h_2 heq =>
      rcases except_bind_eq_error.1 h with h | ⟨_, -, h⟩
      · exact callerColumn_excused hcolumn hspanned (hpath _ heq) h
      · exact absurd h nofun
    · exact absurd h nofun
  · exact absurd h nofun

theorem computedColumns_excused (hcolumn : names.column = Scope.column)
    (hspanned : JoinTree.Spanned catalog true paths mid tree) {computed : List ComputedColumn}
    (hcomputed : computed.flatMap ComputedColumn.paths ⊆ paths)
    (h : tree.computedColumns names computed = .error (.field model path .notJoined)) :
    r.Excused catalog model path := by
  rw [JoinTree.computedColumns] at h
  rcases except_bind_eq_error.1 h with h | ⟨_, -, h⟩
  · obtain ⟨⟨c, i⟩, hc, h⟩ := except_mapM_eq_error h
    have hc : c ∈ computed := (List.mem_zipIdx' hc).2 ▸ List.getElem_mem _
    rcases except_bind_eq_error.1 h with h | ⟨_, -, h⟩
    · refine callerFill_excused hcolumn hspanned (fun name hname => hcomputed ?_) h
      exact List.mem_flatMap.2 ⟨c, hc, hname⟩
    · exact absurd h nofun
  · exact absurd h nofun

theorem aggregateColumns_excused (hcolumn : names.column = Scope.column)
    (hspanned : JoinTree.Spanned catalog true paths mid tree) {items : List AggregateItem}
    (hitems : (items.filter fun i => !i.countsRows).map AggregateItem.path ⊆ paths)
    (h : items.mapM (tree.aggregateColumn catalog.dialect names) =
      .error (.field model path .notJoined)) : r.Excused catalog model path := by
  obtain ⟨i, hi, h⟩ := except_mapM_eq_error h
  rw [JoinTree.aggregateColumn] at h
  split at h
  · exact absurd h nofun
  case isFalse hcounts =>
    rcases except_bind_eq_error.1 h with h | ⟨_, -, h⟩
    · refine callerColumn_excused hcolumn hspanned (hitems ?_) h
      exact List.mem_map_of_mem (List.mem_filter.2 ⟨hi, by simpa using hcounts⟩)
    · exact absurd h nofun

theorem Opens.tail_blames (hn : names.Blame (r.Excused catalog) (r.Resolves catalog))
    (hcolumn : names.column = Scope.column) {hierarchy : Bool} {condition : Option Condition}
    {keys : List Expression} {order : List OrderTerm} {page : Option Page}
    (h : r.Opens catalog mid tree condition true)
    (hspanned : JoinTree.Spanned catalog true paths mid tree)
    (horder : order.filterMap OrderTerm.path ⊆ paths) :
    Blames (r.Excused catalog)
      (tree.tail catalog names hierarchy condition keys order page) := by
  have hasked : ∀ mark, Blames (r.Excused catalog)
      (Condition.resolve? catalog.dialect names condition tree.callerScope mark) :=
    fun mark => Condition.resolve?_blames hn fun c hc =>
      ⟨mid, condition, true, c, h, .asked hc, .whole⟩
  have hkeys : Blames (r.Excused catalog) (Build.ofExcept (tree.orderKeys names order)) :=
    .ofExcept fun _ _ h => orderKeys_excused hcolumn hspanned horder h
  refine (h.clauses_blame hn).bind fun _ _ _ _ => ?_
  simp only
  split
  · refine (hasked _).bind fun _ _ _ _ => Blames.bind (.pure _) fun _ _ _ _ => ?_
    exact hkeys.bind fun _ _ _ _ => .pure _
  · refine Blames.bind ((h.enforced_blames hn).bind fun _ _ _ _ => ?_) fun _ _ _ _ => ?_
    · exact (hasked _).bind fun _ _ _ _ => .pure _
    · exact hkeys.bind fun _ _ _ _ => .pure _

/-- What is compiled from the tree of a request. -/
theorem ofDemand_bind_blames {α : Type} {f : JoinTree → Build α} (hd : d ∈ r.demands catalog.dialect)
    (hf : ∀ mid tree, r.Opens catalog mid tree d.condition true →
      JoinTree.Spanned catalog true d.namedPaths mid tree → Blames (r.Excused catalog) (f tree)) :
    Blames (r.Excused catalog) (JoinTree.ofDemand catalog r.model d >>= f) := by
  refine JoinTree.ofDemand_blames.bind fun tree q q' hrun => ?_
  obtain ⟨mid, hspanned⟩ := JoinTree.ofDemand_spanned hrun
  exact hf mid tree (.request hd hrun hspanned) hspanned

theorem query_blames (hn : names.Blame (r.Excused catalog) (r.Resolves catalog))
    (hcolumn : names.column = Scope.column) {q : Query} (hd : q.demand ∈ r.demands catalog.dialect)
    {hierarchy : Option Hierarchy} :
    Blames (r.Excused catalog) (q.compile catalog names r.model hierarchy) := by
  refine ofDemand_bind_blames hd fun mid tree hopens hspanned => ?_
  have hnamed : q.order.filterMap OrderTerm.path ++ q.computed.flatMap ComputedColumn.paths ⊆
      q.demand.namedPaths := by
    rw [Demand.namedPaths, List.append_assoc]
    exact List.subset_append_right _ _
  have horder := (List.append_subset.1 hnamed).1
  have hcomputed := (List.append_subset.1 hnamed).2
  refine Blames.bind (.ofExcept fun model path h => ?_) fun _ _ _ _ => ?_
  · rw [Query.columns] at h
    rcases except_bind_eq_error.1 h with h | ⟨_, -, h⟩
    · exact computedColumns_excused hcolumn hspanned hcomputed h
    · exact absurd h nofun
  · exact (hopens.tail_blames hn hcolumn hspanned horder).bind fun _ _ _ _ => .pure _

/-- A statement that has no columns of its own and no order. -/
theorem plain_blames (hn : names.Blame (r.Excused catalog) (r.Resolves catalog))
    (hcolumn : names.column = Scope.column) (hd : d ∈ r.demands catalog.dialect) {hierarchy : Bool}
    {page : Option Page} {f : Tail → Select} : Blames (r.Excused catalog) (do
      let tree ← JoinTree.ofDemand catalog r.model d
      let tail ← tree.tail catalog names hierarchy d.condition [] [] page
      return f tail) := by
  refine ofDemand_bind_blames hd fun mid tree hopens hspanned => ?_
  exact (hopens.tail_blames hn hcolumn hspanned (List.nil_subset _)).bind fun _ _ _ _ => .pure _

theorem aggregate_blames (hn : names.Blame (r.Excused catalog) (r.Resolves catalog))
    (hcolumn : names.column = Scope.column) {q : AggregateQuery}
    (hd : q.demand ∈ r.demands catalog.dialect) :
    Blames (r.Excused catalog) (q.compile catalog names r.model) := by
  refine ofDemand_bind_blames hd fun mid tree hopens hspanned => ?_
  have hnamed : q.order.filterMap OrderTerm.path ++
      (q.items.filter fun i => !i.countsRows).map AggregateItem.path ⊆ q.demand.namedPaths := by
    rw [Demand.namedPaths, List.append_assoc]
    exact List.subset_append_right _ _
  refine Blames.bind (.ofExcept fun _ _ h => ?_) fun _ _ _ _ => ?_
  · exact aggregateColumns_excused hcolumn hspanned (List.append_subset.1 hnamed).2 h
  · exact (hopens.tail_blames hn hcolumn hspanned (List.append_subset.1 hnamed).1).bind
      fun _ _ _ _ => .pure _

theorem table_blames {P : String → String → Prop} {access : Access} {q : HierarchyQuery}
    {start : Predicate} : Blames P (q.table catalog access start) := by
  rw [HierarchyQuery.table]
  refine Blames.bind (.ofExcept fun _ _ h => absurd h Model.basicFields_ne_notJoined) ?_
  refine fun _ _ _ _ => Blames.bind (.ofExcept fun _ _ h => ?_) fun _ _ _ _ => ?_
  · rw [Model.parentFields] at h
    split at h
    · exact absurd h Model.basicFields_ne_notJoined
    · split at h
      · exact absurd h Model.basicFields_ne_notJoined
      · exact absurd h nofun
  · simp only
    split
    · exact .reject nofun
    refine (Condition.resolve?_blames blame_ofTable fun _ _ => trivial).bind fun _ _ _ _ => ?_
    split
    · refine (Condition.resolve_blames blame_ofTable _ trivial).bind fun _ _ _ _ => ?_
      exact Blames.bind (.pure _) fun _ _ _ _ => .pure _
    · exact Blames.bind (.pure _) fun _ _ _ _ => .pure _

theorem build_blames (depth : Nat) :
    Blames (r.Excused catalog) (r.build catalog (.ofTree catalog depth)) := by
  have hn : (Names.ofTree catalog depth).Blame (r.Excused catalog) (r.Resolves catalog) :=
    r.blame_ofTree depth
  have hcolumn : (Names.ofTree catalog depth).column = Scope.column := by cases depth <;> rfl
  have hstart : ∀ (access : Access) (q : HierarchyQuery),
      Blames (r.Excused catalog) (q.start? catalog access) :=
    fun _ _ => Condition.resolve?_blames blame_ofTable fun _ _ => trivial
  cases r with
  | query model q => exact (query_blames hn hcolumn (List.mem_singleton_self _)).map
  | count model condition joins ignoreDeleted =>
    exact (plain_blames hn hcolumn (List.mem_singleton_self _)).map
  | existence model condition joins ignoreDeleted =>
    exact (plain_blames hn hcolumn (List.mem_singleton_self _)).map
  | aggregate model q => exact (aggregate_blames hn hcolumn (List.mem_singleton_self _)).map
  | vectorSearch model q =>
    refine Blames.map (Blames.bind (.ofExcept fun _ _ h => ?_) fun query _ _ hquery => ?_)
    · have hdistance : ∀ (d : Dialect) approximate name path,
          d.distanceTemplate approximate ≠ .error (.field name path .notJoined) := by
        intro d approximate name path
        cases d <;> exact nofun
      rw [NearestQuery.toQuery] at h
      rcases except_bind_eq_error.1 h with h | ⟨_, -, h⟩
      · exact absurd h (hdistance _ _ _ _)
      rcases except_bind_eq_error.1 h with h | ⟨_, -, h⟩
      · exact absurd h (hdistance _ _ _ _)
      · exact absurd h nofun
    · refine query_blames hn hcolumn ?_
      rw [demands, (run_ofExcept_eq_ok.1 hquery).1]
      exact List.mem_singleton_self _
  | deleteWhere model condition physical =>
    rw [build, QueryCompiler.deleteWhere]
    refine Blames.bind (.ofExcept fun _ _ h => absurd h Catalog.access_ne_notJoined) ?_
    refine fun _ _ _ _ => (Condition.resolve_blames blame_ofTable _ trivial).bind fun _ _ _ _ => ?_
    split
    · exact .reject nofun
    refine (Condition.resolve?_blames blame_ofTable fun _ _ => trivial).bind fun _ _ _ _ => ?_
    split
    · split <;> exact .pure _
    · exact .pure _
  | recursive model q =>
    refine Blames.map (Blames.bind (.ofExcept fun _ _ h => absurd h Catalog.access_ne_notJoined) ?_)
    refine fun _ _ _ _ => (hstart _ _).bind fun _ _ _ _ => ?_
    split
    · exact query_blames hn hcolumn (List.mem_singleton_self _)
    · exact table_blames.bind fun _ _ _ _ => query_blames hn hcolumn (List.mem_singleton_self _)
  | recursiveCount model q =>
    refine Blames.map (Blames.bind (.ofExcept fun _ _ h => absurd h Catalog.access_ne_notJoined) ?_)
    refine fun _ _ _ _ => (hstart _ _).bind fun _ _ _ _ => ?_
    split
    · exact plain_blames hn hcolumn List.mem_cons_self
    · refine table_blames.bind fun table _ _ _ => ?_
      exact plain_blames (d := q.query.demand) hn hcolumn
        (List.mem_cons_of_mem _ (List.mem_singleton_self _))

/-- A request that is rejected because a relationship on a path is not joined: the path is one that
the rule on a table names, and the table was joined late, for what another table is held to. So no
path is in want of a join that the request names itself, that the condition of a join names, or that
is named by the rule on a table which was there before. -/
theorem notJoined_overlooks {events : List Event} (hne : path ≠ "")
    (h : r.compile catalog = (.error (.rejected (.field model path .notJoined)), events)) :
    r.Overlooks catalog model path := by
  rw [compile, compileWithin] at h
  cases hrun : (r.build catalog (.ofTree catalog (r.depthBound catalog))).run {} with
  | ok command p => simp [hrun] at h
  | error stop p =>
    simp only [hrun, Prod.mk.injEq, Except.error.injEq] at h
    obtain ⟨rfl, -⟩ := h
    exact (build_blames _ hrun).resolve_left hne

end Request

/-- Employees are held to their department, and departments to their company. -/
def chained : Catalog where
  models := [
    ("Company",
      { name := "Company", table := "company"
        fields := [⟨"id", .basic ⟨"id", "id", true⟩⟩, ⟨"name", .basic ⟨"name", "name", true⟩⟩] }),
    ("Department",
      { name := "Department", table := "department"
        fields := [⟨"id", .basic ⟨"id", "id", true⟩⟩, ⟨"name", .basic ⟨"name", "name", true⟩⟩,
          ⟨"companyId", .basic ⟨"companyId", "company_id", true⟩⟩,
          ⟨"company", .relation ⟨.one, "Company", ["companyId"]⟩⟩] }),
    ("Employee",
      { name := "Employee", table := "employee"
        fields := [⟨"id", .basic ⟨"id", "id", true⟩⟩,
          ⟨"departmentId", .basic ⟨"departmentId", "department_id", true⟩⟩,
          ⟨"department", .relation ⟨.one, "Department", ["departmentId"]⟩⟩] })]
  permissions := [
    ("Department", { rows := some (.compare "company.name" .eq (.text "y") false) }),
    ("Employee", { rows := some (.compare "department.name" .eq (.text "x") false) })]

/-- All tables of a query of employees are joined, and then the rule on departments names a
relationship that is not joined. -/
theorem chained_fails : ∃ tree p events,
    (JoinTree.ofDemand chained "Employee" (Query.demand {})).run {} = .ok tree p ∧
    (Request.query "Employee" {}).compile chained =
      (.error (.rejected (.field "Department" "company.name" .notJoined)), events) :=
  ⟨_, _, _, rfl, rfl⟩

/-- What fails there is the rule on a table that was joined late. -/
theorem chained_overlooks :
    (Request.query "Employee" {}).Overlooks chained "Department" "company.name" := by
  obtain ⟨events, hcompile⟩ : ∃ events, (Request.query "Employee" {}).compile chained =
      (.error (.rejected (.field "Department" "company.name" .notJoined)), events) := ⟨_, rfl⟩
  exact Request.notJoined_overlooks (by decide) hcompile

/-- Departments of companies, over a relationship whose name is empty. -/
def nameless : Catalog where
  models := [
    ("Company", { name := "Company", table := "company", fields := [⟨"id", .basic ⟨"id", "id", true⟩⟩] }),
    ("Department",
      { name := "Department", table := "department"
        fields := [⟨"id", .basic ⟨"id", "id", true⟩⟩,
          ⟨"companyId", .basic ⟨"companyId", "company_id", true⟩⟩,
          ⟨"", .relation ⟨.one, "Company", ["companyId"]⟩⟩] })]

/-- An empty path asks for no join, and so it is looked up in vain where it names a relationship. -/
theorem nameless_fails : ∃ tree p events,
    (JoinTree.ofDemand nameless "Department" (Query.demand { order := [{ path := some "" }] })).run {} =
      .ok tree p ∧
    (Request.query "Department" { order := [{ path := some "" }] }).compile nameless =
      (.error (.rejected (.field "Department" "" .notJoined)), events) :=
  ⟨_, _, _, rfl, rfl⟩

end QueryCompiler
