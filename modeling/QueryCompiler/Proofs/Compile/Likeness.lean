import QueryCompiler.Proofs.Compile.Unjoined
import QueryCompiler.Proofs.JoinTree.Likeness

/-!
# Compiling alike

Where names stand for the same in scopes that are alike, conditions are resolved alike there
(`Condition.resolve_matches`), and so are the joins, the filters and the subqueries of trees that are
alike. What two names have to agree on can be kept to the conditions that are posed in the scopes
that a compilation comes upon.
-/

namespace QueryCompiler

open Build

variable {m : Comparison} {catalog catalog' : Catalog}

/-! ## Conditions -/

/-- The names stand for the same in scopes that are alike, and open subqueries alike for what is
known to be posed there. -/
structure Names.Agree {σ : Type} (m : Comparison) (like : σ → σ → Prop)
    (known : σ → Condition → Prop) (names names' : Names σ) : Prop where
  part : ∀ {s whole c}, known s whole → Condition.PartOf whole c → known s c
  column : ∀ {s s'} (path : String), like s s' →
    m.Settles m.Same (names.column s path) (names'.column s' path)
  subquery : ∀ {s s' path inner joins negated}, like s s' →
    known s (.related path inner joins negated) → path ≠ "" →
    Matches m (fun x y => m.Same x.1 y.1 ∧ like x.2 y.2 ∧ ∀ c ∈ inner, known x.2 c)
      (names.subquery s path joins ((inner.map Condition.joinPaths).getD []))
      (names'.subquery s' path joins ((inner.map Condition.joinPaths).getD []))

/-- Whether a comparison can be resolved depends on its value only. -/
theorem Operator.resolve_decided (op : Operator) (value : Value) :
    (∃ e, ∀ column base, op.resolve column base value = .error e) ∨
      ∃ f : Column → String → Predicate,
        ∀ column base, op.resolve column base value = .ok (f column base) := by
  have hmembership : ∀ (op : Operator) (negated : Bool) (value : Value),
      (∃ e, ∀ column base, membership op negated column base value = .error e) ∨
        ∃ f : Column → String → Predicate,
          ∀ column base, membership op negated column base value = .ok (f column base) := by
    intro op negated value
    simp only [membership]
    cases value.collection? with
    | none => exact .inl ⟨_, fun _ _ => rfl⟩
    | some items => exact .inr ⟨_, fun _ _ => rfl⟩
  cases op with
  | isIn | notIn => exact hmembership _ _ _
  | eqOrIn =>
    cases value with
    | null => exact .inl ⟨_, fun _ _ => rfl⟩
    | list items =>
      rcases items with _ | ⟨a, _ | ⟨b, rest⟩⟩
      · exact .inl ⟨_, fun _ _ => rfl⟩
      · exact .inr ⟨_, fun _ _ => rfl⟩
      · exact hmembership .isIn false (.list (a :: b :: rest))
    | _ => exact .inr ⟨_, fun _ _ => rfl⟩
  | _ => exact .inr ⟨_, fun _ _ => rfl⟩

theorem Operator.resolve_matches {op : Operator} {column column' : Column} {base base' : String}
    {value : Value} (hcolumn : m.Same column column') (hbase : m.Same base base') :
    m.Settles m.Same (op.resolve column base value) (op.resolve column' base' value) := by
  rcases op.resolve_decided value with ⟨e, he⟩ | ⟨f, hf⟩
  · rw [he, he]
    exact .error e
  · rw [hf, hf]
    exact .ok (hcolumn.congr₂ f hbase)

section Resolution

variable {σ : Type} {like : σ → σ → Prop} {known : σ → Condition → Prop} {names names' : Names σ}
  {d : Dialect} {s s' : σ} {base base' : String}

theorem Names.Agree.fill (hn : names.Agree m like known names') (hs : like s s')
    (hbase : m.Same base base') (template : String) (paths : List String) :
    m.Settles m.Same (names.fill s template paths base) (names'.fill s' template paths base') := by
  have hcolumns : m.Settles (List.Forall₂ m.Same) (paths.mapM (names.column s))
      (paths.mapM (names'.column s')) := by
    refine Comparison.Settles.mapM (S := Eq) (List.forall₂_same.2 fun _ _ => rfl) ?_
    rintro path _ rfl
    exact hn.column path hs
  refine hcolumns.bind fun columns columns' _ hsame => .ok ?_
  exact (Comparison.Same.of_forall₂ hsame).congr₂ (fun columns base =>
    (⟨template, columns, Params.valuePath base⟩ : Filled)) hbase

namespace Condition

mutual

theorem resolve_matches (hn : names.Agree m like known names') : ∀ (c : Condition) {s s' : σ}
    {base base' : String}, like s s' → m.Same base base' → known s c →
    Matches m m.Same (c.resolve d names s base) (c.resolve d names' s' base')
  | .compare path op value skipEmpty, s, s', base, base', hs, hbase, hc => by
    rw [resolve, resolve]
    split
    · exact .pure (.refl _)
    refine (Matches.ofExcept (hn.column path hs)).bind fun column column' _ _ _ hcolumn => ?_
    exact .ofExcept (Operator.resolve_matches hcolumn hbase)
  | .group k members, s, s', base, base', hs, hbase, hc => by
    rw [resolve, resolve]
    have hmembers := resolveMembers_matches hn members 0 hs hbase fun c hmem =>
      hn.part hc (.member .whole hmem)
    exact hmembers.bind fun _ _ _ _ _ h => .pure (h.congr _)
  | .negate inner, s, s', base, base', hs, hbase, hc => by
    rw [resolve, resolve]
    refine (resolve_matches hn inner hs (hbase.congr _) (hn.part hc (.inner .whole))).bind ?_
    exact fun _ _ _ _ _ h => .pure (h.congr _)
  | .custom template paths value, s, s', base, base', hs, hbase, hc => by
    rw [resolve, resolve]
    refine (Matches.ofExcept (hn.fill hs hbase template paths)).bind fun _ _ _ _ _ h => .pure ?_
    exact h.congr₂ (fun sql base => Predicate.filled sql
      ((value.map (Binding.withItems (Params.valuePath base))).getD [])) hbase
  | .search path value mode, s, s', base, base', hs, hbase, hc => by
    rw [resolve, resolve]
    refine (Matches.ofExcept (.refl Eq.refl _)).bind ?_
    rintro template _ _ _ _ rfl
    refine (Matches.ofExcept (hn.fill hs hbase template [path])).bind fun _ _ _ _ _ h => .pure ?_
    exact h.congr₂ (fun sql base => Predicate.filled sql [⟨Params.valuePath base, value⟩]) hbase
  | .related path inner joins negated, s, s', base, base', hs, hbase, hc => by
    rw [resolve_related, resolve_related]
    split
    · exact .pure (.refl _)
    case isFalse hne =>
      have hpath : path ≠ "" := fun heq => hne (String.isEmpty_iff.2 heq)
      refine (hn.subquery hs hc hpath).bind ?_
      rintro ⟨body, u⟩ ⟨body', u'⟩ _ _ _ ⟨hbody, hu, hinner⟩
      refine (resolve?_matches hn (c := inner) hu (hbase.congr _) hinner).bind ?_
      exact fun _ _ _ _ _ h => .pure (hbody.congr₂ (Predicate.related negated) h)

theorem resolve?_matches (hn : names.Agree m like known names') {c : Option Condition} {s s' : σ}
    {base base' : String} (hs : like s s') (hbase : m.Same base base')
    (hc : ∀ c' ∈ c, known s c') :
    Matches m m.Same (resolve? d names c s base) (resolve? d names' c s' base') := by
  cases c with
  | none => exact .pure (.refl _)
  | some c => exact resolve_matches hn c hs hbase (hc c rfl)

theorem resolveMembers_matches (hn : names.Agree m like known names') : ∀ (cs : List Condition)
    (i : Nat) {s s' : σ} {base base' : String}, like s s' → m.Same base base' →
    (∀ c ∈ cs, known s c) →
    Matches m m.Same (resolveMembers d names cs s base i) (resolveMembers d names' cs s' base' i)
  | [], _, _, _, _, _, _, _, _ => by
    rw [resolveMembers, resolveMembers]
    exact .pure (.refl _)
  | c :: cs, i, s, s', base, base', hs, hbase, hcs => by
    rw [resolveMembers, resolveMembers]
    have hmember : m.Same (memberPath base i) (memberPath base' i) :=
      hbase.congr fun base => memberPath base i
    refine (resolve_matches hn c hs hmember (hcs c List.mem_cons_self)).bind fun _ _ _ _ _ h => ?_
    refine (resolveMembers_matches hn cs (i + 1) hs hbase fun c' hc' =>
      hcs c' (List.mem_cons_of_mem _ hc')).bind fun _ _ _ _ _ h' => .pure ?_
    exact h.congr₂ List.cons h'

end
end Condition
end Resolution

/-! ## Trees -/

namespace JoinTree

variable {known : Scope → Condition → Prop} {names names' : Names Scope} {tree tree' : JoinTree}
  {asked : Option Condition} {checked : Bool}

/-- All that is posed on the tables of a tree is known. -/
def Known (known : Scope → Condition → Prop) (tree : JoinTree) (asked : Option Condition)
    (checked : Bool) : Prop :=
  ∀ ⦃t minded c⦄, tree.Poses asked checked t minded c → known ⟨tree, t, minded⟩ c

section Scopes

variable {like : Scope → Scope → Prop} (hcat : catalog.Like m catalog')
  (hn : names.Agree m like known names')
include hcat hn

theorem enforced_matches {t t' : Table} (ht : t.Like m t')
    (hs : like ⟨tree, t, false⟩ ⟨tree', t', false⟩) {mark mark' : String}
    (hmark : m.Same mark mark')
    (hknown : ∀ c ∈ t.access.enforced? t.ignoreDeleted, known ⟨tree, t, false⟩ c) :
    Matches m m.Same (tree.enforced catalog names t mark)
      (tree'.enforced catalog' names' t' mark') := by
  rw [enforced, enforced, ← ht.access.enforced?, ← ht.ignoreDeleted, ← hcat.dialect]
  exact Condition.resolve?_matches hn hs (hmark.congr (· ++ "0")) hknown

theorem filter_matches {t t' : Table} (ht : t.Like m t')
    (hs : ∀ checked, (checked = true → m.minded) → like ⟨tree, t, checked⟩ ⟨tree', t', checked⟩)
    {mark mark' : String} (hmark : m.Same mark mark')
    {requested : Option Condition} (hm : requested ≠ none → m.minded)
    (hheld : ∀ c ∈ t.access.enforced? t.ignoreDeleted, known ⟨tree, t, false⟩ c)
    (hasked : ∀ c ∈ requested, known ⟨tree, t, true⟩ c) :
    Matches m m.Same (tree.filter catalog names t mark requested)
      (tree'.filter catalog' names' t' mark' requested) := by
  refine (enforced_matches hcat hn ht (hs false nofun) hmark hheld).bind fun _ _ _ _ _ hp => ?_
  rw [← hcat.dialect]
  cases requested with
  | none => exact .pure (hp.congr fun held => Filter.mk held _)
  | some c =>
    refine (Condition.resolve?_matches hn (hs true fun _ => hm nofun) (hmark.congr (· ++ "1"))
      hasked).bind ?_
    exact fun _ _ _ _ _ hq => .pure (hp.congr₂ Filter.mk hq)

theorem clause_matches {j j' : Joined} (hj : j.Like m j')
    (hs : ∀ checked, (checked = true → m.minded) →
      like ⟨tree, j.toTable, checked⟩ ⟨tree', j'.toTable, checked⟩)
    (hheld : ∀ c ∈ j.access.enforced? j.ignoreDeleted, known ⟨tree, j.toTable, false⟩ c)
    (hasked : ∀ c ∈ j.condition, known ⟨tree, j.toTable, true⟩ c) :
    Matches m m.Same (tree.clause catalog names j) (tree'.clause catalog' names' j') := by
  refine (Matches.ofExcept (Link.equalities_matches hj.link hj.table)).bind ?_
  intro link link' _ _ _ hlink
  rw [← hj.condition]
  have hmark : m.Same (joinMark j.toTable) (joinMark j'.toTable) :=
    hj.table.number.congr fun n => "j" ++ Nat.repr n
  refine (filter_matches hcat hn hj.table hs hmark hj.minded hheld hasked).bind
    fun filter filter' _ _ _ hfilter => .pure ?_
  rw [hj.type, hj.table.access.model]
  intro hsame
  rw [hj.table.number hsame, hlink hsame, hfilter hsame]

end Scopes

theorem clauses_matches (hcat : catalog.Like m catalog')
    (hn : names.Agree m (Scope.Like m) known names') (h : tree.Like m False tree')
    (hknown : tree.Known known asked checked) :
    Matches m m.Same (tree.clauses catalog names) (tree'.clauses catalog' names') := by
  refine Matches.mono (Matches.mapM h.inOrder fun j j' hj hlike => ?_) fun _ _ => .of_forall₂
  have hj : j ∈ tree.joined := tree.inOrder_perm.subset hj
  have ht : j.toTable ∈ tree.tables := List.mem_cons_of_mem _ (List.mem_map_of_mem hj)
  exact clause_matches hcat hn hlike (fun _ hm => ⟨h, hlike.table, rfl, hm⟩)
    (fun c hc => hknown (.enforced ht hc)) fun c hc => hknown (.joined hj hc)

theorem ofSubquery_matches (hcat : catalog.Like m catalog') {access access' : Access}
    (ha : access.Like m access') {joins : List Join} {paths : List String} {minded : Bool}
    (hjoins : joins ≠ [] → m.minded) (hm : minded = true → m.minded) :
    Matches m (Like m False) (ofSubquery catalog access joins paths minded)
      (ofSubquery catalog' access' joins paths minded) := by
  refine (@single_matches m True access access' ha).bind fun tree tree' _ _ _ h => ?_
  have hplaced : JoinTree.Like m True { tree with place := some .existsSubquery }
      { tree' with place := some .existsSubquery } := ⟨h.root, h.joined, fun _ => rfl⟩
  refine (addJoins_matches hcat hjoins hplaced (.inl trivial)).bind fun _ _ _ _ _ h => ?_
  refine (addPaths_matches hcat (fun _ => hm) h h.root).bind fun _ _ _ _ _ h => ?_
  exact (addEnforcedPaths_matches hcat h).mono fun _ _ h => ⟨h.root, h.joined, nofun⟩

end JoinTree

/-! ## Subqueries -/

namespace Scope

variable {known : Scope → Condition → Prop} {names names' : Names Scope} {s s' : Scope}
  {path path' : String} {joins : List Join} {paths : List String}

/-- The tree is made for the subquery over the relationship at a path of the scope. -/
def Makes (catalog : Catalog) (s : Scope) (path : String) (joins : List Join) (paths : List String)
    (tree : JoinTree) : Prop :=
  ∃ link access p p', s.link path = .ok link ∧
    catalog.target link.parentModel link.name link.relation = .ok access ∧
    (JoinTree.ofSubquery catalog access joins paths s.checked).run p = .ok tree p'

/-- Over the same relationship, subqueries are opened alike. -/
theorem subquery_matches (hcat : catalog.Like m catalog')
    (hn : names.Agree m (Scope.Like m) known names')
    (hlink : m.Settles (Link.Like m) (s.link path) (s'.link path')) (hchecked : s.checked = s'.checked)
    (hminded : s.checked = true → m.minded) (hjoins : joins ≠ [] → m.minded)
    (hknown : ∀ tree, s.Makes catalog path joins paths tree → tree.Known known none s.checked) :
    Matches m (fun x y => m.Same x.1 y.1 ∧ x.2.Like m y.2 ∧
        s.Makes catalog path joins paths x.2.tree ∧ x.2.table = x.2.tree.root ∧
        x.2.checked = s.checked)
      (s.subquery catalog names path joins paths) (s'.subquery catalog' names' path' joins paths) := by
  rw [subquery_eq, subquery_eq, ← hchecked]
  refine (Matches.ofExcept hlink).bind fun link link' _ _ hrun hlike => ?_
  have hl := (run_ofExcept_eq_ok.1 hrun).1
  rw [← hlike.parentModel, ← hlike.name, ← hlike.relation]
  refine (Matches.ofExcept (hcat.target _ _ _)).bind fun access access' _ _ hrun haccess => ?_
  have htarget := (run_ofExcept_eq_ok.1 hrun).1
  rw [← haccess.model]
  refine (Matches.report _).bind fun _ _ _ _ _ _ => ?_
  refine (JoinTree.ofSubquery_matches hcat haccess hjoins hminded).bind
    fun tree tree' _ _ htree h => ?_
  have hmakes : s.Makes catalog path joins paths tree :=
    ⟨link, access, _, _, hl, htarget, htree⟩
  have hposed := hknown tree hmakes
  have hmark : m.Same (JoinTree.joinMark tree.root) (JoinTree.joinMark tree'.root) :=
    h.root.number.congr fun n => "j" ++ Nat.repr n
  refine (Matches.ofExcept (Link.equalities_matches hlike h.root)).bind fun _ _ _ _ _ hlink => ?_
  refine (JoinTree.clauses_matches hcat hn h hposed).bind fun _ _ _ _ _ hclauses => ?_
  refine (JoinTree.enforced_matches hcat hn h.root ⟨h, h.root, rfl, nofun⟩ hmark fun c hc =>
    hposed (.enforced List.mem_cons_self hc)).bind fun _ _ _ _ _ henforced => .pure ?_
  refine ⟨fun hsame => ?_, ⟨h, h.root, rfl, hminded⟩, hmakes, rfl, rfl⟩
  rw [h.root.number hsame, hlink hsame, hclauses hsame, henforced hsame]

end Scope

/-- At every depth, the names of a join tree stand for the same in scopes that are alike. -/
theorem Names.agree_ofTree (hdeep : m.deep) (hm : m.minded) (depth : Nat) :
    (Names.ofTree catalog depth).Agree m (Scope.Like m) (fun _ _ => True)
      (Names.ofTree catalog depth) := by
  induction depth with
  | zero =>
    exact ⟨fun _ _ => trivial, fun path hs => Scope.column_matches hs,
      fun _ _ _ _ _ _ => .deep hdeep⟩
  | succ depth ih =>
    refine ⟨fun _ _ => trivial, fun path hs => Scope.column_matches hs, fun hs _ _ => ?_⟩
    refine (Scope.subquery_matches (.refl catalog) ih (Scope.link_matches hs) hs.checked hs.minded
      (fun _ => hm) fun _ _ _ _ _ _ => trivial).mono fun _ _ h => ⟨h.1, h.2.1, fun _ _ => trivial⟩

/-- They open subqueries alike in scopes of which the second finds what the first does. -/
theorem Names.agree_foundIn (hdeep : m.deep) (hm : m.minded) (depth : Nat) :
    (Names.ofTree catalog depth).Agree m (Scope.FoundIn m) (fun _ _ => True)
      (Names.ofTree catalog depth) := by
  cases depth with
  | zero => exact ⟨fun _ _ => trivial, fun path hs => hs.column, fun _ _ _ _ _ _ => .deep hdeep⟩
  | succ depth =>
    refine ⟨fun _ _ => trivial, fun path hs => hs.column, fun hs _ _ => ?_⟩
    refine (Scope.subquery_matches (.refl catalog) (Names.agree_ofTree hdeep hm depth) hs.link
      hs.checked hs.minded (fun _ => hm) fun _ _ _ _ _ _ => trivial).mono fun _ _ h => ?_
    exact ⟨h.1, h.2.1.foundIn, fun _ _ => trivial⟩

/-! ## Requests -/

/-- Two demands for the same tables. Where one refuses joins that the other allows, there are none
of them, and where one selects, it is the default fields. -/
structure Demand.Like (d d' : Demand) : Prop where
  joins : d.joins = d'.joins
  named : d.namedPaths = d'.namedPaths
  ignoreDeleted : d.ignoreDeleted = d'.ignoreDeleted
  wanted : d.wanted = d'.wanted ∨ d.wanted = .nothing ∧ d'.wanted = .paths none
  place : d.place = d'.place ∨ ∀ join ∈ d.joins, join.type.keepsJoined = false

theorem Demand.Like.refl (d : Demand) : d.Like d :=
  ⟨rfl, rfl, rfl, .inl rfl, .inl rfl⟩

/-- The caller names tables. -/
def Demand.NamesTables (d : Demand) : Prop :=
  d.joins ≠ [] ∨ d.namedPaths ≠ [] ∨ d.wanted ≠ .nothing

namespace JoinTree

variable {known : Scope → Condition → Prop} {names names' : Names Scope} {tree tree' : JoinTree}

theorem ofDemand_matches (hcat : catalog.Like m catalog') {model : String} {d d' : Demand}
    (hd : d.Like d') (hm : d.NamesTables → m.minded) :
    Matches m (Like m False) (ofDemand catalog model d) (ofDemand catalog' model d') := by
  rw [ofDemand, ofDemand, ← hd.joins, ← hd.named, ← hd.ignoreDeleted]
  refine (Matches.ofExcept (hcat.access model).settles).bind fun access access' _ _ _ haccess => ?_
  refine (@single_matches m True access access' haccess).bind fun tree tree' _ _ _ h => ?_
  have hstart : JoinTree.Like m (d.place = d'.place)
      { tree with root := { tree.root with ignoreDeleted := d.ignoreDeleted }, place := d.place }
      { tree' with
        root := { tree'.root with ignoreDeleted := d.ignoreDeleted }, place := d'.place } :=
    ⟨⟨h.root.path, h.root.number, h.root.access, rfl⟩, h.joined, id⟩
  refine (addJoins_matches hcat (fun hjoins => hm (.inl hjoins)) hstart hd.place).bind
    fun _ _ _ _ _ h => ?_
  refine (addPaths_matches hcat (fun hpaths _ => hm (.inr (.inl hpaths))) h h.root).bind
    fun tree tree' _ _ _ h => ?_
  have hforced : ∀ {u u' : JoinTree}, u.Like m (d.place = d'.place) u' →
      Matches m (Like m False) (u.addEnforcedPaths catalog) (u'.addEnforcedPaths catalog') :=
    fun h => (addEnforcedPaths_matches hcat h).mono fun _ _ h => ⟨h.root, h.joined, False.elim⟩
  rcases hd.wanted with hwanted | ⟨hnothing, hdefault⟩
  · rw [← hwanted]
    cases hpaths : d.wanted with
    | nothing => exact hforced h
    | paths paths =>
      have hminded : m.minded := hm (.inr (.inr (by simp [hpaths])))
      exact (select_matches hcat hminded h).bind fun _ _ _ _ _ h => hforced h
  · -- what is chosen on the tables by default is no part of their likeness
    rw [hnothing, hdefault]
    have hchosen : tree.Like m (d.place = d'.place)
        (tree'.mapTables fun t => t.choose t.defaultChoices) := by
      refine ⟨?_, ?_, h.place⟩
      · exact ⟨h.root.path, h.root.number, h.root.access, h.root.ignoreDeleted⟩
      · rw [mapTables, List.forall₂_map_right_iff]
        exact h.joined.imp fun _ _ hj => ⟨⟨hj.table.path, hj.table.number, hj.table.access,
          hj.table.ignoreDeleted⟩, hj.link, hj.type, hj.condition, hj.minded⟩
    exact hforced hchosen

section Scopes

variable {like : Scope → Scope → Prop} (hn : names.Agree m like known names')
include hn

theorem orderKeys_matches {order : List OrderTerm}
    (hs : order ≠ [] → like tree.callerScope tree'.callerScope) :
    m.Settles m.Same (tree.orderKeys names order) (tree'.orderKeys names' order) := by
  by_cases hnone : order = []
  · rw [hnone]
    exact .ok (.refl _)
  have hscope := hs hnone
  refine Comparison.Settles.bind (R := List.Forall₂ m.Same) (Comparison.Settles.mapM (S := Eq)
    (List.forall₂_same.2 fun _ _ => rfl) ?_) fun keys keys' _ hsame => .ok ?_
  · rintro ⟨o, i⟩ _ rfl
    simp only [orderKey?]
    split
    · refine (hn.fill hscope (.refl _) _ _).bind fun _ _ _ hsql => .ok ?_
      exact hsql.congr fun sql => some (⟨.filled sql, o.ascending, _⟩ : OrderKey)
    · refine (hn.column _ hscope).bind fun _ _ _ hcolumn => .ok ?_
      exact hcolumn.congr fun column => some (⟨.column column, o.ascending, []⟩ : OrderKey)
    · exact .ok (.refl _)
  · exact (Comparison.Same.of_forall₂ hsame).congr (List.filterMap id)

variable (hs : like tree.callerScope tree'.callerScope)
include hs

theorem computedColumns_matches (computed : List ComputedColumn) :
    m.Settles m.Same (tree.computedColumns names computed)
      (tree'.computedColumns names' computed) := by
  refine Comparison.Settles.bind (R := List.Forall₂ m.Same) (Comparison.Settles.mapM (S := Eq)
    (List.forall₂_same.2 fun _ _ => rfl) ?_) fun columns columns' _ hsame => .ok ?_
  · rintro ⟨c, i⟩ _ rfl
    refine (hn.fill hs (.refl _) _ _).bind fun _ _ _ hsql => .ok ?_
    exact hsql.congr fun sql => (ResultColumn.leaf ⟨.filled sql, c.name, false, false⟩, _)
  · exact (Comparison.Same.of_forall₂ hsame).congr fun columns =>
      (columns.map (·.1), columns.flatMap (·.2))

theorem aggregateColumns_matches (d : Dialect) (items : List AggregateItem) :
    m.Settles m.Same (items.mapM (tree.aggregateColumn d names))
      (items.mapM (tree'.aggregateColumn d names')) := by
  refine (Comparison.Settles.mapM (R := m.Same) (S := Eq) (List.forall₂_same.2 fun _ _ => rfl) ?_).mono
    fun _ _ => .of_forall₂
  rintro i _ rfl
  rw [aggregateColumn, aggregateColumn]
  split
  · exact .ok (.refl _)
  · refine (hn.column _ hs).bind fun _ _ _ hcolumn => .ok fun hsame => ?_
    rw [hcolumn hsame]

end Scopes

theorem Like.callerScope (h : tree.Like m False tree') (hm : m.minded) :
    tree.callerScope.Like m tree'.callerScope :=
  ⟨h, h.root, rfl, fun _ => hm⟩

/-- Behind trees that are alike stand the same clauses, but for the page. -/
theorem tail_matches (hsame : m.same) (hcat : catalog.Like m catalog')
    (hn : names.Agree m (Scope.Like m) known names') (h : tree.Like m False tree') {hierarchy : Bool}
    {condition : Option Condition} {keys : List Expression} {order : List OrderTerm}
    {page page' : Option Page} (hm : condition ≠ none ∨ order ≠ [] → m.minded)
    (hknown : tree.Known known condition true) :
    Matches m (fun t t' => t.limit = catalog.settings.limit? page ∧
        t' = { t with limit := catalog.settings.limit? page' })
      (tree.tail catalog names hierarchy condition keys order page)
      (tree'.tail catalog' names' hierarchy condition keys order page') := by
  have hasked : ∀ mark, Matches m m.Same
      (Condition.resolve? catalog.dialect names condition tree.callerScope mark)
      (Condition.resolve? catalog.dialect names' condition tree'.callerScope mark) := by
    intro mark
    cases condition with
    | none => exact .pure (.refl _)
    | some c =>
      exact Condition.resolve?_matches hn (h.callerScope (hm (.inl nofun))) (.refl _)
        fun c hc => hknown (.asked hc)
  rw [tail, tail, ← h.root.access.model, ← h.root.number hsame, ← hcat.dialect, ← hcat.settings]
  refine (clauses_matches hcat hn h hknown).bind fun clauses clauses' _ _ _ hclauses => ?_
  have horder := Matches.ofExcept (m := m)
    (orderKeys_matches hn fun horder => h.callerScope (hm (.inr horder)))
  cases hierarchy with
  | true =>
    refine (hasked _).bind fun asked asked' _ _ _ hq => ?_
    obtain rfl := hq hsame
    simp only [pure_bind]
    refine horder.bind fun keys keys' _ _ _ hkeys => .pure ⟨rfl, ?_⟩
    rw [hclauses hsame, hkeys hsame]
  | false =>
    refine (filter_matches hcat hn h.root (fun _ hm => ⟨h, h.root, rfl, hm⟩) (.refl _)
      (fun hasked => hm (.inl hasked))
      (fun c hc => hknown (.enforced List.mem_cons_self hc)) fun c hc =>
        hknown (.asked hc)).bind fun filter filter' _ _ _ hf => ?_
    refine horder.bind fun keys keys' _ _ _ hkeys => .pure ⟨rfl, ?_⟩
    rw [hclauses hsame, hf hsame, hkeys hsame]

end JoinTree

/-- On a table that stands alone, names stand for the same as ever. -/
theorem Names.agree_ofTable (access : Access) (qualifier : Qualifier) :
    (Names.ofTable access qualifier).Agree m Eq (fun _ _ => True)
      (Names.ofTable access qualifier) :=
  ⟨fun _ _ => trivial, fun _ h => h ▸ .refl Comparison.Same.refl _, fun _ _ _ => .reject _⟩

section Requests

variable {known : Scope → Condition → Prop} {names names' : Names Scope} {model : String}

/-- A step over the tables that a demand asks for. -/
theorem JoinTree.ofDemand_bind_matches {α : Type} {f g : JoinTree → Build α} {d : Demand}
    (hsame : m.same) (hm : m.minded)
    (hf : ∀ tree p p', (JoinTree.ofDemand catalog model d).run p = .ok tree p' →
      Matches m Eq (f tree) (g tree)) :
    Matches m Eq (JoinTree.ofDemand catalog model d >>= f)
      (JoinTree.ofDemand catalog model d >>= g) := by
  refine ((JoinTree.ofDemand_matches (.refl catalog) (.refl d) fun _ => hm).eq_of_same hsame).bind ?_
  rintro tree _ p p' hrun rfl
  exact hf tree p p' hrun

theorem JoinTree.tail_matches_self (hsame : m.same) (hm : m.minded)
    (hn : names.Agree m (Scope.Like m) known names') {tree : JoinTree} {hierarchy : Bool}
    {condition : Option Condition} {keys : List Expression} {order : List OrderTerm}
    {page : Option Page} (hknown : tree.Known known condition true) :
    Matches m Eq (tree.tail catalog names hierarchy condition keys order page)
      (tree.tail catalog names' hierarchy condition keys order page) := by
  refine (JoinTree.tail_matches hsame (.refl catalog) hn (.refl hm tree) (fun _ => hm)
    hknown).mono ?_
  rintro tail _ ⟨hlimit, rfl⟩
  rw [← hlimit]

/-- All that is posed on the tables that a demand asks for is known. -/
def Demand.Known (catalog : Catalog) (known : Scope → Condition → Prop) (model : String)
    (d : Demand) : Prop :=
  ∀ tree p p', (JoinTree.ofDemand catalog model d).run p = .ok tree p' →
    tree.Known known d.condition true

theorem Query.compile_matches (hsame : m.same) (hm : m.minded)
    (hn : names.Agree m (Scope.Like m) known names')
    {q : Query} (hknown : q.demand.Known catalog known model) (hierarchy : Option Hierarchy) :
    Matches m Eq (q.compile catalog names model hierarchy)
      (q.compile catalog names' model hierarchy) := by
  refine JoinTree.ofDemand_bind_matches hsame hm fun tree p p' hrun => ?_
  have hcolumns : m.Settles Eq (q.columns catalog names tree) (q.columns catalog names' tree) := by
    refine (JoinTree.computedColumns_matches hn (.refl hm tree.callerScope) q.computed).bind ?_
    intro _ _ _ h
    rw [h hsame]
    exact .refl (fun _ => rfl) _
  refine (Matches.ofExcept hcolumns).bind ?_
  rintro columns _ _ _ _ rfl
  refine (JoinTree.tail_matches_self hsame hm hn (hknown tree p p' hrun)).bind ?_
  rintro tail _ _ _ _ rfl
  exact .pure rfl

/-- A statement that has no columns of its own and no order. -/
theorem plain_matches (hsame : m.same) (hm : m.minded)
    (hn : names.Agree m (Scope.Like m) known names') {d : Demand}
    (hknown : d.Known catalog known model) {hierarchy : Bool} {page : Option Page}
    {f : Tail → Select} : Matches m Eq
      (do
        let tree ← JoinTree.ofDemand catalog model d
        let tail ← tree.tail catalog names hierarchy d.condition [] [] page
        return f tail)
      (do
        let tree ← JoinTree.ofDemand catalog model d
        let tail ← tree.tail catalog names' hierarchy d.condition [] [] page
        return f tail) := by
  refine JoinTree.ofDemand_bind_matches hsame hm fun tree p p' hrun => ?_
  refine (JoinTree.tail_matches_self hsame hm hn (hknown tree p p' hrun)).bind ?_
  rintro tail _ _ _ _ rfl
  exact .pure rfl

theorem AggregateQuery.compile_matches (hsame : m.same) (hm : m.minded)
    (hn : names.Agree m (Scope.Like m) known names') {q : AggregateQuery}
    (hknown : q.demand.Known catalog known model) :
    Matches m Eq (q.compile catalog names model) (q.compile catalog names' model) := by
  refine JoinTree.ofDemand_bind_matches hsame hm fun tree p p' hrun => ?_
  refine (Matches.ofExcept (JoinTree.aggregateColumns_matches hn (.refl hm tree.callerScope) _ _)).bind ?_
  intro columns columns' _ _ _ h
  obtain rfl := h hsame
  refine (JoinTree.tail_matches_self hsame hm hn (hknown tree p p' hrun)).bind ?_
  rintro tail _ _ _ _ rfl
  exact .pure rfl

theorem HierarchyQuery.table_matches (hsame : m.same) {access : Access} {q : HierarchyQuery}
    {start : Predicate} :
    Matches m Eq (q.table catalog access start) (q.table catalog access start) := by
  have hn : (Names.ofTable access .row).Agree m Eq (fun _ _ => True) (Names.ofTable access .row) :=
    Names.agree_ofTable access .row
  rw [HierarchyQuery.table]
  refine (Matches.ofExcept (.refl Eq.refl _)).bind ?_
  rintro keys _ _ _ _ rfl
  refine (Matches.ofExcept (.refl Eq.refl _)).bind ?_
  rintro parents _ _ _ _ rfl
  split
  · exact .reject _
  refine (Condition.resolve?_matches hn rfl (.refl _) fun _ _ => trivial).bind ?_
  intro held held' _ _ _ hheld
  obtain rfl := hheld hsame
  split
  · refine (Condition.resolve_matches hn notDeleted rfl (.refl _) trivial).bind ?_
    intro p p' _ _ _ hp
    obtain rfl := hp hsame
    exact .pure rfl
  · exact .pure rfl

theorem deleteWhere_matches (hsame : m.same) {condition : Condition} {physical : Bool} :
    Matches m Eq (deleteWhere catalog model condition physical)
      (deleteWhere catalog model condition physical) := by
  rw [deleteWhere]
  refine (Matches.ofExcept (.refl Eq.refl _)).bind ?_
  rintro access _ _ _ _ rfl
  have hn : (Names.ofTable access .bare).Agree m Eq (fun _ _ => True)
      (Names.ofTable access .bare) := Names.agree_ofTable access .bare
  refine (Condition.resolve_matches hn condition rfl (.refl _) trivial).bind ?_
  intro asked asked' _ _ _ hasked
  obtain rfl := hasked hsame
  split
  · exact .reject _
  refine (Condition.resolve?_matches hn rfl (.refl _) fun _ _ => trivial).bind ?_
  intro held held' _ _ _ hheld
  obtain rfl := hheld hsame
  split
  · split <;> exact .pure rfl
  · exact .pure rfl

/-- Where names agree on all that is posed on the tables of a request, its command is built alike. -/
theorem Request.build_matches (hsame : m.same) (hm : m.minded)
    (hn : names.Agree m (Scope.Like m) known names')
    (r : Request) (hknown : ∀ d ∈ r.demands catalog.dialect, d.Known catalog known r.model) :
    Matches m Eq (r.build catalog names) (r.build catalog names') := by
  have hstart : ∀ (access : Access) (q : HierarchyQuery),
      Matches m Eq (q.start? catalog access) (q.start? catalog access) := fun access q =>
    Matches.eq_of_same hsame (Condition.resolve?_matches (Names.agree_ofTable access .row) rfl
      (.refl _) fun _ _ => trivial)
  have hmap : ∀ {x y : Build Select}, Matches m Eq x y →
      Matches m Eq (Command.select <$> x) (Command.select <$> y) :=
    fun h => h.map fun _ _ h => congrArg _ h
  cases r with
  | query model q =>
    exact hmap (Query.compile_matches hsame hm hn (hknown _ (List.mem_singleton_self _)) none)
  | count model condition joins ignoreDeleted =>
    exact hmap (plain_matches hsame hm hn (hknown _ (List.mem_singleton_self _)))
  | existence model condition joins ignoreDeleted =>
    exact hmap (plain_matches hsame hm hn (hknown _ (List.mem_singleton_self _)))
  | aggregate model q =>
    exact hmap (AggregateQuery.compile_matches hsame hm hn (hknown _ (List.mem_singleton_self _)))
  | deleteWhere model condition physical => exact deleteWhere_matches hsame
  | vectorSearch model q =>
    refine hmap ((Matches.ofExcept (.refl Eq.refl _)).bind ?_)
    rintro query _ _ _ hrun rfl
    refine Query.compile_matches hsame hm hn (hknown _ ?_) none
    rw [demands, (run_ofExcept_eq_ok.1 hrun).1]
    exact List.mem_singleton_self _
  | recursive model q =>
    have hquery := Query.compile_matches hsame hm hn (hknown _ (List.mem_singleton_self _))
    refine hmap ((Matches.ofExcept (.refl Eq.refl _)).bind ?_)
    rintro access _ _ _ _ rfl
    refine (hstart access q).bind ?_
    rintro start _ _ _ _ rfl
    split
    · exact hquery none
    · refine (HierarchyQuery.table_matches hsame).bind ?_
      rintro table _ _ _ _ rfl
      exact hquery (some table)
  | recursiveCount model q =>
    refine hmap ((Matches.ofExcept (.refl Eq.refl _)).bind ?_)
    rintro access _ _ _ _ rfl
    refine (hstart access q).bind ?_
    rintro start _ _ _ _ rfl
    split
    · exact plain_matches hsame hm hn (hknown _ List.mem_cons_self)
    · refine (HierarchyQuery.table_matches hsame).bind ?_
      rintro table _ _ _ _ rfl
      exact plain_matches hsame hm hn
        (hknown q.query.demand (List.mem_cons_of_mem _ (List.mem_singleton_self _)))

end Requests
end QueryCompiler
