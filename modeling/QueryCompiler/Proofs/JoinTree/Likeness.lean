import QueryCompiler.Compile.Tables
import QueryCompiler.Proofs.Build.Matching
import QueryCompiler.Proofs.Keyed

/-!
# Trees that are alike

Two trees are alike if they have the same tables, whatever has been chosen on them, and whatever
numbers they have been given unless numbers are compared. The making of trees goes on alike from
trees that are alike, and lookups in them end alike.
-/

namespace QueryCompiler

variable {m : Comparison}

/-- Two accesses to the same rows of one model. They permit the same fields, as far as that is minded
and does not make the first one stop. -/
structure Access.Like (m : Comparison) (a a' : Access) : Prop where
  model : a.model = a'.model
  rows : a.rows? = a'.rows?
  permits : m.minded → ∀ name,
    a.permits name = a'.permits name ∨ m.Refuses ∧ a.permits name = false

/-- Two catalogs of the same models, in which these are seen alike. -/
structure Catalog.Like (m : Comparison) (catalog catalog' : Catalog) : Prop where
  settings : catalog.settings = catalog'.settings
  access : ∀ name, ExceptRel (Access.Like m) (catalog.access name) (catalog'.access name)

/-- Two tables of the same model at the same place. -/
structure Table.Like (m : Comparison) (t t' : Table) : Prop where
  path : t.path = t'.path
  number : m.Same t.number t'.number
  access : t.access.Like m t'.access
  ignoreDeleted : t.ignoreDeleted = t'.ignoreDeleted

/-- The same relationship of tables that are alike. -/
structure Link.Like (m : Comparison) (l l' : Link) : Prop where
  name : l.name = l'.name
  relation : l.relation = l'.relation
  parentNumber : m.Same l.parentNumber l'.parentNumber
  parentModel : l.parentModel = l'.parentModel

/-- Two tables that are joined alike. What joined rows are asked to meet minds permissions. -/
structure Joined.Like (m : Comparison) (j j' : Joined) : Prop where
  table : j.toTable.Like m j'.toTable
  link : j.link.Like m j'.link
  type : j.type = j'.type
  condition : j.condition = j'.condition
  minded : j.condition ≠ none → m.minded

/-- Two trees of tables that are alike. If `placed`, they refuse the same joins. -/
structure JoinTree.Like (m : Comparison) (placed : Prop) (tree tree' : JoinTree) : Prop where
  root : tree.root.Like m tree'.root
  joined : List.Forall₂ (Joined.Like m) tree.joined tree'.joined
  place : placed → tree.place = tree'.place

/-- Two scopes of trees that are alike. -/
structure Scope.Like (m : Comparison) (s s' : Scope) : Prop where
  tree : s.tree.Like m False s'.tree
  table : s.table.Like m s'.table
  checked : s.checked = s'.checked
  minded : s.checked = true → m.minded

/-- What one lookup finds in two trees: tables that are joined alike, or none. In the first tree it
may find none because that stops it. -/
inductive Joined.Found (m : Comparison) : Option Joined → Option Joined → Prop where
  | found {j j' : Joined} : j.Like m j' → Found m (some j) (some j')
  | missing : Found m none none
  | cut {x : Option Joined} : (∀ model path, m.cut (.rejected (.field model path .notJoined))) →
      Found m none x

/-- What is found in the first tree is found in the second. -/
def JoinTree.FoundIn (m : Comparison) (tree tree' : JoinTree) : Prop :=
  ∀ ⦃t t' : Table⦄, t.Like m t' → ∀ name, Joined.Found m (tree.child? t name) (tree'.child? t' name)

/-- Two scopes of which the second finds what the first does. -/
structure Scope.FoundIn (m : Comparison) (s s' : Scope) : Prop where
  tree : s.tree.FoundIn m s'.tree
  table : s.table.Like m s'.table
  checked : s.checked = s'.checked
  minded : s.checked = true → m.minded

theorem Access.Like.refl (a : Access) : a.Like m a :=
  ⟨rfl, rfl, fun _ _ => .inl rfl⟩

theorem Catalog.Like.refl (catalog : Catalog) : catalog.Like m catalog :=
  ⟨rfl, fun _ => .refl Access.Like.refl _⟩

theorem Table.Like.refl (t : Table) : t.Like m t :=
  ⟨rfl, .refl _, .refl _, rfl⟩

theorem Link.Like.refl (l : Link) : l.Like m l :=
  ⟨rfl, rfl, .refl _, rfl⟩

theorem JoinTree.Like.refl (hm : m.minded) {placed : Prop} (tree : JoinTree) :
    tree.Like m placed tree :=
  ⟨.refl _, List.forall₂_same.2 fun _ _ => ⟨.refl _, .refl _, rfl, rfl, fun _ => hm⟩, fun _ => rfl⟩

theorem Scope.Like.refl (hm : m.minded) (s : Scope) : s.Like m s :=
  ⟨.refl hm _, .refl _, rfl, fun _ => hm⟩

/-! ## Seeing a model -/

namespace Access.Like

variable {a a' : Access}

theorem field (h : a.Like m a') {checked : Bool} (hm : checked = true → m.minded) (name : String) :
    m.Settles Eq (a.field name checked) (a'.field name checked) := by
  rw [Access.field, Access.field, h.model]
  cases a'.model.field? name with
  | none => exact .error _
  | some f =>
    cases checked with
    | false => exact .ok rfl
    | true =>
      simp only [Bool.true_and]
      rcases h.permits (hm rfl) name with hsame | ⟨hrefuses, hnot⟩
      · rw [hsame]
        exact .refl (fun _ => rfl) _
      · rw [hnot]
        exact .cut (hrefuses _ _)

theorem enforced? (h : a.Like m a') (ignoreDeleted : Bool) :
    a.enforced? ignoreDeleted = a'.enforced? ignoreDeleted := by
  rw [Access.enforced?, Access.enforced?, h.model, h.rows]

end Access.Like

theorem Catalog.Like.dialect {catalog catalog' : Catalog} (h : catalog.Like m catalog') :
    catalog.dialect = catalog'.dialect := by
  rw [Catalog.dialect, Catalog.dialect, h.settings]

theorem Catalog.Like.target {catalog catalog' : Catalog} (h : catalog.Like m catalog') (owner : Model)
    (field : String) (r : Relation) :
    m.Settles (Access.Like m) (catalog.target owner field r) (catalog'.target owner field r) := by
  rw [Catalog.target, Catalog.target]
  have haccess := h.access r.target
  generalize catalog.access r.target = x at haccess
  generalize catalog'.access r.target = x' at haccess
  cases haccess with
  | ok ha => exact .ok ha
  | error e => exact .error _

/-! ## Comparing numbers or not -/

section

variable {m' : Comparison}

theorem Access.Like.imp {a a' : Access} (h : a.Like m a') (hm : m.Implies m') : a.Like m' a' :=
  ⟨h.model, h.rows, fun hminded name =>
    (h.permits (hm.minded.2 hminded) name).imp_right fun hnot => ⟨hm.refuses hnot.1, hnot.2⟩⟩

theorem Table.Like.imp {t t' : Table} (h : t.Like m t') (hm : m.Implies m') : t.Like m' t' :=
  ⟨h.path, fun hsame => h.number (hm.same hsame), h.access.imp hm, h.ignoreDeleted⟩

theorem Link.Like.imp {l l' : Link} (h : l.Like m l') (hm : m.Implies m') : l.Like m' l' :=
  ⟨h.name, h.relation, fun hsame => h.parentNumber (hm.same hsame), h.parentModel⟩

theorem JoinTree.Like.imp {placed : Prop} {tree tree' : JoinTree} (h : tree.Like m placed tree')
    (hm : m.Implies m') : tree.Like m' placed tree' := by
  refine ⟨h.root.imp hm, h.joined.imp fun _ _ hj => ?_, h.place⟩
  exact ⟨hj.table.imp hm, hj.link.imp hm, hj.type, hj.condition,
    fun hasked => hm.minded.1 (hj.minded hasked)⟩

theorem Scope.Like.imp {s s' : Scope} (h : s.Like m s') (hm : m.Implies m') : s.Like m' s' :=
  ⟨h.tree.imp hm, h.table.imp hm, h.checked, fun hchecked => hm.minded.1 (h.minded hchecked)⟩

end

theorem Table.Like.choose {t t' : Table} (h : t.Like m t')
    (choices choices' : List (String × Choice)) : (t.choose choices).Like m (t'.choose choices') :=
  ⟨h.path, h.number, h.access, h.ignoreDeleted⟩

namespace JoinTree

variable {placed : Prop} {tree tree' : JoinTree} {t t' : Table} {catalog catalog' : Catalog}
  {checked wildcard : Bool}

theorem Like.tables (h : tree.Like m placed tree') :
    List.Forall₂ (Table.Like m) tree.tables tree'.tables := by
  refine .cons h.root ?_
  rw [List.forall₂_map_left_iff, List.forall₂_map_right_iff]
  exact h.joined.imp fun _ _ hj => hj.table

theorem Like.child? (h : tree.Like m placed tree') (ht : t.Like m t') (name : String) :
    Option.Rel (Joined.Like m) (tree.child? t name) (tree'.child? t' name) := by
  rw [JoinTree.child?, JoinTree.child?, ht.path]
  have hjoined := h.joined
  generalize tree.joined = js at hjoined
  generalize tree'.joined = js' at hjoined
  induction hjoined with
  | nil => exact .none
  | @cons j j' js js' hj _ ih =>
    rw [List.find?_cons, List.find?_cons, hj.table.path]
    cases j'.path == t'.path ++ [name] with
    | true => exact .some hj
    | false => exact ih

theorem placeBelow_like {parent : TablePath} {j j' : Joined} {ks ks' : List Joined}
    (hj : j.Like m j') (hks : List.Forall₂ (Joined.Like m) ks ks') :
    List.Forall₂ (Joined.Like m) (placeBelow parent j ks) (placeBelow parent j' ks') := by
  have hany : ∀ {ks ks' : List Joined}, List.Forall₂ (Joined.Like m) ks ks' →
      (ks.any fun x => parent.isPrefixOf x.path) = ks'.any fun x => parent.isPrefixOf x.path := by
    intro ks ks' hks
    induction hks with
    | nil => rfl
    | cons hk _ ih => rw [List.any_cons, List.any_cons, ih, hk.table.path]
  induction hks with
  | nil => exact .cons hj .nil
  | cons hk hks ih =>
    rw [placeBelow, placeBelow, hany (.cons hk hks)]
    split
    · exact .cons hk ih
    · exact .cons hj (.cons hk hks)

theorem Like.inOrder (h : tree.Like m placed tree') :
    List.Forall₂ (Joined.Like m) tree.inOrder tree'.inOrder := by
  have hfold : ∀ {js js' order order' : List Joined}, List.Forall₂ (Joined.Like m) js js' →
      List.Forall₂ (Joined.Like m) order order' → List.Forall₂ (Joined.Like m)
        (js.foldl (fun order j => placeBelow j.path.dropLast j order) order)
        (js'.foldl (fun order j => placeBelow j.path.dropLast j order) order') := by
    intro js js' order order' hjs
    induction hjs generalizing order order' with
    | nil => exact fun horder => horder
    | cons hj _ ih =>
      intro horder
      rw [List.foldl_cons, List.foldl_cons, hj.table.path]
      exact ih (placeBelow_like hj horder)
  exact hfold h.joined .nil

/-! ## Changes of tables -/

theorem Like.mapTables {f g : Table → Table} (h : tree.Like m placed tree')
    (hf : ∀ t t', t.Like m t' → (f t).Like m (g t')) :
    (tree.mapTables f).Like m placed (tree'.mapTables g) := by
  refine ⟨hf _ _ h.root, ?_, h.place⟩
  rw [JoinTree.mapTables, JoinTree.mapTables, List.forall₂_map_left_iff, List.forall₂_map_right_iff]
  exact h.joined.imp fun j j' hj => ⟨hf _ _ hj.table, hj.link, hj.type, hj.condition, hj.minded⟩

theorem Like.applyJoin (h : tree.Like m placed tree') (hm : m.minded) (path : TablePath)
    (join : Join) : (tree.applyJoin path join).Like m placed (tree'.applyJoin path join) := by
  refine ⟨h.root, ?_, h.place⟩
  rw [JoinTree.applyJoin, JoinTree.applyJoin, List.forall₂_map_left_iff,
    List.forall₂_map_right_iff]
  refine h.joined.imp fun j j' hj => ?_
  rw [hj.table.path]
  split
  · exact ⟨⟨rfl, hj.table.number, hj.table.access, rfl⟩, hj.link, rfl, rfl, fun _ => hm⟩
  · exact hj

/-! ## Making a tree -/

open Build

theorem single_matches {access access' : Access} (h : access.Like m access') :
    Matches m (Like m placed) (single access) (single access') :=
  Matches.freshNumber.bind fun _ _ _ _ _ hn => .pure ⟨⟨rfl, hn, h, rfl⟩, .nil, fun _ => rfl⟩

theorem join_matches (hcat : catalog.Like m catalog') (h : tree.Like m placed tree')
    (ht : t.Like m t') (name : String) (r : Relation) :
    Matches m (fun x y => x.1.Like m placed y.1 ∧ x.2.Like m y.2) (tree.join catalog t name r)
      (tree'.join catalog' t' name r) := by
  rw [join, join]
  have hchild := h.child? ht name
  generalize tree.child? t name = c at hchild
  generalize tree'.child? t' name = c' at hchild
  cases hchild with
  | some hj => exact .pure ⟨h, hj⟩
  | none =>
    rw [← ht.access.model]
    refine (Matches.ofExcept (hcat.target _ _ _)).bind fun access access' _ _ _ haccess => ?_
    refine Matches.freshNumber.bind fun n n' _ _ _ hn => ?_
    rw [← haccess.model]
    refine (Matches.report _).bind fun _ _ _ _ _ _ => .pure ?_
    have hj : Joined.Like m
        { path := t.path ++ [name], number := n, access, link := ⟨name, r, t.number, t.access.model⟩ }
        { path := t'.path ++ [name], number := n', access := access'
          link := ⟨name, r, t'.number, t.access.model⟩ } :=
      ⟨⟨by rw [ht.path], hn, haccess, rfl⟩, ⟨rfl, rfl, ht.number, rfl⟩, rfl, rfl,
        fun hasked => absurd rfl hasked⟩
    exact ⟨⟨h.root, List.rel_append h.joined (.cons hj .nil), h.place⟩, hj⟩

theorem reachFrom_matches (hcat : catalog.Like m catalog') (hc : checked = true → m.minded)
    {path segment : String} {rest : List String} (h : tree.Like m placed tree') (ht : t.Like m t') :
    Matches m (fun x y => x.1.Like m placed y.1 ∧ x.2.1.Like m y.2.1 ∧ x.2.2 = y.2.2)
      (reachFrom catalog path checked wildcard rest tree t segment)
      (reachFrom catalog' path checked wildcard rest tree' t' segment) := by
  induction rest generalizing tree tree' t t' segment with
  | nil =>
    rw [reachFrom, reachFrom, ← ht.access.model]
    split
    · split
      · exact .pure ⟨h, ht, rfl⟩
      · exact .reject _
    refine (Matches.ofExcept (ht.access.field hc segment)).bind ?_
    rintro f _ _ _ _ rfl
    split
    · exact (join_matches hcat h ht _ _).bind fun _ _ _ _ _ hj => .pure ⟨hj.1, hj.2.table, rfl⟩
    · exact .pure ⟨h, ht, rfl⟩
  | cons next rest ih =>
    rw [reachFrom, reachFrom, ← ht.access.model]
    split
    · exact .reject _
    refine (Matches.ofExcept (ht.access.field hc segment)).bind ?_
    rintro f _ _ _ _ rfl
    split
    · exact .reject _
    · split
      · split
        · exact .pure ⟨h, ht, rfl⟩
        · split
          · exact .pure ⟨h, ht, rfl⟩
          · exact .reject _
      · exact .reject _
    · exact (join_matches hcat h ht _ _).bind fun _ _ _ _ _ hj => ih hj.1 hj.2.table

theorem addPaths_matches (hcat : catalog.Like m catalog') {paths : List String}
    (hc : paths ≠ [] → checked = true → m.minded) (h : tree.Like m placed tree') (ht : t.Like m t') :
    Matches m (Like m placed) (tree.addPaths catalog t paths checked)
      (tree'.addPaths catalog' t' paths checked) := by
  by_cases hnone : paths = []
  · rw [hnone]
    exact .pure h
  refine Matches.foldlM (S := Eq) (List.forall₂_same.2 fun _ _ => rfl) h ?_
  rintro tree tree' path _ _ h rfl
  exact (reachFrom_matches hcat (hc hnone) h ht).bind fun _ _ _ _ _ hreach => .pure hreach.1

/-- An explicit join that is not refused. -/
def addAllowed (catalog : Catalog) (tree : JoinTree) (join : Join) : Build JoinTree := do
  let (mid, t, target) ← tree.reach catalog tree.root join.path true false
  if target.isRelation then
    (mid.applyJoin t.path join).addPaths catalog t
      ((join.condition.map Condition.joinPaths).getD []) true
  else Build.reject (.join tree.root.access.model.name join.path .notRelation)

theorem addJoin_eq (tree : JoinTree) (join : Join) :
    tree.addJoin catalog join =
      match tree.place, join.type.keepsJoined with
      | some place, true =>
        Build.reject (.join tree.root.access.model.name join.path (.keepsJoined join.type place))
      | _, _ => tree.addAllowed catalog join := by
  rw [addJoin]
  cases tree.place <;> cases join.type.keepsJoined <;> rfl

theorem addAllowed_matches (hcat : catalog.Like m catalog') (hm : m.minded) {join : Join}
    (h : tree.Like m placed tree') :
    Matches m (Like m placed) (tree.addAllowed catalog join) (tree'.addAllowed catalog' join) := by
  refine (reachFrom_matches hcat (fun _ => hm) h h.root).bind ?_
  rintro ⟨mid, t, target⟩ ⟨mid', t', _⟩ _ _ _ ⟨hmid, ht, rfl⟩
  simp only
  rw [h.root.access.model, ht.path]
  split
  · exact addPaths_matches hcat (fun _ _ => hm) (hmid.applyJoin hm _ _) ht
  · exact .reject _

theorem addJoin_matches (hcat : catalog.Like m catalog') (hm : m.minded) {join : Join}
    (h : tree.Like m placed tree') (hjoin : placed ∨ join.type.keepsJoined = false) :
    Matches m (Like m placed) (tree.addJoin catalog join) (tree'.addJoin catalog' join) := by
  rw [addJoin_eq, addJoin_eq]
  rcases hjoin with hplaced | hkeeps
  · rw [h.place hplaced, h.root.access.model]
    split
    · exact .reject _
    · exact addAllowed_matches hcat hm h
  · rw [hkeeps]
    cases tree.place <;> cases tree'.place <;> exact addAllowed_matches hcat hm h

theorem addJoins_matches (hcat : catalog.Like m catalog') {joins : List Join}
    (hm : joins ≠ [] → m.minded) (h : tree.Like m placed tree')
    (hjoins : placed ∨ ∀ join ∈ joins, join.type.keepsJoined = false) :
    Matches m (Like m placed) (tree.addJoins catalog joins) (tree'.addJoins catalog' joins) := by
  refine Matches.foldlM (S := Eq) (List.forall₂_same.2 fun _ _ => rfl) h ?_
  rintro tree tree' join _ hmem h rfl
  have hmem : join ∈ joins := (Keyed.sortBy_perm JoinOf.path joins).subset hmem
  exact addJoin_matches hcat (hm (List.ne_nil_of_mem hmem)) h
    (hjoins.imp_right fun hkeeps => hkeeps join hmem)

theorem addEnforcedPaths_matches (hcat : catalog.Like m catalog') (h : tree.Like m placed tree') :
    Matches m (Like m placed) (tree.addEnforcedPaths catalog) (tree'.addEnforcedPaths catalog') := by
  refine Matches.foldlM h.tables h fun tree tree' t t' _ h ht => ?_
  simp only
  rw [ht.access.enforced?, ht.ignoreDeleted]
  exact addPaths_matches hcat (fun _ => nofun) h ht

/-! ## Selection -/

theorem selectPaths_matches (hcat : catalog.Like m catalog') (hm : m.minded) {paths : List String}
    (h : tree.Like m placed tree') :
    Matches m (fun x y => x.1.Like m placed y.1 ∧ x.2 = y.2) (selectPaths catalog paths tree)
      (selectPaths catalog' paths tree') := by
  induction paths generalizing tree tree' with
  | nil => exact .pure ⟨h, rfl⟩
  | cons path paths ih =>
    rw [selectPaths, selectPaths]
    refine (reachFrom_matches hcat (fun _ => hm) h h.root).bind ?_
    rintro ⟨mid, t, target⟩ ⟨mid', t', _⟩ _ _ _ ⟨hmid, ht, rfl⟩
    simp only
    rw [ht.path]
    have hchosen : (mid.mapTable t'.path fun table => table.choose (choicesOf table target)).Like m placed
        (mid'.mapTable t'.path fun table => table.choose (choicesOf table target)) := by
      refine hmid.mapTables fun u u' hu => ?_
      rw [hu.path]
      split
      · exact hu.choose _ _
      · exact hu
    exact (ih hchosen).bind fun _ _ _ _ _ hrest => .pure ⟨hrest.1, by rw [hrest.2]⟩

theorem select_matches (hcat : catalog.Like m catalog') (hm : m.minded)
    {paths : Option (List String)} (h : tree.Like m placed tree') :
    Matches m (Like m placed) (tree.select catalog paths) (tree'.select catalog' paths) := by
  cases paths with
  | none => exact .pure (h.mapTables fun _ _ ht => ht.choose _ _)
  | some paths =>
    refine (selectPaths_matches hcat hm h).bind ?_
    rintro ⟨mid, touched⟩ ⟨mid', _⟩ _ _ _ ⟨hmid, rfl⟩
    refine .pure (hmid.mapTables fun u u' hu => ?_)
    rw [hu.path]
    split
    · exact hu.choose _ _
    · exact hu

end JoinTree

/-! ## Lookups -/

namespace JoinTree

variable {placed : Prop} {tree tree' : JoinTree} {t t' : Table} {checked : Bool}

theorem Like.foundIn (h : tree.Like m placed tree') : tree.FoundIn m tree' := by
  intro t t' ht name
  have hchild := h.child? ht name
  generalize tree.child? t name = c at hchild
  generalize tree'.child? t' name = c' at hchild
  cases hchild with
  | some hj => exact .found hj
  | none => exact .missing

theorem findFrom_matches (hc : checked = true → m.minded) {path segment : String}
    {rest : List String} (h : tree.FoundIn m tree') (ht : t.Like m t') :
    m.Settles (fun x y => x.1.Like m y.1 ∧ x.2 = y.2) (tree.findFrom path checked rest t segment)
      (tree'.findFrom path checked rest t' segment) := by
  induction rest generalizing t t' segment with
  | nil =>
    rw [findFrom, findFrom, ← ht.access.model]
    refine (ht.access.field hc segment).bind ?_
    rintro f _ _ rfl
    have hchild := h ht segment
    generalize tree.child? t segment = c at hchild
    generalize tree'.child? t' segment = c' at hchild
    split
    · cases hchild with
      | found hj => exact .ok ⟨hj.table, rfl⟩
      | missing => exact .error _
      | cut hcut => exact .cut (hcut _ _)
    · exact .ok ⟨ht, rfl⟩
  | cons next rest ih =>
    rw [findFrom, findFrom, ← ht.access.model]
    refine (ht.access.field hc segment).bind ?_
    rintro f _ _ rfl
    have hchild := h ht segment
    generalize tree.child? t segment = c at hchild
    generalize tree'.child? t' segment = c' at hchild
    split
    · exact .error _
    · split
      · split
        · exact .ok ⟨ht, rfl⟩
        · exact .error _
      · exact .error _
    · cases hchild with
      | found hj => exact ih hj.table
      | missing => exact .error _
      | cut hcut => exact .cut (hcut _ _)

theorem find_matches (hc : checked = true → m.minded) {path : String}
    (h : tree.FoundIn m tree') (ht : t.Like m t') :
    m.Settles (fun x y => x.1.Like m y.1 ∧ x.2 = y.2) (tree.find t path checked)
      (tree'.find t' path checked) :=
  findFrom_matches hc h ht

end JoinTree

namespace Scope

variable {s s' : Scope} {path : String}

theorem Like.foundIn (h : s.Like m s') : s.FoundIn m s' :=
  ⟨h.tree.foundIn, h.table, h.checked, h.minded⟩

theorem FoundIn.column (h : s.FoundIn m s') : m.Settles m.Same (s.column path) (s'.column path) := by
  rw [Scope.column, Scope.column, ← h.checked]
  refine (JoinTree.find_matches h.minded h.tree h.table).bind ?_
  rintro ⟨t, found⟩ ⟨t', _⟩ - ⟨ht, rfl⟩
  simp only
  rw [ht.access.model, h.table.access.model]
  split
  · split
    · exact .ok (ht.number.congr fun n => (⟨.table n, _⟩ : Column))
    · exact .error _
    · exact .error _
  · exact .ok (ht.number.congr fun n => (⟨.table n, _⟩ : Column))

theorem FoundIn.link (h : s.FoundIn m s') : m.Settles (Link.Like m) (s.link path) (s'.link path) := by
  have howner : m.Settles (fun x y => x.1.Like m y.1 ∧ x.2 = y.2) (s.owner path)
      (s'.owner path) := by
    rw [owner, owner, ← h.checked]
    split
    · exact .ok ⟨h.table, rfl⟩
    · refine (JoinTree.find_matches h.minded h.tree h.table).bind ?_
      rintro ⟨t, found⟩ ⟨t', _⟩ - ⟨ht, rfl⟩
      simp only
      rw [h.table.access.model]
      split
      · exact .ok ⟨ht, rfl⟩
      · exact .error _
  rw [Scope.link, Scope.link, ← h.checked]
  refine howner.bind ?_
  rintro ⟨t, name⟩ ⟨t', _⟩ - ⟨ht, rfl⟩
  simp only
  rw [← ht.access.model]
  refine (ht.access.field h.minded name).bind ?_
  rintro f _ _ rfl
  split
  · exact .ok ⟨rfl, rfl, ht.number, rfl⟩
  · exact .error _

theorem column_matches (h : s.Like m s') : m.Settles m.Same (s.column path) (s'.column path) :=
  h.foundIn.column

theorem link_matches (h : s.Like m s') : m.Settles (Link.Like m) (s.link path) (s'.link path) :=
  h.foundIn.link

end Scope

theorem Link.equalities_matches {l l' : Link} {t t' : Table} (hl : l.Like m l')
    (ht : t.Like m t') : m.Settles m.Same (l.equalities t) (l'.equalities t') := by
  have hfields : l.fields t.access.model = l'.fields t'.access.model := by
    rw [Link.fields, Link.fields, hl.relation, hl.parentModel, ht.access.model]
  rw [Link.equalities, Link.equalities, hfields, ht.access.model, hl.parentModel, hl.name]
  refine (Comparison.Settles.refl Eq.refl _).bind ?_
  rintro ⟨childFields, parentFields⟩ _ _ rfl
  simp only
  split
  · exact .error _
  · exact .ok (ht.number.congr₂ (fun n n' => (childFields.zip parentFields).map fun p =>
      (⟨⟨.table n, p.1.column⟩, ⟨.table n', p.2.column⟩⟩ : Equality)) hl.parentNumber)

end QueryCompiler
