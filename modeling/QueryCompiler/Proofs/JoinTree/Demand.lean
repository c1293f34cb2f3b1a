import QueryCompiler.Proofs.JoinTree.Reach
import QueryCompiler.Compile.Tables

/-!
# The join tree of a query

A query's join tree is made in steps that mind the caller's permissions, and then extended by what
its tables are held to. `Sound` is what the steps leave behind: every table stands where its path
leads, only permitted fields of permitted tables are chosen, and every join's condition is that of an
explicit join to its table.
-/

namespace QueryCompiler

namespace JoinTree

open Build

variable {catalog : Catalog} {checked : Bool} {joins : List Join} {x y : JoinTree × Nat}
  {tree tree' : JoinTree} {t t' : Table} {p p' : Progress}

/-! ## Explicit joins -/

theorem addJoin_parts {join : Join} (h : (tree.addJoin catalog join).run p = .ok tree' p') :
    ∃ tree₁ t target q, (tree.reach catalog tree.root join.path true false).run p =
        .ok (tree₁, t, target) q ∧ target.isRelation = true ∧
      ((tree₁.applyJoin t.path join).addPaths catalog t
        ((join.condition.map Condition.joinPaths).getD []) true).run q = .ok tree' p' := by
  rw [addJoin] at h
  cases hplace : tree.place with
  | none =>
    simp only [hplace] at h
    obtain ⟨⟨tree₁, t, target⟩, q, hreach, h⟩ := run_bind_eq_ok.1 h
    split at h
    case isTrue htarget => exact ⟨tree₁, t, target, q, hreach, htarget, h⟩
    · exact absurd h run_reject_ne_ok
  | some place =>
    simp only [hplace] at h
    split at h
    · exact absurd h nofun
    obtain ⟨⟨tree₁, t, target⟩, q, hreach, h⟩ := run_bind_eq_ok.1 h
    split at h
    case isTrue htarget => exact ⟨tree₁, t, target, q, hreach, htarget, h⟩
    · exact absurd h run_reject_ne_ok

/-- An explicit join reaches its table, is applied to it, and adds what its condition names. -/
theorem addJoin_reached {join : Join} (hroot : tree.root.path = []) (hw : tree.Walked catalog true)
    (h : (tree.addJoin catalog join).run p = .ok tree' p') :
    ∃ tree₁ t q, Extends catalog true (tree, p.nextNumber) (tree₁, q.nextNumber) ∧ tree₁.Has t ∧
      t.path = Path.all join.path ∧ (tree₁.applyJoin t.path join).Walked catalog true ∧
      (tree₁.applyJoin t.path join).Has t ∧
      ((tree₁.applyJoin t.path join).addPaths catalog t
        ((join.condition.map Condition.joinPaths).getD []) true).run q = .ok tree' p' := by
  obtain ⟨tree₁, t, target, q, hreach, htarget, h⟩ := addJoin_parts h
  obtain ⟨hext, hhas, hleads, -⟩ := reach_eq_ok hw.unchecked .root hreach
  have hcores := cores_applyJoin tree₁ t.path join
  refine ⟨tree₁, t, q, hext, hhas, ?_, ?_, ?_, h⟩
  · rw [(hleads.of_relation htarget).1, hroot, List.nil_append]
  · exact Walked.of_cores_eq (x := (tree₁, 0)) (y := (_, 0)) hcores.symm (hext.walked hw)
  · rw [Has, hcores]
    exact hhas

theorem addJoin_eq_ok {join : Join} (hroot : tree.root.path = []) (hmem : join ∈ joins)
    (hw : tree.Walked catalog true) (h : (tree.addJoin catalog join).run p = .ok tree' p') :
    Steps catalog joins (tree, p.nextNumber) (tree', p'.nextNumber) ∧
      ∃ t, tree'.Has t ∧ t.path = Path.all join.path := by
  obtain ⟨tree₁, t, q, hext, hhas, hpath, hw₁, hhas₁, h⟩ := addJoin_reached hroot hw h
  have hsteps : Steps catalog joins (tree, p.nextNumber)
      (tree₁.applyJoin t.path join, q.nextNumber) :=
    hext.steps.tail (.apply hmem hhas hpath)
  obtain ⟨hext', -⟩ := addPaths_eq_ok hw₁.unchecked hhas₁ h
  exact ⟨hsteps.trans hext'.steps, t, hhas₁.mono hext'.cores_prefix, hpath⟩

/-- What holds before the first explicit join, and is carried by each join over to one more, holds after
all of them. All the while the root keeps its path, and the caller may name what has been joined. -/
theorem addJoins_induct {P : List Join → JoinTree → Progress → Prop} (hroot : tree.root.path = [])
    (hw : tree.Walked catalog true) (hnil : P [] tree p)
    (hstep : ∀ {done : List Join} {join : Join} {mid mid' : JoinTree} {q r : Progress}, join ∈ joins →
      mid.root.path = [] → mid.Walked catalog true → P done mid q →
      (mid.addJoin catalog join).run q = .ok mid' r → P (done ++ [join]) mid' r)
    (h : (tree.addJoins catalog joins).run p = .ok tree' p') :
    P (Keyed.sortBy JoinOf.path joins) tree' p' := by
  refine (run_foldlM_induct (P := fun done mid q =>
    (mid.root.path = [] ∧ mid.Walked catalog true) ∧ P done mid q) ⟨⟨hroot, hw⟩, hnil⟩ ?_ h).2
  rintro done join mid mid' q r hjoin ⟨⟨hroot, hw⟩, hdone⟩ hrun
  have hjoin : join ∈ joins := (Keyed.sortBy_perm JoinOf.path joins).subset hjoin
  have hsteps : Steps catalog joins (mid, q.nextNumber) (mid', r.nextNumber) :=
    (addJoin_eq_ok hroot hjoin hw hrun).1
  have hroot' : mid'.root.path = [] := (root_path hsteps.cores_prefix).trans hroot
  exact ⟨⟨hroot', hsteps.walked hw⟩, hstep hjoin hroot hw hdone hrun⟩

theorem addJoins_eq_ok (hroot : tree.root.path = []) (hw : tree.Walked catalog true)
    (h : (tree.addJoins catalog joins).run p = .ok tree' p') :
    Steps catalog joins (tree, p.nextNumber) (tree', p'.nextNumber) ∧
      ∀ join ∈ joins, ∃ t, tree'.Has t ∧ t.path = Path.all join.path := by
  have hall : Steps catalog joins (tree, p.nextNumber) (tree', p'.nextNumber) ∧
      ∀ join ∈ Keyed.sortBy JoinOf.path joins, ∃ t, tree'.Has t ∧ t.path = Path.all join.path := by
    refine addJoins_induct (P := fun done mid q =>
      Steps catalog joins (tree, p.nextNumber) (mid, q.nextNumber) ∧
        ∀ join ∈ done, ∃ t, mid.Has t ∧ t.path = Path.all join.path) hroot hw ⟨.refl, nofun⟩ ?_ h
    rintro done join mid mid' q r hjoin hroot hw ⟨hsteps, hdone⟩ hrun
    obtain ⟨hstep, hthere⟩ := addJoin_eq_ok hroot hjoin hw hrun
    refine ⟨hsteps.trans hstep, fun join' hjoin' => ?_⟩
    rcases List.mem_append.1 hjoin' with hjoin' | hjoin'
    · obtain ⟨t, ht, hpath⟩ := hdone join' hjoin'
      exact ⟨t, ht.mono hstep.cores_prefix, hpath⟩
    · exact List.mem_singleton.1 hjoin' ▸ hthere
  exact hall.imp_right fun hall join hjoin =>
    hall join ((Keyed.sortBy_perm JoinOf.path joins).symm.subset hjoin)

/-! ## Selection -/

theorem Walked.access_eq (hw : tree.Walked catalog checked) (ht : tree.Has t) (ht' : tree.Has t')
    (hpath : t.path = t'.path) : t.access = t'.access := by
  have h := hw t ht
  rw [hpath, hw t' ht'] at h
  exact (Option.some.inj h).symm

theorem permits_defaultChoices (t : Table) :
    ∀ c ∈ t.defaultChoices, t.access.permits c.1 = true := by
  intro c hc
  obtain ⟨f, hf, rfl⟩ := List.mem_map.1 hc
  exact (List.mem_filter.1 (List.mem_filter.1 hf).1).2

theorem permits_keyChoices (t : Table) : ∀ c ∈ t.keyChoices, t.access.permits c.1 = true := by
  intro c hc
  obtain ⟨name, hname, rfl⟩ := List.mem_map.1 hc
  rw [Access.permits, Model.isKey, List.contains_iff_mem.2 hname, Bool.true_or]

/-- What a path chooses that has been followed with the caller's permissions in mind. -/
theorem permits_choicesOf {target : Target} {last : List String}
    (h : Ends t.access true last target) : ∀ c ∈ choicesOf t target, t.access.permits c.1 = true := by
  have hfield : ∀ {name : String} {f : Field}, t.access.field name true = .ok f →
      t.access.permits f.name = true := by
    intro name f hf
    rw [(Access.name_of_field hf).1]
    exact (Access.field_eq_ok.1 hf).2 rfl
  intro c hc
  cases h with
  | @relation f hf =>
    obtain ⟨r, hk⟩ := Field.isRelation_iff.1 hf
    simp only [choicesOf, hk] at hc
    exact permits_defaultChoices t c hc
  | @field name f hf hrelation =>
    cases hk : f.kind with
    | relation r => exact absurd (Field.isRelation_iff.2 ⟨r, hk⟩) (Bool.eq_false_iff.1 hrelation)
    | basic b =>
      simp only [choicesOf, hk, List.mem_singleton] at hc
      exact hc ▸ hfield hf
    | group g =>
      simp only [choicesOf, hk, List.mem_singleton] at hc
      exact hc ▸ hfield hf
  | member hf _ _ =>
    simp only [choicesOf, List.mem_singleton] at hc
    exact hc ▸ hfield hf
  | wildcard => exact permits_defaultChoices t c hc
  | groupWildcard hf _ =>
    simp only [choicesOf, List.mem_singleton] at hc
    exact hc ▸ hfield hf

theorem mapTable_choose (path : TablePath) (choices : Table → List (String × Choice)) :
    tree.mapTable path (fun t => t.choose (choices t)) =
      tree.mapTables fun t => t.choose (if t.path = path then choices t else []) := by
  rw [mapTable]
  congr 1
  funext t
  split
  · rfl
  · simp [Table.choose]

theorem selectKeys_eq (tree : JoinTree) (touched : List TablePath) :
    tree.selectKeys touched = tree.mapTables fun t =>
      t.choose (if touched.any (fun p => t.path.isPrefixOf p) then t.keyChoices else []) := by
  rw [selectKeys]
  congr 1
  funext t
  split
  · rfl
  · simp [Table.choose]

theorem selectPaths_cons_eq_ok {path : String} {paths : List String} {touched : List TablePath}
    (h : (selectPaths catalog (path :: paths) tree).run p = .ok (tree', touched) p') :
    ∃ tree₁ t target q rest,
      (tree.reach catalog tree.root path true true).run p = .ok (tree₁, t, target) q ∧
      (selectPaths catalog paths (tree₁.mapTable t.path fun table =>
        table.choose (choicesOf table target))).run q = .ok (tree', rest) p' ∧
      touched = t.path :: rest := by
  rw [selectPaths] at h
  obtain ⟨⟨tree₁, t, target⟩, q, hreach, h⟩ := run_bind_eq_ok.1 h
  obtain ⟨⟨tree₂, rest⟩, q', hrest, h⟩ := run_bind_eq_ok.1 h
  obtain ⟨heq, rfl⟩ := run_pure_eq_ok.1 h
  obtain ⟨rfl, rfl⟩ := Prod.mk.inj heq
  exact ⟨tree₁, t, target, q, rest, hreach, hrest, rfl⟩

theorem select_some_eq_ok {paths : List String}
    (h : (tree.select catalog (some paths)).run p = .ok tree' p') :
    ∃ mid touched, (selectPaths catalog paths tree).run p = .ok (mid, touched) p' ∧
      mid.selectKeys ([] :: touched) = tree' := by
  obtain ⟨⟨mid, touched⟩, q, hpaths, h⟩ := run_bind_eq_ok.1 h
  obtain ⟨heq, rfl⟩ := run_pure_eq_ok.1 h
  exact ⟨mid, touched, hpaths, heq⟩

theorem selectPaths_eq_ok {paths : List String} {touched : List TablePath}
    (hw : tree.Walked catalog true)
    (h : (selectPaths catalog paths tree).run p = .ok (tree', touched) p') :
    Steps catalog joins (tree, p.nextNumber) (tree', p'.nextNumber) := by
  induction paths generalizing tree p touched with
  | nil =>
    obtain ⟨heq, rfl⟩ := run_pure_eq_ok.1 h
    cases heq
    exact .refl
  | cons path paths ih =>
    obtain ⟨tree₁, t, target, q, rest, hreach, hrest, rfl⟩ := selectPaths_cons_eq_ok h
    obtain ⟨hext, hhas, ⟨hops, last, -, -, -, hends⟩, -⟩ := reach_eq_ok hw.unchecked .root hreach
    have hw₁ := hext.walked hw
    rw [mapTable_choose] at hrest
    have hchoose : Step catalog joins (tree₁, q.nextNumber) (tree₁.mapTables fun table =>
        table.choose (if table.path = t.path then choicesOf table target else []), q.nextNumber) := by
      refine .choose (fun table => if table.path = t.path then choicesOf table target else [])
        fun table htable c hc => ?_
      split at hc
      case isTrue hpath =>
        have haccess : table.access = t.access := hw₁.access_eq htable hhas hpath
        exact permits_choicesOf (haccess ▸ hends) c hc
      · exact absurd hc List.not_mem_nil
    have hsteps : Steps catalog joins (tree, p.nextNumber) (_, q.nextNumber) :=
      hext.steps.tail hchoose
    exact hsteps.trans (ih (hsteps.walked hw) hrest)

theorem select_eq_ok {paths : Option (List String)} (hw : tree.Walked catalog true)
    (h : (tree.select catalog paths).run p = .ok tree' p') :
    Steps catalog joins (tree, p.nextNumber) (tree', p'.nextNumber) := by
  cases paths with
  | none =>
    obtain ⟨rfl, rfl⟩ := run_pure_eq_ok.1 h
    exact .single (.choose Table.defaultChoices fun t _ => permits_defaultChoices t)
  | some paths =>
    obtain ⟨mid, touched, hpaths, rfl⟩ := select_some_eq_ok h
    refine (selectPaths_eq_ok hw hpaths).tail ?_
    rw [selectKeys_eq]
    refine .choose (fun t => if ([] :: touched).any (fun p => t.path.isPrefixOf p)
      then t.keyChoices else []) fun t _ c hc => ?_
    split at hc
    · exact permits_keyChoices t c hc
    · exact absurd hc List.not_mem_nil

/-! ## What is enforced -/

/-- The path leads to or past the table in what another table is held to. -/
def EnforcedFrom (owner : Table) (path : TablePath) : Prop :=
  ∃ c ∈ owner.access.enforced? owner.ignoreDeleted, ∃ name ∈ c.joinPaths,
    path <+: owner.path ++ Path.all name

theorem addEnforcedPaths_eq_ok (hw : tree.Walked catalog false)
    (h : (tree.addEnforcedPaths catalog).run p = .ok tree' p') :
    Extends catalog false (tree, p.nextNumber) (tree', p'.nextNumber) ∧
      ∀ x, tree'.Has x → tree.Has x ∨ ∃ owner ∈ tree.tables, EnforcedFrom owner x.path := by
  refine run_foldlM_induct (P := fun _ mid q =>
    Extends catalog false (tree, p.nextNumber) (mid, q.nextNumber) ∧
      ∀ x, mid.Has x → tree.Has x ∨ ∃ owner ∈ tree.tables, EnforcedFrom owner x.path)
    ⟨.refl, fun _ => .inl⟩ ?_ h
  rintro _ owner mid mid' q r howner ⟨hext, hnew⟩ hrun
  have hhas : mid.Has owner := Has.mono hext.cores_prefix (List.mem_map_of_mem howner)
  obtain ⟨hext', hnew'⟩ := addPaths_eq_ok (hext.walked hw) hhas hrun
  refine ⟨hext.trans hext', fun x hx => ?_⟩
  rcases hnew' x hx with hx | ⟨name, hname, hx⟩
  · exact hnew x hx
  · cases hc : owner.access.enforced? owner.ignoreDeleted with
    | none => simp [hc] at hname
    | some c =>
      rw [hc] at hname
      exact .inr ⟨owner, howner, c, hc, name, hname, hx⟩

/-! ## What the steps leave behind -/

/-- Only permitted fields are chosen, and the conditions of joins are those of explicit joins. -/
structure Settled (joins : List Join) (tree : JoinTree) : Prop where
  chosen : ∀ t ∈ tree.tables, ∀ c ∈ t.chosen, t.access.permits c.1 = true
  conditions : ∀ j ∈ tree.joined, ∀ c ∈ j.condition,
    ∃ join ∈ joins, join.condition = some c ∧ j.path = Path.all join.path

theorem Joins.settled (h : Joins catalog checked x y) (hx : x.1.Settled joins) :
    y.1.Settled joins := by
  cases h with
  | @join tree n t name f r access ht hf hk hchild htarget =>
    constructor
    · intro t' ht' c hc
      rw [extend, tables, List.map_append, ← List.cons_append, List.mem_append] at ht'
      rcases ht' with ht' | ht'
      · exact hx.chosen t' ht' c hc
      · obtain rfl := List.mem_singleton.1 ht'
        exact absurd hc List.not_mem_nil
    · intro j hj c hc
      rw [extend, List.mem_append, List.mem_singleton] at hj
      rcases hj with hj | rfl
      · exact hx.conditions j hj c hc
      · simp at hc

theorem Step.settled (h : Step catalog joins x y) (hx : x.1.Settled joins) :
    y.1.Settled joins := by
  cases h with
  | join h => exact h.settled hx
  | @choose tree n choices hchoices =>
    constructor
    · intro t' ht' c hc
      have htables : (tree.mapTables fun t => t.choose (choices t)).tables =
          tree.tables.map fun t => t.choose (choices t) := by simp [tables, mapTables]
      rw [htables] at ht'
      obtain ⟨t, ht, rfl⟩ := List.mem_map.1 ht'
      rcases List.mem_append.1 hc with hc | hc
      · exact hx.chosen t ht c hc
      · exact hchoices t (List.mem_map_of_mem ht) c hc
    · intro j' hj' c hc
      obtain ⟨j, hj, rfl⟩ := List.mem_map.1 hj'
      exact hx.conditions j hj c hc
  | @apply tree n t join hjoin ht hpath =>
    constructor
    · intro t' ht' c hc
      rcases List.mem_cons.1 ht' with rfl | ht'
      · exact hx.chosen _ List.mem_cons_self c hc
      obtain ⟨j', hj', rfl⟩ := List.mem_map.1 ht'
      obtain ⟨j, hj, rfl⟩ := List.mem_map.1 hj'
      have hmem : j.toTable ∈ tree.tables := List.mem_cons_of_mem _ (List.mem_map_of_mem hj)
      split at hc
      case isTrue hsame => rw [if_pos hsame]; exact hx.chosen _ hmem c hc
      case isFalse hsame => rw [if_neg hsame]; exact hx.chosen _ hmem c hc
    · intro j' hj' c hc
      obtain ⟨j, hj, rfl⟩ := List.mem_map.1 hj'
      split at hc
      case isTrue hsame =>
        rw [if_pos hsame]
        exact ⟨join, hjoin, hc, hsame.trans hpath⟩
      case isFalse hsame =>
        rw [if_neg hsame]
        exact hx.conditions j hj c hc

theorem Steps.settled (h : Steps catalog joins x y) (hx : x.1.Settled joins) :
    y.1.Settled joins := by
  induction h with
  | refl => exact hx
  | tail _ h ih => exact h.settled ih

/-- Joining leaves the tables that are there as they are, and nothing is chosen on new ones. -/
theorem Extends.tables_append (h : Extends catalog checked x y) :
    ∃ new, y.1.tables = x.1.tables ++ new ∧ ∀ t ∈ new, t.chosen = [] := by
  induction h with
  | refl => exact ⟨[], (List.append_nil _).symm, nofun⟩
  | tail _ h ih =>
    obtain ⟨new, hnew, hnone⟩ := ih
    cases h with
    | @join tree n t name f r access =>
      refine ⟨new ++ [{ path := t.path ++ [name], number := n, access }], ?_, ?_⟩
      · rw [← List.append_assoc, ← hnew]
        simp [extend, tables]
      · intro t' ht'
        rcases List.mem_append.1 ht' with ht' | ht'
        · exact hnone t' ht'
        · rw [List.mem_singleton.1 ht']

theorem Extends.settled (h : Extends catalog checked x y) (hx : x.1.Settled joins) :
    y.1.Settled joins := by
  induction h with
  | refl => exact hx
  | tail _ h ih => exact h.settled ih

/-- A tree with only a root, from which a query's tree is made. -/
structure Starts (access : Access) (n : Nat) (tree : JoinTree) : Prop where
  path : tree.root.path = []
  number : tree.root.number = n
  access : tree.root.access = access
  chosen : tree.root.chosen = []
  alone : tree.joined = []

/-- The tree is made from a root with the number `n`, and then extended without regard to the
caller's permissions; if it is the caller's (`checked`), only by what is enforced. -/
def Made (catalog : Catalog) (checked : Bool) (access : Access) (joins : List Join) (n : Nat)
    (tree : JoinTree) (n' : Nat) : Prop :=
  ∃ start mid m, Starts access n start ∧ Steps catalog joins (start, n + 1) (mid, m) ∧
    Extends catalog false (mid, m) (tree, n') ∧
    (∀ join ∈ joins, ∃ t, mid.Has t ∧ t.path = Path.all join.path) ∧
    (checked = true →
      ∀ x, tree.Has x → mid.Has x ∨ ∃ owner ∈ mid.tables, EnforcedFrom owner x.path)

/-- What is known of a tree that has been made for a model. -/
structure Sound (catalog : Catalog) (a : Access) (joins : List Join) (tree : JoinTree) : Prop where
  path : tree.root.path = []
  access : tree.root.access = a
  walked : tree.Walked catalog false
  settled : tree.Settled joins
  explicit : ∀ join ∈ joins, ∃ t, tree.Has t ∧ t.path = Path.all join.path ∧
    catalog.walk? true a t.path = some t.access
  chosen : ∀ t ∈ tree.tables, t.chosen ≠ [] → catalog.walk? true a t.path = some t.access
  others : ∀ t, tree.Has t → catalog.walk? true a t.path = some t.access ∨
    ∃ owner ∈ tree.tables, catalog.walk? true a owner.path = some owner.access ∧
      EnforcedFrom owner t.path

theorem Starts.walked {access : Access} {n : Nat} (h : Starts access n tree) :
    tree.Walked catalog checked := by
  intro t ht
  have ht : t.core = tree.root.core := by
    rw [Has, cores, tables, h.alone] at ht
    exact List.mem_singleton.1 ht
  have hpath : t.path = [] := (congrArg (fun c => c.1) ht).trans h.path
  rw [hpath]
  exact congrArg some (congrArg (fun c => c.2.2) ht).symm

theorem Starts.settled {access : Access} {n : Nat} (h : Starts access n tree) :
    tree.Settled joins := by
  constructor
  · intro t ht c hc
    rw [tables, h.alone] at ht
    obtain rfl := List.mem_singleton.1 ht
    rw [h.chosen] at hc
    exact absurd hc List.not_mem_nil
  · intro j hj
    rw [h.alone] at hj
    exact absurd hj List.not_mem_nil

theorem Made.walked {access : Access} {n n' : Nat} (h : Made catalog checked access joins n tree n') :
    tree.Walked catalog false := by
  obtain ⟨start, mid, m, hstart, hsteps, hext, -, -⟩ := h
  exact hext.walked (hsteps.walked hstart.walked).unchecked

theorem Made.access_eq {access : Access} {n n' : Nat}
    (h : Made catalog checked access joins n tree n') : tree.root.access = access := by
  obtain ⟨start, mid, m, hstart, hsteps, hext, -, -⟩ := h
  have hroot := JoinTree.root_access (hsteps.cores_prefix.trans hext.cores_prefix)
  exact hroot.trans hstart.access

theorem Made.settled {access : Access} {n n' : Nat}
    (h : Made catalog checked access joins n tree n') : tree.Settled joins := by
  obtain ⟨start, mid, m, hstart, hsteps, hext, -, -⟩ := h
  exact hext.settled (hsteps.settled hstart.settled)

theorem Made.sound {access : Access} {n n' : Nat} (h : Made catalog true access joins n tree n') :
    Sound catalog access joins tree := by
  have hw := h.walked
  have hsettled := h.settled
  obtain ⟨start, mid, m, hstart, hsteps, hext, hexplicit, hothers⟩ := h
  have hwalked : mid.Walked catalog true := hsteps.walked hstart.walked
  have hmid : mid.root.access = access := (root_access hsteps.cores_prefix).trans hstart.access
  have hpermitted : ∀ t, mid.Has t → catalog.walk? true access t.path = some t.access := by
    intro t ht
    rw [← hmid]
    exact hwalked t ht
  refine ⟨?_, (root_access hext.cores_prefix).trans hmid, hw, hsettled, ?_, ?_, ?_⟩
  · rw [← hstart.path]
    exact root_path (hsteps.cores_prefix.trans hext.cores_prefix)
  · intro join hjoin
    obtain ⟨t, ht, hpath⟩ := hexplicit join hjoin
    exact ⟨t, ht.mono hext.cores_prefix, hpath, hpermitted t ht⟩
  · intro t ht hchosen
    refine hpermitted t ?_
    obtain ⟨new, hnew, hnone⟩ := hext.tables_append
    rw [hnew, List.mem_append] at ht
    rcases ht with ht | ht
    · exact List.mem_map_of_mem ht
    · exact absurd (hnone t ht) hchosen
  · intro t ht
    rcases hothers rfl t ht with ht | ⟨owner, howner, hforced⟩
    · exact .inl (hpermitted t ht)
    · obtain ⟨new, hnew, -⟩ := hext.tables_append
      refine .inr ⟨owner, ?_, hpermitted owner (List.mem_map_of_mem howner), hforced⟩
      rw [hnew]
      exact List.mem_append_left _ howner

theorem made_of_addEnforcedPaths {access : Access} {start : JoinTree} {n : Nat}
    (hstart : Starts access n start) (hsteps : Steps catalog joins (start, n + 1) (tree, p.nextNumber))
    (hexplicit : ∀ join ∈ joins, ∃ t, tree.Has t ∧ t.path = Path.all join.path)
    (h : (tree.addEnforcedPaths catalog).run p = .ok tree' p') :
    Made catalog true access joins n tree' p'.nextNumber := by
  obtain ⟨hext, hothers⟩ := addEnforcedPaths_eq_ok (hsteps.walked hstart.walked).unchecked h
  exact ⟨start, tree, p.nextNumber, hstart, hsteps, hext, hexplicit, fun _ => hothers⟩

theorem single_eq_ok {access : Access} (h : (single access).run p = .ok tree p') :
    tree = { root := { path := [], number := p.nextNumber, access } } ∧
      p'.nextNumber = p.nextNumber + 1 := by
  obtain ⟨number, _, hnumber, h⟩ := run_bind_eq_ok.1 h
  rw [run_freshNumber] at hnumber
  obtain ⟨rfl, rfl⟩ := EStateM.Result.ok.inj hnumber
  obtain ⟨rfl, rfl⟩ := run_pure_eq_ok.1 h
  exact ⟨rfl, rfl⟩

/-- The tables that a request names, before any are joined for what is selected. -/
def ofNamed (catalog : Catalog) (model : String) (d : Demand) : Build JoinTree := do
  let access ← Build.ofExcept (catalog.access model)
  let tree ← JoinTree.single access
  let tree := { tree with
    root := { tree.root with ignoreDeleted := d.ignoreDeleted }, place := d.place }
  let tree ← tree.addJoins catalog d.joins
  tree.addPaths catalog tree.root d.namedPaths true

section Stages

variable {model : String} {d : Demand}

theorem ofDemand_of_nothing (hd : d.wanted = .nothing) :
    ofDemand catalog model d = ofNamed catalog model d >>= addEnforcedPaths catalog := by
  simp only [ofDemand, ofNamed, hd, bind_assoc, pure_bind]

theorem ofDemand_of_paths {paths : Option (List String)} (hd : d.wanted = .paths paths) :
    ofDemand catalog model d = (do
      let tree ← ofNamed catalog model d
      let tree ← tree.select catalog paths
      tree.addEnforcedPaths catalog) := by
  simp only [ofDemand, ofNamed, hd, bind_assoc]

theorem ofNamed_eq_ok (h : (ofNamed catalog model d).run p = .ok tree p') :
    ∃ access start joined q q', catalog.access model = .ok access ∧
      Starts access p.nextNumber start ∧ start.root.ignoreDeleted = d.ignoreDeleted ∧
      q.nextNumber = p.nextNumber + 1 ∧
      (start.addJoins catalog d.joins).run q = .ok joined q' ∧
      (joined.addPaths catalog joined.root d.namedPaths true).run q' = .ok tree p' := by
  obtain ⟨access, _, haccess, h⟩ := run_bind_eq_ok.1 h
  obtain ⟨hmodel, rfl⟩ := run_ofExcept_eq_ok.1 haccess
  obtain ⟨first, q, hsingle, h⟩ := run_bind_eq_ok.1 h
  obtain ⟨rfl, hq⟩ := single_eq_ok hsingle
  obtain ⟨joined, q', hjoins, h⟩ := run_bind_eq_ok.1 h
  exact ⟨access, _, joined, q, q', hmodel, ⟨rfl, rfl, rfl, rfl, rfl⟩, rfl, hq, hjoins, h⟩

/-- The runs that make the tree of a request, one after the other. -/
theorem ofDemand_eq_ok (h : (ofDemand catalog model d).run p = .ok tree p') :
    ∃ access start tree₁ tree₂ tree₃ q q₁ q₂ q₃, catalog.access model = .ok access ∧
      Starts access p.nextNumber start ∧ start.root.ignoreDeleted = d.ignoreDeleted ∧
      q.nextNumber = p.nextNumber + 1 ∧
      (start.addJoins catalog d.joins).run q = .ok tree₁ q₁ ∧
      (tree₁.addPaths catalog tree₁.root d.namedPaths true).run q₁ = .ok tree₂ q₂ ∧
      (tree₃ = tree₂ ∧ q₃ = q₂ ∧ d.wanted = .nothing ∨
        ∃ paths, d.wanted = .paths paths ∧
          (tree₂.select catalog paths).run q₂ = .ok tree₃ q₃) ∧
      (tree₃.addEnforcedPaths catalog).run q₃ = .ok tree p' := by
  have hstages : ∃ tree₂ tree₃ q₂ q₃, (ofNamed catalog model d).run p = .ok tree₂ q₂ ∧
      (tree₃ = tree₂ ∧ q₃ = q₂ ∧ d.wanted = .nothing ∨ ∃ paths, d.wanted = .paths paths ∧
        (tree₂.select catalog paths).run q₂ = .ok tree₃ q₃) ∧
      (tree₃.addEnforcedPaths catalog).run q₃ = .ok tree p' := by
    cases hwanted : d.wanted with
    | nothing =>
      rw [ofDemand_of_nothing hwanted] at h
      obtain ⟨tree₂, q₂, hnamed, h⟩ := run_bind_eq_ok.1 h
      exact ⟨tree₂, tree₂, q₂, q₂, hnamed, .inl ⟨rfl, rfl, rfl⟩, h⟩
    | paths paths =>
      rw [ofDemand_of_paths hwanted] at h
      obtain ⟨tree₂, q₂, hnamed, h⟩ := run_bind_eq_ok.1 h
      obtain ⟨tree₃, q₃, hselect, h⟩ := run_bind_eq_ok.1 h
      exact ⟨tree₂, tree₃, q₂, q₃, hnamed, .inr ⟨paths, rfl, hselect⟩, h⟩
  obtain ⟨tree₂, tree₃, q₂, q₃, hnamed, hselect, h⟩ := hstages
  obtain ⟨access, start, tree₁, q, q₁, hmodel, hstart, hignore, hq, hjoins, hpaths⟩ :=
    ofNamed_eq_ok hnamed
  exact ⟨access, start, tree₁, tree₂, tree₃, q, q₁, q₂, q₃, hmodel, hstart, hignore, hq, hjoins,
    hpaths, hselect, h⟩

/-- Selecting takes steps only. -/
theorem selected_eq_ok {tree₂ tree₃ : JoinTree} {q₂ q₃ : Progress} (hw : tree₂.Walked catalog true)
    (h : tree₃ = tree₂ ∧ q₃ = q₂ ∧ d.wanted = .nothing ∨ ∃ paths, d.wanted = .paths paths ∧
      (tree₂.select catalog paths).run q₂ = .ok tree₃ q₃) :
    Steps catalog joins (tree₂, q₂.nextNumber) (tree₃, q₃.nextNumber) := by
  rcases h with ⟨rfl, rfl, -⟩ | ⟨paths, -, hselect⟩
  · exact .refl
  · exact select_eq_ok hw hselect

end Stages

/-- The tree of a subquery, as it is made before anything is resolved on it. -/
def ofSubquery (catalog : Catalog) (access : Access) (joins : List Join)
    (paths : List String) (checked : Bool) : Build JoinTree := do
  let tree ← JoinTree.single access
  let tree ← { tree with place := some .existsSubquery : JoinTree }.addJoins catalog joins
  let tree ← tree.addPaths catalog tree.root paths checked
  tree.addEnforcedPaths catalog

/-- The runs that make the tree of a subquery, one after the other. -/
theorem ofSubquery_eq_ok {access : Access} {paths : List String}
    (h : (ofSubquery catalog access joins paths checked).run p = .ok tree p') :
    ∃ start tree₁ tree₂ q q₁ q₂, Starts access p.nextNumber start ∧
      start.root.ignoreDeleted = false ∧ q.nextNumber = p.nextNumber + 1 ∧
      (start.addJoins catalog joins).run q = .ok tree₁ q₁ ∧
      (tree₁.addPaths catalog tree₁.root paths checked).run q₁ = .ok tree₂ q₂ ∧
      (tree₂.addEnforcedPaths catalog).run q₂ = .ok tree p' := by
  obtain ⟨first, q, hsingle, h⟩ := run_bind_eq_ok.1 h
  obtain ⟨rfl, hq⟩ := single_eq_ok hsingle
  obtain ⟨tree₁, q₁, hjoins, h⟩ := run_bind_eq_ok.1 h
  obtain ⟨tree₂, q₂, hpaths, h⟩ := run_bind_eq_ok.1 h
  exact ⟨_, tree₁, tree₂, q, q₁, q₂, ⟨rfl, rfl, rfl, rfl, rfl⟩, rfl, hq, hjoins, hpaths, h⟩

theorem ofDemand_made {model : String} {d : Demand}
    (h : (ofDemand catalog model d).run p = .ok tree p') :
    ∃ access, catalog.access model = .ok access ∧
      Made catalog true access d.joins p.nextNumber tree p'.nextNumber := by
  obtain ⟨access, start, tree₁, tree₂, tree₃, q, q₁, q₂, q₃, hmodel, hstart, -, hq, hjoins, hpaths,
    hselect, h⟩ := ofDemand_eq_ok h
  refine ⟨access, hmodel, ?_⟩
  obtain ⟨hsteps, hexplicit⟩ := addJoins_eq_ok hstart.path hstart.walked hjoins
  rw [hq] at hsteps
  obtain ⟨hext, -⟩ := addPaths_eq_ok (hsteps.walked hstart.walked).unchecked .root hpaths
  have hnamed : Steps catalog d.joins _ (tree₂, q₂.nextNumber) := hsteps.trans hext.steps
  have hselected : Steps catalog d.joins _ (tree₃, q₃.nextNumber) :=
    selected_eq_ok (hnamed.walked hstart.walked) hselect
  refine made_of_addEnforcedPaths hstart (hnamed.trans hselected) (fun join hjoin => ?_) h
  obtain ⟨t, ht, hpath⟩ := hexplicit join hjoin
  exact ⟨t, ht.mono (hext.cores_prefix.trans hselected.cores_prefix), hpath⟩

theorem ofSubquery_made {access : Access} {paths : List String}
    (h : (ofSubquery catalog access joins paths checked).run p = .ok tree p') :
    Made catalog checked access joins p.nextNumber tree p'.nextNumber := by
  obtain ⟨start, tree₁, tree₂, q, q₁, q₂, hstart, -, hq, hjoins, hpaths, henforced⟩ :=
    ofSubquery_eq_ok h
  obtain ⟨hsteps, hexplicit⟩ := addJoins_eq_ok hstart.path hstart.walked hjoins
  rw [hq] at hsteps
  obtain ⟨hext, -⟩ := addPaths_eq_ok (hsteps.walked hstart.walked).unchecked .root hpaths
  cases checked with
  | true =>
    refine made_of_addEnforcedPaths hstart (hsteps.trans hext.steps) (fun join hjoin => ?_)
      henforced
    obtain ⟨t, ht, hpath⟩ := hexplicit join hjoin
    exact ⟨t, ht.mono hext.cores_prefix, hpath⟩
  | false =>
    have hw := hext.walked (hsteps.walked hstart.walked).unchecked
    obtain ⟨hext', -⟩ := addEnforcedPaths_eq_ok hw henforced
    exact ⟨start, tree₁, q₁.nextNumber, hstart, hsteps, hext.trans hext', hexplicit, nofun⟩

end JoinTree
end QueryCompiler
