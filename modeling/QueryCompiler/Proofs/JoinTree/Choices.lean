import QueryCompiler.Proofs.JoinTree.Forest
import QueryCompiler.Proofs.JoinTree.Leading

/-!
# What a select list chooses

Tables are joined before a select list is looked at, while it is followed, and afterwards for what is
enforced; but choices are made by the list alone. `Catalog.Selects` says which, path by path and
without regard to the order of the list: those of the paths that lead to a table, and the key of every
table on the way to one.
-/

namespace QueryCompiler

/-- What a target chooses on a table of the model. -/
def Access.choices (a : Access) (target : Target) : List (String × Choice) :=
  JoinTree.choicesOf { path := [], number := 0, access := a } target

/-- A select list leads to the table at a path or past it. The root is passed by every list. -/
def Catalog.Passes (catalog : Catalog) (a : Access) (select : List String) (x : TablePath) : Prop :=
  x = [] ∨ ∃ path ∈ select, ∃ hops b target,
    catalog.LeadsTo true true a (Path.all path) hops b target ∧ x <+: hops

/-- What a select list chooses on the table at a path. -/
inductive Catalog.Selects (catalog : Catalog) (a : Access) (select : List String) (x : TablePath) :
    String × Choice → Prop where
  | listed {path : String} {b : Access} {target : Target} {c : String × Choice} : path ∈ select →
      catalog.LeadsTo true true a (Path.all path) x b target → c ∈ b.choices target →
      Selects catalog a select x c
  | key {b : Access} {name : String} : catalog.Passes a select x →
      catalog.walk? true a x = some b → name ∈ b.model.key →
      Selects catalog a select x (name, .whole)

variable {catalog : Catalog} {checked wildcard : Bool} {a b : Access} {select : List String}
  {x : TablePath} {c : String × Choice}

theorem JoinTree.choicesOf_eq (t : Table) (target : Target) :
    choicesOf t target = t.access.choices target := by
  cases target <;> rfl

theorem Catalog.LeadsTo.walk? {segments : List String} {hops : TablePath} {target : Target}
    (h : catalog.LeadsTo checked wildcard a segments hops b target) :
    catalog.walk? checked a hops = some b := by
  induction h with
  | wildcard _ | field _ _ _ | member _ _ _ _ _ | groupWildcard _ _ _ _ => rfl
  | relation _ hf hk htarget =>
    rw [Catalog.walk?, hop?_eq_some.2 ⟨_, _, hf, hk, htarget⟩]
    rfl
  | through _ hf hk htarget _ ih =>
    rw [Catalog.walk?, hop?_eq_some.2 ⟨_, _, hf, hk, htarget⟩]
    exact ih

theorem Catalog.Passes.of_prefix {y : TablePath} (h : catalog.Passes a select y) (hx : x <+: y) :
    catalog.Passes a select x := by
  rcases h with rfl | ⟨path, hpath, hops, b, target, hleads, hway⟩
  · exact .inl (List.prefix_nil.1 hx)
  · exact .inr ⟨path, hpath, hops, b, target, hleads, hx.trans hway⟩

/-- What a list passes is there in the catalog. -/
theorem Catalog.Passes.walk? (h : catalog.Passes a select x) :
    ∃ b, catalog.walk? true a x = some b := by
  rcases h with rfl | ⟨_, _, hops, b, target, hleads, rest, rfl⟩
  · exact ⟨a, rfl⟩
  · have hwalk := hleads.walk?
    rw [walk?_append] at hwalk
    obtain ⟨b, hb, -⟩ := Option.bind_eq_some_iff.1 hwalk
    exact ⟨b, hb⟩

/-- A list chooses something only on tables that it passes. -/
theorem Catalog.Selects.passes (h : catalog.Selects a select x c) : catalog.Passes a select x := by
  cases h with
  | listed hpath hleads _ => exact .inr ⟨_, hpath, x, _, _, hleads, List.prefix_refl _⟩
  | key hpasses _ _ => exact hpasses

section Union

variable {more both : List String} (h : ∀ path, path ∈ both ↔ path ∈ select ∨ path ∈ more)
include h

theorem Catalog.passes_union :
    catalog.Passes a both x ↔ catalog.Passes a select x ∨ catalog.Passes a more x := by
  simp only [Passes, h, or_and_right, exists_or, ← or_or_distrib_left]

/-- What a list chooses is what its parts choose. -/
theorem Catalog.selects_union :
    catalog.Selects a both x c ↔ catalog.Selects a select x c ∨ catalog.Selects a more x c := by
  constructor
  · rintro (⟨hpath, hleads, hc⟩ | ⟨hpasses, hwalk, hname⟩)
    · exact ((h _).1 hpath).imp (.listed · hleads hc) (.listed · hleads hc)
    · exact ((passes_union h).1 hpasses).imp (.key · hwalk hname) (.key · hwalk hname)
  · rintro ((⟨hpath, hleads, hc⟩ | ⟨hpasses, hwalk, hname⟩) |
      (⟨hpath, hleads, hc⟩ | ⟨hpasses, hwalk, hname⟩))
    · exact .listed ((h _).2 (.inl hpath)) hleads hc
    · exact .key ((passes_union h).2 (.inl hpasses)) hwalk hname
    · exact .listed ((h _).2 (.inr hpath)) hleads hc
    · exact .key ((passes_union h).2 (.inr hpasses)) hwalk hname

end Union

namespace JoinTree

open Build

variable {joins : List Join} {tree tree' : JoinTree} {t t' : Table} {p p' : Progress} {n n' : Nat}

/-! ## Choices at a path -/

/-- The choice has been made on the table at a path. -/
def ChoosesAt (tree : JoinTree) (x : TablePath) (c : String × Choice) : Prop :=
  ∃ t ∈ tree.tables, t.path = x ∧ c ∈ t.chosen

/-- There is a table at a path. -/
def Reaches (tree : JoinTree) (x : TablePath) : Prop :=
  ∃ t ∈ tree.tables, t.path = x

theorem reaches_iff : tree.Reaches x ↔ ∃ t, tree.Has t ∧ t.path = x := by
  constructor
  · rintro ⟨t, ht, hpath⟩
    exact ⟨t, List.mem_map_of_mem ht, hpath⟩
  · rintro ⟨t, ht, hpath⟩
    obtain ⟨s, hs, hcore⟩ := List.mem_map.1 ht
    exact ⟨s, hs, (congrArg (fun c => c.1) hcore).trans hpath⟩

theorem Reaches.mono (hcores : tree.cores <+: tree'.cores) (h : tree.Reaches x) :
    tree'.Reaches x := by
  obtain ⟨t, ht, hpath⟩ := reaches_iff.1 h
  exact reaches_iff.2 ⟨t, hcores.subset ht, hpath⟩

theorem IsTree.reaches_prefix (htree : tree.IsTree) {y : TablePath} (h : tree.Reaches y)
    (hx : x <+: y) : tree.Reaches x := by
  obtain ⟨t, ht, rfl⟩ := reaches_iff.1 h
  exact reaches_iff.2 (htree.exists_has ht hx)

/-- With one table a path, what is chosen at the path of a table is chosen on it. -/
theorem IsTree.choosesAt_iff (htree : tree.IsTree) (ht : t ∈ tree.tables) :
    tree.ChoosesAt t.path c ↔ c ∈ t.chosen := by
  constructor
  · rintro ⟨s, hs, hpath, hc⟩
    rwa [List.inj_on_of_nodup_map htree.paths hs ht hpath] at hc
  · exact fun hc => ⟨t, ht, rfl, hc⟩

/-- Joining tables chooses nothing. -/
theorem Extends.choosesAt_iff (h : Extends catalog checked (tree, n) (tree', n')) :
    tree'.ChoosesAt x c ↔ tree.ChoosesAt x c := by
  obtain ⟨new, hnew, hnone⟩ := h.tables_append
  have hnew : tree'.tables = tree.tables ++ new := hnew
  constructor
  · rintro ⟨t, ht, hpath, hc⟩
    rw [hnew, List.mem_append] at ht
    rcases ht with ht | ht
    · exact ⟨t, ht, hpath, hc⟩
    · rw [hnone t ht] at hc
      exact absurd hc List.not_mem_nil
  · rintro ⟨t, ht, hpath, hc⟩
    exact ⟨t, hnew ▸ List.mem_append_left _ ht, hpath, hc⟩

theorem cores_choose (tree : JoinTree) (choices : Table → List (String × Choice)) :
    (tree.mapTables fun t => t.choose (choices t)).cores = tree.cores :=
  cores_mapTables tree (fun t => t.choose (choices t)) fun _ => rfl

theorem Walked.choose (hw : tree.Walked catalog checked)
    (choices : Table → List (String × Choice)) :
    (tree.mapTables fun t => t.choose (choices t)).Walked catalog checked :=
  Walked.of_cores_eq (x := (tree, 0)) (y := (tree.mapTables fun t => t.choose (choices t), 0))
    (cores_choose tree choices).symm hw

theorem choosesAt_choose (choices : Table → List (String × Choice)) :
    (tree.mapTables fun t => t.choose (choices t)).ChoosesAt x c ↔
      tree.ChoosesAt x c ∨ ∃ t ∈ tree.tables, t.path = x ∧ c ∈ choices t := by
  have htables : (tree.mapTables fun t => t.choose (choices t)).tables =
      tree.tables.map fun t => t.choose (choices t) := by simp [tables, mapTables]
  have hmem : ∀ t : Table, c ∈ (t.choose (choices t)).chosen ↔ c ∈ t.chosen ∨ c ∈ choices t :=
    fun _ => List.mem_append
  rw [ChoosesAt, htables]
  simp only [List.mem_map, exists_exists_and_eq_and, hmem, and_or_left, exists_or]
  rfl

theorem choosesAt_applyJoin (path : TablePath) (join : Join) :
    (tree.applyJoin path join).ChoosesAt x c ↔ tree.ChoosesAt x c := by
  have hjoined : ∀ j : Joined, (if j.path = path then { j with
      ignoreDeleted := join.ignoreDeleted, type := join.type, condition := join.condition }
      else j).path = j.path ∧ (if j.path = path then { j with
      ignoreDeleted := join.ignoreDeleted, type := join.type, condition := join.condition }
      else j).chosen = j.chosen := by
    intro j
    split <;> exact ⟨rfl, rfl⟩
  simp only [ChoosesAt, tables, applyJoin, List.mem_cons, List.mem_map, List.map_map,
    Function.comp_apply, exists_eq_or_imp, exists_exists_and_eq_and, hjoined]

/-! ## Following a list -/

/-- The path in the list that a run has reached is the one that it leads to. -/
theorem reach_unique {path : String} {target target' : Target} {hops : TablePath}
    (hw : tree.Walked catalog false) (ht : tree.Has t)
    (h : (tree.reach catalog t path checked wildcard).run p = .ok (tree', t', target) p')
    (hleads : catalog.LeadsTo checked wildcard t.access (Path.all path) hops b target') :
    t'.path = t.path ++ hops ∧ target = target' := by
  obtain ⟨_, _, _, hreach, hpath⟩ := reachFrom_of_leadsTo hw ht hleads p
  obtain ⟨heq, -⟩ := EStateM.Result.ok.inj (h.symm.trans hreach)
  cases heq
  exact ⟨hpath, rfl⟩

/-- What following a list leaves behind: the tables on the way, and the choices of its paths. -/
structure Follows (catalog : Catalog) (paths : List String) (tree tree' : JoinTree)
    (touched : List TablePath) : Prop where
  cores : tree.cores <+: tree'.cores
  leads : ∀ path ∈ paths, catalog.Leads true true tree.root.access path
  mem_touched : ∀ hops, hops ∈ touched ↔ ∃ path ∈ paths, ∃ b target,
    catalog.LeadsTo true true tree.root.access (Path.all path) hops b target
  reaches : ∀ hops ∈ touched, tree'.Reaches hops
  new : ∀ x, tree'.Reaches x → tree.Reaches x ∨ ∃ hops ∈ touched, x <+: hops
  chooses : ∀ x c, tree'.ChoosesAt x c ↔ tree.ChoosesAt x c ∨ ∃ path ∈ paths, ∃ b target,
    catalog.LeadsTo true true tree.root.access (Path.all path) x b target ∧ c ∈ b.choices target

theorem Follows.nil : Follows catalog [] tree tree [] :=
  ⟨List.prefix_refl _, nofun, by simp, nofun, fun _ => .inl, by simp⟩

theorem Follows.root_access {paths : List String} {touched : List TablePath}
    (h : Follows catalog paths tree tree' touched) : tree'.root.access = tree.root.access :=
  JoinTree.root_access (x := (tree, 0)) (y := (tree', 0)) h.cores

/-- One list is followed behind another one. -/
theorem Follows.append {mid : JoinTree} {paths more : List String} {touched touched' : List TablePath}
    (h : Follows catalog paths tree mid touched) (h' : Follows catalog more mid tree' touched') :
    Follows catalog (paths ++ more) tree tree' (touched ++ touched') := by
  have haccess := h.root_access
  refine ⟨h.cores.trans h'.cores, ?_, fun hops => ?_, ?_, fun x hx => ?_, fun x c => ?_⟩
  · exact List.forall_mem_append.2 ⟨h.leads, haccess ▸ h'.leads⟩
  · rw [List.mem_append, h.mem_touched, h'.mem_touched, haccess]
    simp only [List.mem_append, or_and_right, exists_or]
  · exact List.forall_mem_append.2 ⟨fun hops hmem => (h.reaches hops hmem).mono h'.cores, h'.reaches⟩
  · rcases h'.new x hx with hx | ⟨hops, hmem, hway⟩
    · refine (h.new x hx).imp_right fun ⟨hops, hmem, hway⟩ => ?_
      exact ⟨hops, List.mem_append_left _ hmem, hway⟩
    · exact .inr ⟨hops, List.mem_append_right _ hmem, hway⟩
  · rw [h'.chooses, h.chooses, haccess, or_assoc]
    simp only [List.mem_append, or_and_right, exists_or]

/-- A path is followed, and what it leads to is chosen. -/
theorem reach_follows {path : String} {target : Target} (hroot : tree.root.path = [])
    (hw : tree.Walked catalog true)
    (h : (tree.reach catalog tree.root path true true).run p = .ok (tree', t, target) p') :
    Follows catalog [path] tree
      (tree'.mapTable t.path fun table => table.choose (choicesOf table target)) [t.path] := by
  obtain ⟨hext, hhas, -, -⟩ := reach_eq_ok hw.unchecked .root h
  obtain ⟨hops, hleads, hpath, hnew⟩ := (arrives_of_run h).leadsTo hw.unchecked .root
  rw [hroot, List.nil_append] at hpath
  have hw' := hext.walked hw
  have hunique : ∀ {x b target'}, catalog.LeadsTo true true tree.root.access (Path.all path) x b
      target' → t.path = x ∧ target = target' := by
    intro x b target' hleads'
    obtain ⟨hx, rfl⟩ := reach_unique hw.unchecked .root h hleads'
    rw [hroot, List.nil_append] at hx
    exact ⟨hx, rfl⟩
  rw [mapTable_choose]
  refine ⟨?_, ?_, fun x => ?_, ?_, fun x hx => ?_, fun x c => ?_⟩
  · rw [cores_choose]
    exact hext.cores_prefix
  · exact List.forall_mem_singleton.2 ⟨_, _, _, hleads⟩
  · simp only [List.mem_singleton, exists_eq_left]
    constructor
    · rintro rfl
      exact ⟨_, _, hpath ▸ hleads⟩
    · rintro ⟨b, target', hleads'⟩
      exact (hunique hleads').1.symm
  · refine List.forall_mem_singleton.2 (reaches_iff.2 ⟨t, ?_, rfl⟩)
    rw [Has, cores_choose]
    exact hhas
  · obtain ⟨s, hs, rfl⟩ := reaches_iff.1 hx
    rw [Has, cores_choose] at hs
    refine (hnew s hs).imp (fun hs => reaches_iff.2 ⟨s, hs, rfl⟩) fun hway => ?_
    exact ⟨t.path, List.mem_cons_self, hway⟩
  · rw [choosesAt_choose, hext.choosesAt_iff]
    simp only [List.mem_singleton, exists_eq_left]
    refine or_congr_right ⟨?_, ?_⟩
    · rintro ⟨u, hu, rfl, hc⟩
      split at hc
      case isTrue hsame =>
        have hua : u.access = t.access := hw'.access_eq (List.mem_map_of_mem hu) hhas hsame
        rw [choicesOf_eq, hua] at hc
        exact ⟨_, _, hsame ▸ hpath ▸ hleads, hc⟩
      · exact absurd hc List.not_mem_nil
    · rintro ⟨b, target', hleads', hc⟩
      obtain ⟨hx, rfl⟩ := hunique hleads'
      obtain ⟨u, hu, hupath⟩ := reaches_iff.2 ⟨t, hhas, hx⟩
      have hua : u.access = b := by
        have hwalk := hw' u (List.mem_map_of_mem hu)
        rw [hupath, root_access hext.cores_prefix, hleads'.walk?] at hwalk
        exact (Option.some.inj hwalk).symm
      refine ⟨u, hu, hupath, ?_⟩
      rw [if_pos (hupath.trans hx.symm), choicesOf_eq, hua]
      exact hc

theorem selectPaths_follows {paths : List String} {touched : List TablePath}
    (hroot : tree.root.path = []) (hw : tree.Walked catalog true)
    (h : (selectPaths catalog paths tree).run p = .ok (tree', touched) p') :
    Follows catalog paths tree tree' touched := by
  induction paths generalizing tree p touched with
  | nil =>
    obtain ⟨heq, rfl⟩ := run_pure_eq_ok.1 h
    cases heq
    exact .nil
  | cons path paths ih =>
    obtain ⟨tree₁, t, target, q, rest, hreach, hrest, rfl⟩ := selectPaths_cons_eq_ok h
    have hfirst := reach_follows hroot hw hreach
    refine hfirst.append (ih ?_ ?_ hrest)
    · exact (root_path (x := (tree, 0)) (y := (_, 0)) hfirst.cores).trans hroot
    · obtain ⟨hext, -⟩ := reach_eq_ok hw.unchecked .root hreach
      rw [mapTable_choose]
      exact (hext.walked hw).choose _

theorem Follows.passes_iff {paths : List String} {touched : List TablePath}
    (h : Follows catalog paths tree tree' touched) :
    catalog.Passes tree.root.access paths x ↔ ∃ hops ∈ [] :: touched, x <+: hops := by
  rw [Catalog.Passes, List.exists_mem_cons_iff, List.prefix_nil]
  refine or_congr_right ⟨?_, ?_⟩
  · rintro ⟨path, hpath, hops, b, target, hleads, hway⟩
    exact ⟨hops, (h.mem_touched hops).2 ⟨path, hpath, b, target, hleads⟩, hway⟩
  · rintro ⟨hops, hmem, hway⟩
    obtain ⟨path, hpath, b, target, hleads⟩ := (h.mem_touched hops).1 hmem
    exact ⟨path, hpath, hops, b, target, hleads, hway⟩

/-- The tables that a list passes are there. -/
theorem Follows.reaches_of_passes {final : JoinTree} {paths : List String}
    {touched : List TablePath} (h : Follows catalog paths tree tree' touched) (htree : final.IsTree)
    (hcores : tree'.cores <+: final.cores) (hx : catalog.Passes tree.root.access paths x) :
    final.Reaches x := by
  obtain ⟨hops, hmem, hway⟩ := h.passes_iff.1 hx
  refine htree.reaches_prefix ?_ hway
  rcases List.mem_cons.1 hmem with rfl | hmem
  · exact ⟨final.root, List.mem_cons_self, htree.root⟩
  · exact (h.reaches hops hmem).mono hcores

/-! ## Selecting -/

theorem cores_selectKeys (tree : JoinTree) (touched : List TablePath) :
    (tree.selectKeys touched).cores = tree.cores := by
  rw [selectKeys_eq, cores_choose]

section Select

variable {paths : List String} (hroot : tree.root.path = []) (hw : tree.Walked catalog true)
  (h : (tree.select catalog (some paths)).run p = .ok tree' p')
include hroot hw h

theorem select_some_leads : ∀ path ∈ paths, catalog.Leads true true tree.root.access path := by
  obtain ⟨mid, touched, hpaths, -⟩ := select_some_eq_ok h
  exact (selectPaths_follows hroot hw hpaths).leads

/-- A list brings in the tables that it passes, and no others. -/
theorem select_some_reaches (htree : tree'.IsTree) :
    tree'.Reaches x ↔ tree.Reaches x ∨ catalog.Passes tree.root.access paths x := by
  obtain ⟨mid, touched, hpaths, rfl⟩ := select_some_eq_ok h
  have hfollows := selectPaths_follows hroot hw hpaths
  have hcores := cores_selectKeys mid ([] :: touched)
  constructor
  · intro hx
    refine (hfollows.new x (hx.mono (hcores ▸ List.prefix_refl _))).imp_right ?_
    rintro ⟨hops, hmem, hway⟩
    exact hfollows.passes_iff.2 ⟨hops, List.mem_cons_of_mem _ hmem, hway⟩
  · rintro (hx | hx)
    · exact hx.mono (hcores ▸ hfollows.cores)
    · exact hfollows.reaches_of_passes htree (hcores ▸ List.prefix_refl _) hx

/-- What is chosen by a list is what it selects. -/
theorem select_some_chooses (htree : tree'.IsTree) :
    tree'.ChoosesAt x c ↔
      tree.ChoosesAt x c ∨ catalog.Selects tree.root.access paths x c := by
  have hreaches := select_some_reaches hroot hw h htree (x := x)
  obtain ⟨mid, touched, hpaths, rfl⟩ := select_some_eq_ok h
  have hfollows := selectPaths_follows hroot hw hpaths
  have hsteps : Steps catalog [] (tree, p.nextNumber) (mid, p'.nextNumber) :=
    selectPaths_eq_ok hw hpaths
  have hwmid := hsteps.walked hw
  have hkeys : (∃ t ∈ mid.tables, t.path = x ∧ c ∈
      if ([] :: touched).any (fun p => t.path.isPrefixOf p) then t.keyChoices else []) ↔
      catalog.Passes tree.root.access paths x ∧ ∃ b, catalog.walk? true tree.root.access x = some b ∧
        ∃ name ∈ b.model.key, (name, Choice.whole) = c := by
    have hany : ∀ t : Table, ([] :: touched).any (fun p => t.path.isPrefixOf p) = true ↔
        catalog.Passes tree.root.access paths t.path := by
      intro t
      rw [hfollows.passes_iff, List.any_eq_true]
      simp only [List.isPrefixOf_iff_prefix]
    have hwalk : ∀ t ∈ mid.tables, catalog.walk? true tree.root.access t.path = some t.access :=
      fun t ht => hfollows.root_access ▸ hwmid t (List.mem_map_of_mem ht)
    constructor
    · rintro ⟨t, ht, rfl, hc⟩
      split at hc
      case isTrue hpasses => exact ⟨(hany t).1 hpasses, _, hwalk t ht, List.mem_map.1 hc⟩
      · exact absurd hc List.not_mem_nil
    · rintro ⟨hpasses, b, hb, hc⟩
      have hcores : (mid.selectKeys ([] :: touched)).cores <+: mid.cores :=
        cores_selectKeys mid ([] :: touched) ▸ List.prefix_refl _
      obtain ⟨t, ht, rfl⟩ := (hreaches.2 (.inr hpasses)).mono hcores
      obtain rfl := Option.some.inj ((hwalk t ht).symm.trans hb)
      refine ⟨t, ht, rfl, ?_⟩
      rw [if_pos ((hany t).2 hpasses)]
      exact List.mem_map.2 hc
  rw [selectKeys_eq, choosesAt_choose, hkeys, hfollows.chooses, or_assoc]
  refine or_congr_right ⟨?_, ?_⟩
  · rintro (⟨path, hpath, b, target, hleads, hc⟩ | ⟨hpasses, b, hb, name, hname, rfl⟩)
    · exact .listed hpath hleads hc
    · exact .key hpasses hb hname
  · rintro (⟨hpath, hleads, hc⟩ | ⟨hpasses, hb, hname⟩)
    · exact .inl ⟨_, hpath, _, _, hleads, hc⟩
    · exact .inr ⟨hpasses, _, hb, _, hname, rfl⟩

end Select

/-- A list can be followed in every tree if each of its paths leads somewhere. -/
theorem exists_select {paths : List String} (hw : tree.Walked catalog true)
    (hleads : ∀ path ∈ paths, catalog.Leads true true tree.root.access path) (p : Progress) :
    ∃ tree' p', (tree.select catalog (some paths)).run p = .ok tree' p' := by
  have hpaths : ∃ r p', (selectPaths catalog paths tree).run p = .ok r p' := by
    induction paths generalizing tree p with
    | nil => exact ⟨_, _, rfl⟩
    | cons path paths ih =>
      obtain ⟨⟨tree₁, t, target⟩, q, hreach⟩ :=
        reach_of_leads hw.unchecked .root (hleads path List.mem_cons_self) p
      obtain ⟨hext, -⟩ := reach_eq_ok hw.unchecked .root hreach
      have hw₁ := (hext.walked hw).choose fun table =>
        if table.path = t.path then choicesOf table target else []
      have haccess : tree₁.root.access = tree.root.access := JoinTree.root_access hext.cores_prefix
      have hrest : ∀ path ∈ paths, catalog.Leads true true tree₁.root.access path :=
        fun path hpath => haccess ▸ hleads path (List.mem_cons_of_mem _ hpath)
      obtain ⟨r, p', hrest⟩ := ih hw₁ hrest q
      refine ⟨_, p', run_bind_eq_ok.2 ⟨_, q, hreach, run_bind_eq_ok.2 ⟨r, p', ?_, rfl⟩⟩⟩
      rw [mapTable_choose]
      exact hrest
  obtain ⟨⟨mid, touched⟩, p', hpaths⟩ := hpaths
  exact ⟨_, p', run_bind_eq_ok.2 ⟨_, p', hpaths, rfl⟩⟩

end JoinTree
end QueryCompiler
