import QueryCompiler.Compile.Hierarchy
import QueryCompiler.Proofs.JoinTree.Shape

/-!
# What a query over a hierarchy asks of its first table

The growing table carries the fields by which the paths of a query begin. Whatever the query selects
of its first table begins a path or belongs to the key, and every table that hangs on the first one
stands at the beginning of a path, unless the rule on the first table's rows has brought it in
(`Query.tree_wanted`).
-/

namespace QueryCompiler

open Build

variable {catalog : Catalog} {p p' : Progress}

/-! ## How paths begin -/

namespace Path

theorem head_eq_splitFirst (path : String) : head path = (splitFirst path).1 := by
  rw [splitFirst, List.span_eq_takeWhile_dropWhile]
  have happ := List.takeWhile_append_dropWhile (p := fun c => decide (c ≠ '.')) (l := path.toList)
  have hdot : '.' ∉ path.toList.takeWhile (· ≠ '.') :=
    fun hmem => absurd (List.mem_takeWhile_imp hmem) (by decide)
  have hall := all_eq_splitOn path
  cases hrest : path.toList.dropWhile (· ≠ '.') with
  | nil =>
    rw [hrest, List.append_nil] at happ
    rw [← happ, List.splitOn_eq_singleton hdot, List.map_singleton] at hall
    exact head_of_all hall
  | cons x rest =>
    have hx : x = '.' := by
      have hhead := List.head?_dropWhile_not (fun c => decide (c ≠ '.')) path.toList
      rw [hrest] at hhead
      simpa using hhead
    rw [hrest, hx] at happ
    rw [← happ, List.splitOn_append_cons_self_of_not_mem hdot, List.map_cons] at hall
    exact head_of_all hall

theorem head_owner? {path before : String} (h : owner? path = some before) :
    head before = head path := by
  obtain ⟨⟨before', name⟩, hsplit, rfl⟩ := Option.map_eq_some_iff.1 h
  obtain ⟨rest, hrest⟩ := all_eq_cons before'
  have hall := all_of_splitLast_eq_some hsplit
  rw [hrest, List.cons_append] at hall
  exact (head_of_all hall).symm

end Path

/-- The first relationship on the way to a table, if there is one, is of a kind. -/
def TablePath.Begins (P : String → Prop) (path : TablePath) : Prop :=
  ∀ name ∈ path.head?, P name

namespace TablePath.Begins

variable {P : String → Prop} {path path' : TablePath}

theorem of_cons {name : String} {rest : TablePath} (hname : P name) (h : path <+: name :: rest) :
    Begins P path := by
  intro first hfirst
  cases path with
  | nil => exact absurd hfirst (Option.not_mem_none _)
  | cons first' path =>
    obtain rfl := Option.some.inj hfirst
    exact (List.cons_prefix_cons.1 h).1 ▸ hname

theorem of_start {name : String} (hname : P (Path.head name)) (h : path <+: Path.all name) :
    Begins P path :=
  of_cons hname h

/-- A table below one that begins so does too. -/
theorem below {rest : TablePath} (h : Begins P path') (hne : path' ≠ []) (hpath : path <+: path' ++ rest) :
    Begins P path := by
  obtain ⟨first, tail, rfl⟩ := List.exists_cons_of_ne_nil hne
  exact of_cons (h first rfl) hpath

end TablePath.Begins

/-! ## Tables and choices -/

namespace JoinTree

variable {P : String → Prop} {tree tree' : JoinTree} {checked : Bool}

/-- The tables stand at paths that begin as wanted, and what is chosen on the root is wanted or part
of the key. -/
structure Meets (catalog : Catalog) (P : String → Prop) (tree : JoinTree) : Prop where
  root : tree.root.path = []
  walked : tree.Walked catalog false
  begins : ∀ x, tree.Has x → TablePath.Begins P x.path
  chosen : ∀ c ∈ tree.root.chosen, P c.1 ∨ tree.root.access.model.isKey c.1 = true

theorem Extends.root_eq {x y : JoinTree × Nat} (h : Extends catalog checked x y) :
    y.1.root = x.1.root := by
  obtain ⟨new, hnew, -⟩ := h.tables_append
  exact (List.cons.inj hnew).1

theorem addPaths_meets {paths : List String} (h : tree.Meets catalog P)
    (hpaths : ∀ path ∈ paths, P (Path.head path))
    (hrun : (tree.addPaths catalog tree.root paths checked).run p = .ok tree' p') :
    tree'.Meets catalog P := by
  obtain ⟨hext, hnew⟩ := addPaths_eq_ok h.walked .root hrun
  have hroot : tree'.root = tree.root := hext.root_eq
  refine ⟨hroot ▸ h.root, hext.unchecked.walked h.walked, fun x hx => ?_, hroot ▸ h.chosen⟩
  rcases hnew x hx with hx | ⟨path, hpath, hx⟩
  · exact h.begins x hx
  · rw [h.root, List.nil_append] at hx
    exact .of_start (hpaths path hpath) hx

/-- What is chosen on the tables may change as long as the tables stay where they are. -/
theorem Meets.of_cores_eq (h : tree.Meets catalog P) (hcores : tree'.cores = tree.cores)
    (hchosen : ∀ c ∈ tree'.root.chosen, P c.1 ∨ tree.root.access.model.isKey c.1 = true) :
    tree'.Meets catalog P := by
  have hroot : tree'.root.core = tree.root.core := (List.cons.inj hcores).1
  refine ⟨(congrArg (fun c => c.1) hroot).trans h.root, ?_, fun x hx => ?_, ?_⟩
  · exact Walked.of_cores_eq (x := (tree, 0)) (y := (tree', 0)) hcores.symm h.walked
  · rw [Has, hcores] at hx
    exact h.begins x hx
  · rw [show tree'.root.access = tree.root.access from congrArg (fun c => c.2.2) hroot]
    exact hchosen

/-- Reaching a path that begins as wanted. -/
theorem reach_meets {path : String} {wildcard : Bool} {t : Table} {target : Target}
    (h : tree.Meets catalog P) (hpath : P (Path.head path))
    (hrun : (tree.reach catalog tree.root path checked wildcard).run p = .ok (tree', t, target) p') :
    tree'.Meets catalog P ∧ tree'.root = tree.root := by
  obtain ⟨hext, -, -, hnew⟩ := reach_eq_ok h.walked .root hrun
  have hroot : tree'.root = tree.root := hext.root_eq
  refine ⟨⟨hroot ▸ h.root, hext.unchecked.walked h.walked, fun x hx => ?_, hroot ▸ h.chosen⟩, hroot⟩
  rcases hnew x hx with hx | hx
  · exact h.begins x hx
  · rw [h.root, List.nil_append] at hx
    exact .of_start hpath hx

theorem addJoin_meets {join : Join} (h : tree.Meets catalog P) (hjoin : P (Path.head join.path))
    (hrun : (tree.addJoin catalog join).run p = .ok tree' p') : tree'.Meets catalog P := by
  obtain ⟨tree₁, t, target, q, hreach, htarget, hrun⟩ := addJoin_parts hrun
  obtain ⟨-, hhas, hleads, -⟩ := reach_eq_ok h.walked .root hreach
  have hpath : t.path = Path.all join.path := by
    rw [(hleads.of_relation htarget).1, h.root, List.nil_append]
  obtain ⟨h₁, -⟩ := reach_meets h hjoin hreach
  have h₂ : (tree₁.applyJoin t.path join).Meets catalog P :=
    h₁.of_cores_eq (cores_applyJoin _ _ _) h₁.chosen
  have hhas' : (tree₁.applyJoin t.path join).Has t := by rw [Has, cores_applyJoin]; exact hhas
  obtain ⟨hext, hnew⟩ := addPaths_eq_ok h₂.walked hhas' hrun
  have hroot : tree'.root = (tree₁.applyJoin t.path join).root := hext.root_eq
  refine ⟨hroot ▸ h₂.root, hext.unchecked.walked h₂.walked, fun x hx => ?_, hroot ▸ h₂.chosen⟩
  rcases hnew x hx with hx | ⟨path, -, hx⟩
  · exact h₂.begins x hx
  · exact (h₂.begins t hhas').below (hpath ▸ List.cons_ne_nil _ _) hx

theorem addJoins_meets {joins : List Join} (h : tree.Meets catalog P)
    (hjoins : ∀ join ∈ joins, P (Path.head join.path))
    (hrun : (tree.addJoins catalog joins).run p = .ok tree' p') : tree'.Meets catalog P := by
  refine run_foldlM_good (fun mid => mid.Meets catalog P) ?_ h hrun
  intro mid hmid join hjoin mid' q r hrun
  exact addJoin_meets hmid (hjoins join ((Keyed.sortBy_perm JoinOf.path joins).subset hjoin)) hrun

/-- What a selected path chooses on the root. -/
theorem choicesOf_wanted {path : String} {t : Table} {target : Target} (hstar : P "*" → ∀ name, P name)
    (hpath : P (Path.head path)) (hleads : Leads catalog true tree.root (Path.all path) t target)
    (hroot : t.path = tree.root.path) : ∀ c ∈ choicesOf tree.root target, P c.1 := by
  obtain ⟨hops, last, hall, ht, hwalk, hends⟩ := hleads
  obtain rfl : hops = [] := by simpa using ht.symm.trans hroot
  rw [List.nil_append] at hall
  intro c hc
  cases hends with
  | relation _ => exact absurd hall (List.cons_ne_nil _ _)
  | @field name f hf hrelation =>
    rw [Path.head_of_all hall, ← (Access.name_of_field hf).1] at hpath
    cases hk : f.kind with
    | relation r => exact absurd (Field.isRelation_iff.2 ⟨r, hk⟩) (Bool.eq_false_iff.1 hrelation)
    | basic b =>
      simp only [choicesOf, hk, List.mem_singleton] at hc
      exact hc ▸ hpath
    | group g =>
      simp only [choicesOf, hk, List.mem_singleton] at hc
      exact hc ▸ hpath
  | member hf _ _ =>
    rw [Path.head_of_all hall, ← (Access.name_of_field hf).1] at hpath
    simp only [choicesOf, List.mem_singleton] at hc
    exact hc ▸ hpath
  | wildcard => exact hstar (Path.head_of_all hall ▸ hpath) _
  | groupWildcard hf _ =>
    rw [Path.head_of_all hall, ← (Access.name_of_field hf).1] at hpath
    simp only [choicesOf, List.mem_singleton] at hc
    exact hc ▸ hpath

theorem selectPaths_meets (hstar : P "*" → ∀ name, P name) {paths : List String}
    (hpaths : ∀ path ∈ paths, P (Path.head path)) {touched : List TablePath}
    (h : tree.Meets catalog P)
    (hrun : (selectPaths catalog paths tree).run p = .ok (tree', touched) p') :
    tree'.Meets catalog P := by
  induction paths generalizing tree p touched with
  | nil =>
    obtain ⟨heq, -⟩ := run_pure_eq_ok.1 hrun
    exact (Prod.mk.inj heq).1 ▸ h
  | cons path paths ih =>
    obtain ⟨tree₁, t, target, q, rest, hreach, hrest, -⟩ := selectPaths_cons_eq_ok hrun
    have hpath := hpaths path List.mem_cons_self
    obtain ⟨h₁, hroot⟩ := reach_meets h hpath hreach
    obtain ⟨-, -, hleads, -⟩ := reach_eq_ok h.walked .root hreach
    refine ih (fun path hpath => hpaths path (List.mem_cons_of_mem _ hpath)) ?_ hrest
    rw [mapTable_choose]
    refine h₁.of_cores_eq (cores_mapTables _ _ fun _ => rfl) fun c hc => ?_
    rcases List.mem_append.1 hc with hc | hc
    · exact h₁.chosen c hc
    · split at hc
      case isTrue hsame =>
        rw [hroot] at hc hsame
        exact .inl (choicesOf_wanted hstar hpath hleads hsame.symm c hc)
      case isFalse => exact absurd hc List.not_mem_nil

theorem select_meets (hstar : P "*" → ∀ name, P name) {paths : List String}
    (hpaths : ∀ path ∈ paths, P (Path.head path)) (h : tree.Meets catalog P)
    (hrun : (tree.select catalog (some paths)).run p = .ok tree' p') : tree'.Meets catalog P := by
  obtain ⟨tree₁, touched, hselect, rfl⟩ := select_some_eq_ok hrun
  have h₁ := selectPaths_meets hstar hpaths h hselect
  have hcores : (tree₁.selectKeys ([] :: touched)).cores = tree₁.cores :=
    cores_mapTables _ _ fun t => by split <;> rfl
  have hroot : (tree₁.selectKeys ([] :: touched)).root = tree₁.root.choose tree₁.root.keyChoices := by
    rw [selectKeys, mapTables]
    exact if_pos (by rw [h₁.root]; rfl)
  refine h₁.of_cores_eq hcores fun c hc => ?_
  rw [hroot] at hc
  rcases List.mem_append.1 hc with hc | hc
  · exact h₁.chosen c hc
  · obtain ⟨name, hname, rfl⟩ := List.mem_map.1 hc
    exact .inr (List.contains_iff_mem.2 hname)

theorem Starts.meets {access : Access} {n : Nat} (h : Starts access n tree) :
    tree.Meets catalog P := by
  refine ⟨h.path, h.walked, fun x hx name hname => ?_, by rw [h.chosen]; exact nofun⟩
  rw [Has, cores, tables, h.alone] at hx
  have hx : x.path = [] := (congrArg (fun c => c.1) (List.mem_singleton.1 hx)).trans h.path
  exact absurd (hx ▸ hname) (Option.not_mem_none _)

end JoinTree

/-! ## Queries -/

namespace Query

/-- The growing table of the query is asked for the field. -/
def Wants (q : Query) (name : String) : Prop :=
  q.heads?.all (fun names => names.contains name) = true

/-- The query names the path, as one from its first table. -/
inductive NamesPath (q : Query) (path : String) : Prop where
  | selected {paths : List String} : q.select = some paths → path ∈ paths → q.NamesPath path
  | column {c : Condition} : q.condition = some c → path ∈ c.columnPaths → q.NamesPath path
  | related {c : Condition} : q.condition = some c → path ∈ c.relatedPaths → q.NamesPath path
  | ordered : path ∈ q.order.filterMap OrderTerm.path → q.NamesPath path
  | joined {join : Join} : join ∈ q.joins → path = join.path → q.NamesPath path
  | computed : path ∈ q.computed.flatMap ComputedColumn.paths → q.NamesPath path

variable {q : Query} {name path : String} {model : String}

/-- With selected paths, the growing table is asked for what begins the paths of the query, unless that
is everything. -/
theorem heads?_eq {paths : List String} (hselect : q.select = some paths) :
    ∃ heads, (∀ path, q.NamesPath path → Path.head path ∈ heads) ∧
      q.heads? = if heads.contains "*" then none else some heads := by
  rw [heads?, hselect]
  refine ⟨_, fun path h => List.mem_map_of_mem ?_, rfl⟩
  simp only [List.mem_append]
  cases h with
  | selected hpaths hpath =>
    obtain rfl := Option.some.inj (hselect.symm.trans hpaths)
    exact .inl (.inl (.inl (.inl hpath)))
  | column hc hpath =>
    rw [hc]
    exact .inl (.inl (.inl (.inr (List.mem_append_left _ hpath))))
  | related hc hpath =>
    rw [hc]
    exact .inl (.inl (.inl (.inr (List.mem_append_right _ hpath))))
  | ordered hpath => exact .inl (.inl (.inr hpath))
  | joined hjoin heq => exact .inl (.inr (heq ▸ List.mem_map_of_mem hjoin))
  | computed hpath => exact .inr hpath

theorem wants_of_select_none (h : q.select = none) (name : String) : q.Wants name := by
  rw [Wants, heads?, h]
  rfl

theorem NamesPath.wants (h : q.NamesPath path) : q.Wants (Path.head path) := by
  cases hselect : q.select with
  | none => exact wants_of_select_none hselect _
  | some paths =>
    obtain ⟨heads, hheads, heq⟩ := heads?_eq hselect
    rw [Wants, heq]
    split
    · rfl
    · exact List.contains_iff_mem.2 (hheads path h)

theorem wants_of_star (h : q.Wants "*") (name : String) : q.Wants name := by
  cases hselect : q.select with
  | none => exact wants_of_select_none hselect name
  | some paths =>
    obtain ⟨heads, -, heq⟩ := heads?_eq hselect
    rw [Wants, heq] at h ⊢
    split
    · rfl
    case isFalse hstar =>
      rw [if_neg hstar] at h
      exact absurd h hstar

theorem wants_namedPaths (h : path ∈ q.demand.namedPaths) : q.Wants (Path.head path) := by
  simp only [Demand.namedPaths, List.mem_append] at h
  rcases h with (h | h) | h
  · cases hc : q.condition with
    | none => simp [demand, hc] at h
    | some c =>
      have h : path ∈ c.joinPaths := by simpa [demand, hc] using h
      rcases List.mem_append.1 h with h | h
      · exact (NamesPath.column hc h).wants
      · obtain ⟨whole, hwhole, howner⟩ := List.mem_filterMap.1 h
        rw [Path.head_owner? howner]
        exact (NamesPath.related hc hwhole).wants
  · exact (NamesPath.ordered h).wants
  · exact (NamesPath.computed h).wants

/-- What has been joined and selected before the rules on tables are looked at. -/
theorem tree_meets {tree : JoinTree} {paths : List String} (hselect : q.select = some paths)
    (h : (JoinTree.ofDemand catalog model q.demand).run p = .ok tree p') :
    ∃ (mid : JoinTree) (r : Progress), mid.Meets catalog q.Wants ∧
      (mid.addEnforcedPaths catalog).run r = .ok tree p' := by
  obtain ⟨_, start, tree₁, tree₂, tree₃, r, r₁, r₂, r₃, -, hstart, -, hr, hjoins, hpaths, hwanted, h⟩ :=
    JoinTree.ofDemand_eq_ok h
  have h₁ := JoinTree.addJoins_meets hstart.meets
    (fun join hjoin => (NamesPath.joined hjoin rfl).wants) hjoins
  have h₂ := JoinTree.addPaths_meets h₁ (fun path => wants_namedPaths) hpaths
  refine ⟨tree₃, r₃, ?_, h⟩
  rcases hwanted with ⟨rfl, -, -⟩ | ⟨paths', hpaths', hrun⟩
  · exact h₂
  · obtain rfl : paths' = some paths := (Wanted.paths.inj hpaths').symm.trans hselect
    exact JoinTree.select_meets wants_of_star
      (fun path hpath => (NamesPath.selected hselect hpath).wants) h₂ hrun

/-- What a query selects of its first table is wanted or part of the key; and a table that hangs on
the first one does so by a relationship that is wanted, or by one that the rule on the first table
names. -/
theorem tree_wanted {tree : JoinTree}
    (h : (JoinTree.ofDemand catalog model q.demand).run p = .ok tree p') :
    (∀ c ∈ tree.root.chosen, q.Wants c.1 ∨ tree.root.access.model.isKey c.1 = true) ∧
      ∀ x name, tree.Has x → x.path = [name] → q.Wants name ∨
        ∃ c ∈ tree.root.access.enforced? tree.root.ignoreDeleted,
          ∃ path ∈ c.joinPaths, Path.head path = name := by
  cases hselect : q.select with
  | none => exact ⟨fun _ _ => .inl (wants_of_select_none hselect _),
      fun _ _ _ _ => .inl (wants_of_select_none hselect _)⟩
  | some paths =>
    obtain ⟨_, -, hmade⟩ := JoinTree.ofDemand_made h
    obtain ⟨mid, r, hmeets, hrun⟩ := tree_meets hselect h
    obtain ⟨hext, hnew⟩ := JoinTree.addEnforcedPaths_eq_ok hmeets.walked hrun
    have hroot : tree.root = mid.root := hext.root_eq
    refine ⟨hroot ▸ hmeets.chosen, fun x name hx hpath => ?_⟩
    rcases hnew x hx with hx | ⟨owner, howner, c, hc, path, hmem, hprefix⟩
    · exact .inl (hmeets.begins x hx name (hpath ▸ rfl))
    · rw [hpath] at hprefix
      cases hopath : owner.path with
      | nil =>
        have htables : owner ∈ tree.tables := by
          obtain ⟨new, hnew, -⟩ := hext.tables_append
          have hnew : tree.tables = mid.tables ++ new := hnew
          exact hnew ▸ List.mem_append_left _ howner
        have howner := hmade.isTree.eq_root htables (hopath.trans hmade.isTree.root.symm)
        rw [hopath, List.nil_append] at hprefix
        exact .inr ⟨c, howner ▸ hc, path, hmem, (List.cons_prefix_cons.1 hprefix).1.symm⟩
      | cons first rest =>
        have hfirst := hmeets.begins owner (List.mem_map_of_mem howner) first (hopath ▸ rfl)
        rw [hopath, List.cons_append] at hprefix
        exact .inl ((List.cons_prefix_cons.1 hprefix).1 ▸ hfirst)

end Query
end QueryCompiler
