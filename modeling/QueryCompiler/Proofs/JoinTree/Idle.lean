import QueryCompiler.Proofs.JoinTree.Spanning

/-!
# Paths that join nothing

Explicit joins come first, so a path over relationships that they lead over, by their own paths or by
those that their conditions name, finds its tables joined (`Catalog.Covers`). Adding such a path
neither joins a table nor draws a number, and it may be left out among the others without a trace
(`addPaths_covered`).
-/

namespace QueryCompiler

/-! ## Paths in a catalog -/

/-- The segments name fields from a model on, which may be named if `checked`. -/
inductive Catalog.Resolves (catalog : Catalog) (checked : Bool) : Access → List String → Prop where
  | field {a : Access} {name : String} {f : Field} : name ≠ "*" → a.field name checked = .ok f →
      f.isRelation = false → Resolves catalog checked a [name]
  | member {a : Access} {name next : String} {f : Field} {g : GroupField} {b : BasicField} :
      name ≠ "*" → a.field name checked = .ok f → f.kind = .group g → g.member? next = some b →
      Resolves catalog checked a [name, next]
  | relation {a b : Access} {name : String} : name ≠ "*" → catalog.hop? checked a name = some b →
      Resolves catalog checked a [name]
  | through {a b : Access} {name next : String} {rest : List String} : name ≠ "*" →
      catalog.hop? checked a name = some b → Resolves catalog checked b (next :: rest) →
      Resolves catalog checked a (name :: next :: rest)

/-- The paths that the condition of a join names, from the joined table on. -/
def JoinOf.namedPaths (join : Join) : List String :=
  (join.condition.map Condition.joinPaths).getD []

/-- Explicit joins lead over the relationships: a join by its path, or a path that its condition
names from there on. -/
def LeadOver (joins : List Join) (hops : TablePath) : Prop :=
  ∃ join ∈ joins, hops <+: Path.all join.path ∨
    ∃ path ∈ join.namedPaths, path ≠ "" ∧ hops <+: Path.all join.path ++ Path.all path

/-- Explicit joins lead over all relationships that a path leads over from a model. -/
def Catalog.Covers (catalog : Catalog) (joins : List Join) (a : Access) (path : String) : Prop :=
  ∀ hops b, hops ≠ [] → hops <+: Path.all path → catalog.walk? true a hops = some b →
    LeadOver joins hops

namespace JoinTree

open Build

variable {catalog : Catalog} {checked : Bool} {joins : List Join} {tree tree' : JoinTree}
  {t : Table} {p p' : Progress} {path : String}

/-! ## Spanned paths -/

theorem join_of_child? {name : String} {r : Relation} {j : Joined}
    (h : tree.child? t name = some j) : tree.join catalog t name r = pure (tree, j) := by
  rw [join, h]

/-- Reaching a path that is spanned leaves the tree as it is. -/
theorem reachFrom_of_spans {rest : List String} {segment : String} (hw : tree.Walked catalog false)
    (ht : tree.Has t) (hspans : tree.Spans checked (segment :: rest) t)
    (hresolves : catalog.Resolves checked t.access (segment :: rest)) : ∃ t' target,
      reachFrom catalog path checked false rest tree t segment = pure (tree, t', target) := by
  induction rest generalizing t segment with
  | nil =>
    cases hresolves with
    | field hstar hf hrelation => exact ⟨t, _, reachFrom_field hstar hf hrelation⟩
    | relation hstar hhop =>
      obtain ⟨f, r, hf, hk, -⟩ := Catalog.hop?_eq_some.1 hhop
      obtain ⟨j, hj, -⟩ := hspans f hf (Field.isRelation_iff.2 ⟨r, hk⟩)
      refine ⟨j.toTable, .found (.field f), ?_⟩
      rw [reachFrom_relation hstar hf hk, join_of_child? hj, pure_bind]
  | cons next rest ih =>
    cases hresolves with
    | member hstar hf hk hb =>
      exact ⟨t, _, reachFrom_member hstar hf hk (Bool.and_false _) hb⟩
    | @through _ a _ _ _ hstar hhop hrest =>
      obtain ⟨f, r, hf, hk, -⟩ := Catalog.hop?_eq_some.1 hhop
      obtain ⟨j, hj, hspans⟩ := hspans f hf (Field.isRelation_iff.2 ⟨r, hk⟩)
      have haccess : j.access = a :=
        Option.some.inj ((hw.hop?_child ht hf hk hj).symm.trans hhop)
      obtain ⟨t', target, hreach⟩ := ih (.of_mem (child?_eq_some hj).1) hspans (haccess ▸ hrest)
      refine ⟨t', target, ?_⟩
      rw [reachFrom_through hstar hf hk, join_of_child? hj, pure_bind]
      exact hreach

/-- Paths that are spanned may be left out of those that are added. -/
theorem addPaths_of_spans {paths more : List String} (hw : tree.Walked catalog false)
    (ht : tree.Has t) (hspans : tree.SpansAll checked paths t)
    (hresolves : ∀ path ∈ paths, catalog.Resolves checked t.access (Path.all path)) :
    tree.addPaths catalog t (paths ++ more) checked = tree.addPaths catalog t more checked := by
  let kept := more.filter fun p => !p.isEmpty
  have hfilter : (Keyed.setOf ((paths ++ more).filter fun p => !p.isEmpty)).filter kept.contains =
      Keyed.setOf kept := by
    refine Keyed.filter_setOf fun k => ?_
    rw [List.filter_append, List.mem_append, List.contains_iff_mem]
    tauto
  rw [addPaths, addPaths, ← hfilter]
  refine foldlM_filter (fun tree' => tree'.Walked catalog false ∧ tree.cores <+: tree'.cores)
    ⟨hw, List.prefix_refl _⟩ ?_ ?_
  · rintro tree₁ path tree₂ p p' ⟨hw₁, hcores⟩ hrun
    obtain ⟨⟨tree₃, t₃, target⟩, q, hreach, hrun⟩ := run_bind_eq_ok.1 hrun
    obtain ⟨rfl, rfl⟩ := run_pure_eq_ok.1 hrun
    obtain ⟨hext, -, -, -⟩ := reach_eq_ok hw₁ (ht.mono (x := (tree, 0)) (y := (tree₁, 0)) hcores) hreach
    exact ⟨hext.unchecked.walked hw₁, hcores.trans hext.cores_prefix⟩
  · rintro tree₁ ⟨hw₁, hcores⟩ path hpath hidle
    have hmem : path ∈ paths ∧ path ≠ "" := by
      have hnot : path ∉ kept := by simpa using hidle
      have hin := Keyed.mem_of_mem_setOf hpath
      rw [List.filter_append, List.mem_append] at hin
      simpa using hin.resolve_right hnot
    obtain ⟨t', target, hreach⟩ : ∃ t' target,
        tree₁.reach catalog t path checked false = pure (tree₁, t', target) :=
      reachFrom_of_spans hw₁ (ht.mono (x := (tree, 0)) (y := (tree₁, 0)) hcores)
        ((hspans path hmem.1 hmem.2).mono hcores rfl rfl) (hresolves path hmem.1)
    rw [hreach, pure_bind]

/-! ## What explicit joins bring in -/

theorem Spans.exists_has {segments : List String} {hops : TablePath} {b : Access}
    (hw : tree.Walked catalog false) (ht : tree.Has t) (hspans : tree.Spans checked segments t)
    (hway : hops <+: segments) (hwalk : catalog.walk? checked t.access hops = some b) :
    ∃ s, tree.Has s ∧ s.path = t.path ++ hops := by
  induction hops generalizing t segments with
  | nil => exact ⟨t, ht, (List.append_nil _).symm⟩
  | cons name hops ih =>
    obtain ⟨segments, rfl⟩ : ∃ rest, segments = name :: rest := by
      obtain ⟨rest, rfl⟩ := hway
      exact ⟨hops ++ rest, rfl⟩
    obtain ⟨a, hhop, hwalk⟩ := Option.bind_eq_some_iff.1 hwalk
    obtain ⟨f, r, hf, hk, -⟩ := Catalog.hop?_eq_some.1 hhop
    obtain ⟨j, hj, hspans⟩ := hspans f hf (Field.isRelation_iff.2 ⟨r, hk⟩)
    obtain ⟨hmem, hpath⟩ := child?_eq_some hj
    have haccess : j.access = a := Option.some.inj ((hw.hop?_child ht hf hk hj).symm.trans hhop)
    obtain ⟨s, hs, hspath⟩ := ih (.of_mem hmem) hspans (List.cons_prefix_cons.1 hway).2
      (haccess ▸ hwalk)
    refine ⟨s, hs, ?_⟩
    rw [hspath, hpath, List.append_assoc, List.singleton_append]

/-- A path is spanned if there are tables where its relationships lead. -/
theorem spans_of_has {segments : List String} (hroot : tree.root.path = [])
    (hw : tree.Walked catalog false) (ht : tree.Has t)
    (hresolves : catalog.Resolves checked t.access segments)
    (hhas : ∀ hops b, hops ≠ [] → hops <+: segments → catalog.walk? checked t.access hops = some b →
      ∃ s, tree.Has s ∧ s.path = t.path ++ hops) : tree.Spans checked segments t := by
  have hchild : ∀ {t : Table} {name : String}, (∃ s, tree.Has s ∧ s.path = t.path ++ [name]) →
      ∃ j, tree.child? t name = some j := by
    rintro t name ⟨s, hs, hpath⟩
    obtain ⟨u, hu, hcore⟩ := List.mem_map.1 hs
    have hupath : u.path = t.path ++ [name] := (congrArg (fun c => c.1) hcore).trans hpath
    rcases List.mem_cons.1 hu with rfl | hu
    · exact absurd (hroot.symm.trans hupath) (by simp)
    · obtain ⟨j, hj, rfl⟩ := List.mem_map.1 hu
      exact Option.isSome_iff_exists.1 (List.find?_isSome.2 ⟨j, hj, by simpa using hupath⟩)
  generalize ha : t.access = a at hresolves hhas
  induction hresolves generalizing t with
  | field _ hf hrelation => exact spans_of_not_relation (ha ▸ hf) hrelation
  | member _ hf hk _ =>
    exact spans_of_not_relation (ha ▸ hf) (Field.isRelation_eq_false (by simp [hk]))
  | @relation a b name _ hhop =>
    obtain ⟨j, hj⟩ := hchild (hhas [name] b (by simp) (List.prefix_refl _)
      (by rw [Catalog.walk?, hhop]; rfl))
    exact fun _ _ _ => ⟨j, hj, trivial⟩
  | @through a b name next rest _ hhop _ ih =>
    obtain ⟨f, r, hf, hk, -⟩ := Catalog.hop?_eq_some.1 hhop
    obtain ⟨j, hj⟩ := hchild (hhas [name] b (by simp) (by simp)
      (by rw [Catalog.walk?, hhop]; rfl))
    obtain ⟨hmem, hpath⟩ := child?_eq_some hj
    have haccess : j.access = b :=
      Option.some.inj ((hw.hop?_child ht (ha ▸ hf) hk hj).symm.trans (ha ▸ hhop))
    refine fun _ _ _ => ⟨j, hj, ih (.of_mem hmem) haccess fun hops c hne hway hwalk => ?_⟩
    obtain ⟨s, hs, hspath⟩ := hhas (name :: hops) c (by simp)
      (List.cons_prefix_cons.2 ⟨rfl, hway⟩) (by rw [Catalog.walk?, hhop]; exact hwalk)
    exact ⟨s, hs, by rw [hspath, hpath, List.append_assoc, List.singleton_append]⟩

/-- An explicit join brings in its table and those that its condition names. -/
theorem addJoin_brings {join : Join} (hroot : tree.root.path = []) (hw : tree.Walked catalog true)
    (h : (tree.addJoin catalog join).run p = .ok tree' p') :
    ∃ t, tree'.Has t ∧ t.path = Path.all join.path ∧ tree'.SpansAll true join.namedPaths t := by
  obtain ⟨tree₁, t, q, -, -, hpath, hw₁, hhas₁, h⟩ := addJoin_reached hroot hw h
  obtain ⟨hext', -⟩ := addPaths_eq_ok hw₁.unchecked hhas₁ h
  exact ⟨t, hhas₁.mono hext'.cores_prefix, hpath, addPaths_spans hw₁.unchecked hhas₁ h⟩

theorem addJoins_brings (hroot : tree.root.path = []) (hw : tree.Walked catalog true)
    (h : (tree.addJoins catalog joins).run p = .ok tree' p') :
    ∀ join ∈ joins, ∃ t, tree'.Has t ∧ t.path = Path.all join.path ∧
      tree'.SpansAll true join.namedPaths t := by
  -- what a join has brought in stays there while the joins behind it are added
  have hall : ∀ join ∈ Keyed.sortBy JoinOf.path joins, ∃ t, tree'.Has t ∧
      t.path = Path.all join.path ∧ tree'.SpansAll true join.namedPaths t := by
    refine addJoins_induct (P := fun done mid _ => ∀ join ∈ done, ∃ t, mid.Has t ∧
      t.path = Path.all join.path ∧ mid.SpansAll true join.namedPaths t) hroot hw nofun ?_ h
    intro done join mid mid' q r _ hroot hw hdone hrun
    have hsteps : Steps catalog [join] (mid, q.nextNumber) (mid', r.nextNumber) :=
      (addJoin_eq_ok hroot List.mem_cons_self hw hrun).1
    intro join' hjoin'
    rcases List.mem_append.1 hjoin' with hjoin' | hjoin'
    · obtain ⟨t, hhas, hpath, hspans⟩ := hdone join' hjoin'
      exact ⟨t, hhas.mono hsteps.cores_prefix, hpath, hspans.mono hsteps.cores_prefix rfl rfl⟩
    · obtain rfl := List.mem_singleton.1 hjoin'
      exact addJoin_brings hroot hw hrun
  exact fun join hjoin => hall join ((Keyed.sortBy_perm JoinOf.path joins).symm.subset hjoin)

/-- There is a table wherever explicit joins lead. -/
theorem addJoins_has {access : Access} {start : JoinTree} {n : Nat} {hops : TablePath} {b : Access}
    (hstart : Starts access n start) (hn : p.nextNumber = n + 1)
    (h : (start.addJoins catalog joins).run p = .ok tree p') (hlead : LeadOver joins hops)
    (hwalk : catalog.walk? true access hops = some b) : ∃ s, tree.Has s ∧ s.path = hops := by
  obtain ⟨hsteps, -⟩ := addJoins_eq_ok hstart.path hstart.walked h
  have hw : tree.Walked catalog true := hsteps.walked hstart.walked
  have htree : tree.IsTree := by
    have hgrows : GrowsTo catalog (start, p.nextNumber) (tree, p'.nextNumber) :=
      Relation.ReflTransGen.mono (fun _ _ => Step.grows) _ _ hsteps
    refine hgrows.isTree (fun m hm => ?_) hstart.isTree
    have hm : m ∈ start.numbers := hm
    rw [hstart.numbers_eq, List.mem_singleton] at hm
    exact hm ▸ hn ▸ Nat.lt_succ_self n
  have haccess : tree.root.access = access := (root_access hsteps.cores_prefix).trans hstart.access
  obtain ⟨join, hjoin, hlead⟩ := hlead
  obtain ⟨t, ht, hpath, hspans⟩ := addJoins_brings hstart.path hstart.walked h join hjoin
  rcases hlead with hway | ⟨path, hmem, hne, hway⟩
  · exact htree.exists_has ht (hpath ▸ hway)
  · -- the relationships end on the way to the joined table, or behind it
    rcases List.prefix_or_prefix_of_prefix hway (List.prefix_append _ _) with hshort | hlong
    · exact htree.exists_has ht (hpath ▸ hshort)
    · obtain ⟨rest, rfl⟩ := hlong
      have hrest := (List.prefix_append_right_inj _).1 hway
      rw [Catalog.walk?_append, ← hpath, ← haccess, hw t ht, Option.bind_some] at hwalk
      obtain ⟨s, hs, hspath⟩ := (hspans path hmem hne).exists_has hw.unchecked ht hrest hwalk
      exact ⟨s, hs, hspath.trans (congrArg (· ++ rest) hpath)⟩

/-- Paths that explicit joins cover may be left out of those that are added behind the joins. -/
theorem addPaths_of_covers {access : Access} {start : JoinTree} {n : Nat} {paths more : List String}
    (hstart : Starts access n start) (hn : p.nextNumber = n + 1)
    (h : (start.addJoins catalog joins).run p = .ok tree p')
    (hresolves : ∀ path ∈ paths, catalog.Resolves true access (Path.all path))
    (hcovers : ∀ path ∈ paths, catalog.Covers joins access path) :
    tree.addPaths catalog tree.root (paths ++ more) true =
      tree.addPaths catalog tree.root more true := by
  obtain ⟨hsteps, -⟩ := addJoins_eq_ok hstart.path hstart.walked h
  have hw : tree.Walked catalog false := (hsteps.walked hstart.walked).unchecked
  have hroot : tree.root.path = [] :=
    (root_path hsteps.cores_prefix).trans hstart.path
  have haccess : tree.root.access = access := (root_access hsteps.cores_prefix).trans hstart.access
  rw [← haccess] at hresolves hcovers
  refine addPaths_of_spans hw .root (fun path hmem _ => ?_) hresolves
  refine spans_of_has hroot hw .root (hresolves path hmem) fun hops b hne hway hwalk => ?_
  obtain ⟨s, hs, hspath⟩ :=
    addJoins_has hstart hn h (hcovers path hmem hops b hne hway hwalk) (haccess ▸ hwalk)
  exact ⟨s, hs, by rw [hspath, hroot, List.nil_append]⟩

end JoinTree
end QueryCompiler
