import QueryCompiler.Proofs.JoinTree.Choices
import QueryCompiler.Proofs.JoinTree.Explicit
import QueryCompiler.Proofs.JoinTree.Idle

/-!
# The stages of a request's tables

The tables of a request are made in three stages: those that the request names, then those that its
select list passes, and last those that are named by what the tables are held to. What is chosen is
chosen in the second stage. `Stands` is what is known of the tree after each of them.
-/

namespace QueryCompiler.JoinTree

open Build

variable {catalog : Catalog} {checked ignoreDeleted : Bool} {a : Access} {joins : List Join}
  {tree tree' : JoinTree} {x : TablePath} {c : String × Choice} {p p' : Progress} {n n' : Nat}
  {model : String} {d : Demand}

/-! ## Stages -/

theorem ofDemand_paths_eq_ok {paths : Option (List String)} (hd : d.wanted = .paths paths) :
    (ofDemand catalog model d).run p = .ok tree p' ↔ ∃ named q chosen q',
      (ofNamed catalog model d).run p = .ok named q ∧
      (named.select catalog paths).run q = .ok chosen q' ∧
      (chosen.addEnforcedPaths catalog).run q' = .ok tree p' := by
  simp only [ofDemand_of_paths hd, run_bind_eq_ok, exists_and_left]

/-- What is known of the tables of a request at each stage. -/
structure Stands (catalog : Catalog) (checked : Bool) (a : Access) (ignoreDeleted : Bool)
    (joins : List Join) (tree : JoinTree) (next : Nat) : Prop where
  isTree : tree.IsTree
  drawn : ∀ n ∈ tree.numbers, n < next
  access : tree.root.access = a
  walked : tree.Walked catalog checked
  serves : tree.Serves catalog ignoreDeleted joins

theorem GrowsTo.drawn (h : GrowsTo catalog (tree, n) (tree', n')) (hn : ∀ m ∈ tree.numbers, m < n) :
    ∀ m ∈ tree'.numbers, m < n' := by
  obtain ⟨hle, new, hnew, -, hrange⟩ := h.numbers
  have hnew : tree'.numbers = tree.numbers ++ new := hnew
  intro m hm
  rw [hnew, List.mem_append] at hm
  rcases hm with hm | hm
  · exact (hn m hm).trans_le hle
  · exact (hrange m hm).2

/-- Tables of one path have one access. -/
theorem Stands.access_eq {checked' : Bool} {t t' : Table}
    (h : Stands catalog checked a ignoreDeleted joins tree n)
    (h' : Stands catalog checked' a ignoreDeleted joins tree' n') (ht : tree.Has t)
    (ht' : tree'.Has t') (hpath : t.path = t'.path) : t.access = t'.access := by
  have hwalk := h.walked.unchecked t ht
  have hwalk' := h'.walked.unchecked t' ht'
  rw [h.access, hpath, ← h'.access, hwalk'] at hwalk
  exact (Option.some.inj hwalk).symm

theorem Stands.addEnforcedPaths
    (h : Stands catalog checked a ignoreDeleted joins tree p.nextNumber)
    (hrun : (tree.addEnforcedPaths catalog).run p = .ok tree' p') :
    Stands catalog false a ignoreDeleted joins tree' p'.nextNumber := by
  obtain ⟨hext, -⟩ := addEnforcedPaths_eq_ok h.walked.unchecked hrun
  have hgrows := hext.growsTo
  exact ⟨hgrows.isTree h.drawn h.isTree, hgrows.drawn h.drawn,
    (root_access hext.cores_prefix).trans h.access, hext.walked h.walked.unchecked,
    hext.serves h.serves⟩

theorem Stands.select {paths : Option (List String)}
    (h : Stands catalog true a ignoreDeleted joins tree p.nextNumber)
    (hrun : (tree.select catalog paths).run p = .ok tree' p') :
    Stands catalog true a ignoreDeleted joins tree' p'.nextNumber := by
  have hsteps : Steps catalog [] (tree, p.nextNumber) (tree', p'.nextNumber) :=
    select_eq_ok h.walked hrun
  have hgrows := select_growsTo h.walked.unchecked hrun
  exact ⟨hgrows.isTree h.drawn h.isTree, hgrows.drawn h.drawn,
    (root_access hsteps.cores_prefix).trans h.access, hsteps.walked h.walked,
    hsteps.serves h.serves⟩

/-! ## The first stage -/

theorem addJoin_choosesAt {join : Join} (hroot : tree.root.path = [])
    (hw : tree.Walked catalog true) (h : (tree.addJoin catalog join).run p = .ok tree' p') :
    tree'.ChoosesAt x c ↔ tree.ChoosesAt x c := by
  obtain ⟨tree₁, t, q, hext, -, -, hw₁, hhas₁, h⟩ := addJoin_reached hroot hw h
  obtain ⟨hext', -⟩ := addPaths_eq_ok hw₁.unchecked hhas₁ h
  rw [hext'.choosesAt_iff, choosesAt_applyJoin, hext.choosesAt_iff]

theorem addJoins_choosesAt (hroot : tree.root.path = []) (hw : tree.Walked catalog true)
    (h : (tree.addJoins catalog joins).run p = .ok tree' p') :
    tree'.ChoosesAt x c ↔ tree.ChoosesAt x c :=
  addJoins_induct (P := fun _ mid _ => mid.ChoosesAt x c ↔ tree.ChoosesAt x c) hroot hw .rfl
    (fun _ hroot hw hsame hrun => (addJoin_choosesAt hroot hw hrun).trans hsame) h

theorem Starts.not_choosesAt (h : Starts a n tree) : ¬ tree.ChoosesAt x c := by
  rintro ⟨t, ht, -, hc⟩
  rw [tables, h.alone] at ht
  obtain rfl := List.mem_singleton.1 ht
  rw [h.chosen] at hc
  exact absurd hc List.not_mem_nil

/-- Nothing is chosen on the tables that a request names. -/
theorem ofNamed_stands (h : (ofNamed catalog model d).run p = .ok tree p') :
    ∃ a, catalog.access model = .ok a ∧ (∀ x c, ¬ tree.ChoosesAt x c) ∧
      Stands catalog true a d.ignoreDeleted (Keyed.sortBy JoinOf.path d.joins) tree
        p'.nextNumber := by
  obtain ⟨a, start, joined, q, q', hmodel, hstart, hignore, hq, hjoins, h⟩ := ofNamed_eq_ok h
  have hserves := addJoins_serves hstart.path hstart.walked hstart.serves hjoins
  rw [hignore] at hserves
  obtain ⟨hsteps, -⟩ := addJoins_eq_ok hstart.path hstart.walked hjoins
  have hw := hsteps.walked hstart.walked
  obtain ⟨hext, -⟩ := addPaths_eq_ok hw.unchecked .root h
  have hgrows : GrowsTo catalog (start, q.nextNumber) (tree, p'.nextNumber) :=
    (foldlM_growsTo (fun hw hrun => addJoin_growsTo hw hrun) hstart.walked hjoins).trans
      hext.growsTo
  have hdrawn : ∀ n ∈ start.numbers, n < q.nextNumber := by
    rw [hstart.numbers_eq, hq]
    exact List.forall_mem_singleton.2 (Nat.lt_succ_self _)
  refine ⟨a, hmodel, fun x c hc => ?_, hgrows.isTree hdrawn hstart.isTree, hgrows.drawn hdrawn,
    ?_, hext.walked hw, hext.serves hserves⟩
  · rw [hext.choosesAt_iff, addJoins_choosesAt hstart.path hstart.walked hjoins] at hc
    exact hstart.not_choosesAt hc
  · exact (root_access (hsteps.cores_prefix.trans hext.cores_prefix)).trans hstart.access

/-! ## All stages -/

/-- On the tables of a request with a select list, what the list selects is chosen; all tables that it
passes are there. -/
theorem ofDemand_selects {paths : List String} (hd : d.wanted = .paths (some paths))
    (h : (ofDemand catalog model d).run p = .ok tree p') :
    ∃ a, catalog.access model = .ok a ∧
      Stands catalog false a d.ignoreDeleted (Keyed.sortBy JoinOf.path d.joins) tree
        p'.nextNumber ∧
      (∀ x c, tree.ChoosesAt x c ↔ catalog.Selects a paths x c) ∧
      ∀ x, catalog.Passes a paths x → tree.Reaches x := by
  obtain ⟨named, q, chosen, q', hnamed, hselect, h⟩ := (ofDemand_paths_eq_ok hd).1 h
  obtain ⟨a, hmodel, hnone, hstands⟩ := ofNamed_stands hnamed
  have hstands' := hstands.select hselect
  have htree := hstands'.isTree
  obtain ⟨hext, -⟩ := addEnforcedPaths_eq_ok hstands'.walked.unchecked h
  have hroot := hstands.isTree.root
  refine ⟨a, hmodel, hstands'.addEnforcedPaths h, fun x c => ?_, fun x hx => ?_⟩
  · rw [hext.choosesAt_iff, select_some_chooses hroot hstands.walked hselect htree,
      or_iff_right (hnone x c), hstands.access]
  · rw [← hstands.access] at hx
    exact ((select_some_reaches hroot hstands.walked hselect htree).2 (.inr hx)).mono
      hext.cores_prefix

/-- On the tables of a request without a select list, the default fields are chosen, but not on those
that are named only by what is enforced. -/
theorem ofDemand_selects_default (hd : d.wanted = .paths none)
    (h : (ofDemand catalog model d).run p = .ok tree p') :
    ∃ a mid, catalog.access model = .ok a ∧
      Stands catalog false a d.ignoreDeleted (Keyed.sortBy JoinOf.path d.joins) tree
        p'.nextNumber ∧
      IsTree mid ∧ mid.cores <+: tree.cores ∧
      ∀ x c, tree.ChoosesAt x c ↔ ∃ t ∈ mid.tables, t.path = x ∧ c ∈ t.defaultChoices := by
  obtain ⟨named, q, chosen, q', hnamed, hselect, h⟩ := (ofDemand_paths_eq_ok hd).1 h
  obtain ⟨a, hmodel, hnone, hstands⟩ := ofNamed_stands hnamed
  have hstands' := hstands.select hselect
  obtain ⟨hext, -⟩ := addEnforcedPaths_eq_ok hstands'.walked.unchecked h
  refine ⟨a, named, hmodel, hstands'.addEnforcedPaths h, hstands.isTree, ?_, fun x c => ?_⟩
  · obtain ⟨rfl, -⟩ := run_pure_eq_ok.1 hselect
    have hcores := hext.cores_prefix
    rwa [cores_choose] at hcores
  · obtain ⟨rfl, -⟩ := run_pure_eq_ok.1 hselect
    rw [hext.choosesAt_iff, choosesAt_choose, or_iff_right (hnone x c)]

end QueryCompiler.JoinTree
