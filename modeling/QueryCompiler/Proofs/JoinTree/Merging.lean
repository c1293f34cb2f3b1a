import QueryCompiler.Proofs.JoinTree.Spanning
import QueryCompiler.Proofs.JoinTree.Stages

/-!
# Merging select lists

The tables of a request with a select list are at paths that do not depend on the order of the list:
those that the request names, those that the list passes, and those that the rules on these name. So a
list of the paths of two other lists can be followed if both of these can, and brings in the tables
that one or the other of them does.
-/

namespace QueryCompiler

/-- Tables that are joined as the same join asks for are joined alike. -/
theorem Joined.Follows.eq {j j' : Joined} {join? : Option Join} (h : j.Follows join?)
    (h' : j'.Follows join?) :
    j.type = j'.type ∧ j.condition = j'.condition ∧ j.ignoreDeleted = j'.ignoreDeleted := by
  cases join? with
  | some join =>
    obtain ⟨htype, hcondition, hignore⟩ := h
    obtain ⟨htype', hcondition', hignore'⟩ := h'
    exact ⟨htype.trans htype'.symm, hcondition.trans hcondition'.symm, hignore.trans hignore'.symm⟩
  | none =>
    obtain ⟨htype, hcondition, hignore⟩ := h
    obtain ⟨htype', hcondition', hignore'⟩ := h'
    exact ⟨htype.trans htype'.symm, hcondition.trans hcondition'.symm, hignore.trans hignore'.symm⟩

namespace JoinTree

open Build

variable {catalog : Catalog} {checked checked' ignoreDeleted : Bool} {a : Access} {joins : List Join}
  {tree tree' : JoinTree} {t t' : Table} {x : TablePath} {p p' : Progress} {n n' : Nat}

/-! ## Tables of one path -/

theorem IsTree.exists_joined (htree : tree.IsTree) (ht : t ∈ tree.tables) (hne : t.path ≠ []) :
    ∃ j ∈ tree.joined, j.toTable = t := by
  rcases List.mem_cons.1 ht with rfl | ht
  · exact absurd htree.root hne
  · exact List.mem_map.1 ht

/-- Tables of one path, in trees made for the same request, are read alike. -/
theorem Stands.ignoreDeleted_eq (h : Stands catalog checked a ignoreDeleted joins tree n)
    (h' : Stands catalog checked' a ignoreDeleted joins tree' n') (ht : t ∈ tree.tables)
    (ht' : t' ∈ tree'.tables) (hpath : t.path = t'.path) : t.ignoreDeleted = t'.ignoreDeleted := by
  by_cases hroot : t.path = []
  · rw [h.isTree.eq_root ht (hroot.trans h.isTree.root.symm),
      h'.isTree.eq_root ht' ((hpath.symm.trans hroot).trans h'.isTree.root.symm), h.serves.root,
      h'.serves.root]
  · obtain ⟨j, hj, rfl⟩ := h.isTree.exists_joined ht hroot
    obtain ⟨j', hj', rfl⟩ := h'.isTree.exists_joined ht' (hpath ▸ hroot)
    have hfollows := h.serves.follows j hj
    rw [hpath] at hfollows
    exact (hfollows.eq (h'.serves.follows j' hj')).2.2

/-! ## Rules -/

/-- The rule on a table names a path that leads to another table or past it. -/
def Enforces (owner : Table) (x : TablePath) : Prop :=
  ∃ c ∈ owner.access.enforced? owner.ignoreDeleted, ∃ name ∈ c.joinPaths, name ≠ "" ∧
    x <+: owner.path ++ Path.all name

theorem Enforces.congr (h : Enforces t x) (hpath : t.path = t'.path)
    (haccess : t.access = t'.access) (hignore : t.ignoreDeleted = t'.ignoreDeleted) :
    Enforces t' x := by
  rw [Enforces, ← hpath, ← haccess, ← hignore]
  exact h

theorem RuleLeads.congr (h : RuleLeads catalog t) (haccess : t.access = t'.access)
    (hignore : t.ignoreDeleted = t'.ignoreDeleted) : RuleLeads catalog t' := by
  rw [RuleLeads, ← haccess, ← hignore]
  exact h

theorem addPaths_filter (catalog : Catalog) (tree : JoinTree) (t : Table) (paths : List String)
    (checked : Bool) : tree.addPaths catalog t (paths.filter fun p => !p.isEmpty) checked =
      tree.addPaths catalog t paths checked := by
  rw [addPaths, addPaths, List.filter_filter]
  simp only [Bool.and_self]

theorem addEnforcedPaths_enforces (hw : tree.Walked catalog false)
    (h : (tree.addEnforcedPaths catalog).run p = .ok tree' p') :
    ∀ s, tree'.Has s → tree.Has s ∨ ∃ owner ∈ tree.tables, Enforces owner s.path := by
  refine (run_foldlM_good (fun mid => GrownFrom catalog tree mid ∧ ∀ s, mid.Has s → tree.Has s ∨
    ∃ owner ∈ tree.tables, Enforces owner s.path) ?_ ⟨.refl hw, fun _ => .inl⟩ h).2
  rintro mid ⟨hgrown, hmid⟩ t ht final q q' hrun
  have hhas : tree.Has t := List.mem_map_of_mem ht
  refine ⟨hgrown.addRule hhas hrun, fun s hs => ?_⟩
  rw [← addPaths_filter] at hrun
  rcases (addPaths_eq_ok hgrown.1 (hgrown.has hhas) hrun).2 s hs with hs | ⟨name, hname, hway⟩
  · exact hmid s hs
  obtain ⟨hname, hne⟩ := List.mem_filter.1 hname
  cases hc : t.access.enforced? t.ignoreDeleted with
  | none => simp [hc] at hname
  | some c =>
    rw [hc] at hname
    exact .inr ⟨t, ht, c, hc, name, hname, by simpa using hne, hway⟩

/-- The rules bring in the tables that they name, and no others. -/
theorem addEnforcedPaths_reaches (htree : tree.IsTree) (hw : tree.Walked catalog false)
    (h : (tree.addEnforcedPaths catalog).run p = .ok tree' p') :
    tree'.Reaches x ↔ tree.Reaches x ∨ (∃ owner ∈ tree.tables, Enforces owner x) ∧
      ∃ b, catalog.walk? false tree.root.access x = some b := by
  obtain ⟨hext, -⟩ := addEnforcedPaths_eq_ok hw h
  have hw' := hext.walked hw
  have haccess : tree'.root.access = tree.root.access := root_access hext.cores_prefix
  constructor
  · intro hx
    obtain ⟨s, hs, rfl⟩ := reaches_iff.1 hx
    refine (addEnforcedPaths_enforces hw h s hs).imp (fun hs => reaches_iff.2 ⟨s, hs, rfl⟩) ?_
    exact fun hforced => ⟨hforced, s.access, haccess ▸ hw' s hs⟩
  · rintro (hx | ⟨⟨owner, howner, c, hc, name, hname, hne, hway⟩, b, hb⟩)
    · exact hx.mono hext.cores_prefix
    have howner' : tree.Has owner := List.mem_map_of_mem howner
    rcases List.prefix_or_prefix_of_prefix hway (List.prefix_append _ _) with hx | ⟨hops, rfl⟩
    · exact (htree.reaches_prefix ⟨owner, howner, rfl⟩ hx).mono hext.cores_prefix
    · have hspans := addEnforcedPaths_spans hw h owner howner c hc name hname hne
      rw [Catalog.walk?_append, hw owner howner'] at hb
      exact reaches_iff.2 (hspans.exists_has hw' (hext.cores_prefix.subset howner')
        ((List.prefix_append_right_inj _).1 hway) hb)

/-! ## Lists of the paths of two lists -/

/-- How the tables of a request are made from those that it names if these paths are selected:
`chosen` are the tables after the selection, and `tree` has those that rules name too. -/
structure Listed (catalog : Catalog) (a : Access) (ignoreDeleted : Bool) (joins : List Join)
    (named : JoinTree) (paths : List String) (chosen tree : JoinTree) : Prop where
  selected : ∃ n, Stands catalog true a ignoreDeleted joins chosen n
  made : ∃ n, Stands catalog false a ignoreDeleted joins tree n
  leads : ∀ path ∈ paths, catalog.Leads true true a path
  rules : ∀ t ∈ chosen.tables, RuleLeads catalog t
  passes : ∀ x, chosen.Reaches x ↔ named.Reaches x ∨ catalog.Passes a paths x
  forced : ∀ x, tree.Reaches x ↔ chosen.Reaches x ∨
    (∃ owner ∈ chosen.tables, Enforces owner x) ∧ ∃ b, catalog.walk? false a x = some b

theorem Stands.listed {named chosen : JoinTree} {paths : List String} {q : Progress}
    (h : Stands catalog true a ignoreDeleted joins named p.nextNumber)
    (hselect : (named.select catalog (some paths)).run p = .ok chosen q)
    (hforced : (chosen.addEnforcedPaths catalog).run q = .ok tree p') :
    Listed catalog a ignoreDeleted joins named paths chosen tree := by
  have hchosen := h.select hselect
  have hw := hchosen.walked.unchecked
  refine ⟨⟨_, hchosen⟩, ⟨_, hchosen.addEnforcedPaths hforced⟩, ?_,
    addEnforcedPaths_leads hw hforced, fun x => ?_, fun x => ?_⟩
  · exact h.access ▸ select_some_leads h.isTree.root h.walked hselect
  · exact h.access ▸ select_some_reaches h.isTree.root h.walked hselect hchosen.isTree
  · exact hchosen.access ▸ addEnforcedPaths_reaches hchosen.isTree hw hforced

section Union

variable {named chosen chosen' merged final : JoinTree} {paths more both : List String}
  (hboth : ∀ path, path ∈ both ↔ path ∈ paths ∨ path ∈ more)
  (h : Listed catalog a ignoreDeleted joins named paths chosen tree)
  (h' : Listed catalog a ignoreDeleted joins named more chosen' tree')
include hboth h h'

theorem Listed.merged_reaches
    (hmerged : ∀ x, merged.Reaches x ↔ named.Reaches x ∨ catalog.Passes a both x) :
    merged.Reaches x ↔ chosen.Reaches x ∨ chosen'.Reaches x := by
  rw [hmerged, h.passes, h'.passes, Catalog.passes_union hboth, or_or_distrib_left]

/-- Two lists bring in the tables that one or the other of them does. -/
theorem Listed.reaches_union
    (hmerged : Listed catalog a ignoreDeleted joins named both merged final) :
    final.Reaches x ↔ tree.Reaches x ∨ tree'.Reaches x := by
  have hreaches := fun y => h.merged_reaches hboth h' (x := y) hmerged.passes
  obtain ⟨_, hstands⟩ := h.selected
  obtain ⟨_, hstands'⟩ := h'.selected
  obtain ⟨_, hmergedStands⟩ := hmerged.selected
  have hcarry : ∀ {tree tree' : JoinTree} {n n' : Nat},
      Stands catalog true a ignoreDeleted joins tree n →
      Stands catalog true a ignoreDeleted joins tree' n' → ∀ {owner : Table}, owner ∈ tree.tables →
      tree'.Reaches owner.path → Enforces owner x → ∃ owner ∈ tree'.tables, Enforces owner x := by
    rintro tree tree' _ _ hs hs' owner howner ⟨t, ht, hpath⟩ hforced
    refine ⟨t, ht, hforced.congr hpath.symm ?_ (hs.ignoreDeleted_eq hs' howner ht hpath.symm)⟩
    exact hs.access_eq hs' (List.mem_map_of_mem howner) (List.mem_map_of_mem ht) hpath.symm
  have howners : (∃ owner ∈ merged.tables, Enforces owner x) ↔
      (∃ owner ∈ chosen.tables, Enforces owner x) ∨ ∃ owner ∈ chosen'.tables, Enforces owner x := by
    constructor
    · rintro ⟨owner, howner, hforced⟩
      exact ((hreaches owner.path).1 ⟨owner, howner, rfl⟩).imp
        (fun hx => hcarry hmergedStands hstands howner hx hforced)
        fun hx => hcarry hmergedStands hstands' howner hx hforced
    · rintro (⟨owner, howner, hforced⟩ | ⟨owner, howner, hforced⟩)
      · exact hcarry hstands hmergedStands howner
          ((hreaches _).2 (.inl ⟨owner, howner, rfl⟩)) hforced
      · exact hcarry hstands' hmergedStands howner
          ((hreaches _).2 (.inr ⟨owner, howner, rfl⟩)) hforced
  rw [hmerged.forced, h.forced, h'.forced, hreaches, howners, or_and_right]
  exact or_or_or_comm

/-- If two lists can be followed, so can a list of all their paths. -/
theorem Listed.exists_run (hnamed : Stands catalog true a ignoreDeleted joins named p.nextNumber) :
    ∃ merged q final p', (named.select catalog (some both)).run p = .ok merged q ∧
      (merged.addEnforcedPaths catalog).run q = .ok final p' := by
  have hleads : ∀ path ∈ both, catalog.Leads true true named.root.access path := fun path hpath =>
    hnamed.access ▸ ((hboth path).1 hpath).elim (h.leads path) (h'.leads path)
  obtain ⟨merged, q, hselect⟩ := exists_select hnamed.walked hleads p
  have hmerged := hnamed.select hselect
  have hpasses := fun x =>
    select_some_reaches hnamed.isTree.root hnamed.walked hselect hmerged.isTree (x := x)
  rw [hnamed.access] at hpasses
  have hrules : ∀ t ∈ merged.tables, RuleLeads catalog t := by
    intro t ht
    have hcarry : ∀ {chosen : JoinTree} {n : Nat},
        Stands catalog true a ignoreDeleted joins chosen n →
        (∀ t ∈ chosen.tables, RuleLeads catalog t) → chosen.Reaches t.path → RuleLeads catalog t := by
      rintro chosen _ hs hrules ⟨s, hs', hpath⟩
      exact (hrules s hs').congr (hs.access_eq hmerged (List.mem_map_of_mem hs')
        (List.mem_map_of_mem ht) hpath) (hs.ignoreDeleted_eq hmerged hs' ht hpath)
    obtain ⟨_, hstands⟩ := h.selected
    obtain ⟨_, hstands'⟩ := h'.selected
    rcases (h.merged_reaches hboth h' hpasses).1 ⟨t, ht, rfl⟩ with hx | hx
    · exact hcarry hstands h.rules hx
    · exact hcarry hstands' h'.rules hx
  obtain ⟨final, p', hforced⟩ := addEnforcedPaths_of_leads hmerged.walked.unchecked hrules q
  exact ⟨merged, q, final, p', hselect, hforced⟩

end Union

/-- If the tables of a request can be joined for two select lists, they can be joined for a list of all
their paths. There are the tables then, and the choices on them, that there are for one list or the
other. -/
theorem ofDemand_union {model : String} {d : Demand} {paths more both : List String}
    (hboth : ∀ path, path ∈ both ↔ path ∈ paths ∨ path ∈ more) {q q' : Progress}
    (h : (ofDemand catalog model { d with wanted := .paths (some paths) }).run p = .ok tree q)
    (h' : (ofDemand catalog model { d with wanted := .paths (some more) }).run p = .ok tree' q') :
    ∃ a final p', (ofDemand catalog model { d with wanted := .paths (some both) }).run p =
        .ok final p' ∧
      (∃ n, Stands catalog false a d.ignoreDeleted (Keyed.sortBy JoinOf.path d.joins) tree n) ∧
      (∃ n, Stands catalog false a d.ignoreDeleted (Keyed.sortBy JoinOf.path d.joins) tree' n) ∧
      (∃ n, Stands catalog false a d.ignoreDeleted (Keyed.sortBy JoinOf.path d.joins) final n) ∧
      (∀ x, final.Reaches x ↔ tree.Reaches x ∨ tree'.Reaches x) ∧
      ∀ x c, final.ChoosesAt x c ↔ tree.ChoosesAt x c ∨ tree'.ChoosesAt x c := by
  obtain ⟨named, r, chosen, r', hnamed, hselect, hforced⟩ := (ofDemand_paths_eq_ok rfl).1 h
  obtain ⟨named', s, chosen', s', hnamed', hselect', hforced'⟩ := (ofDemand_paths_eq_ok rfl).1 h'
  -- the tables that the request names are joined by the same run
  obtain ⟨rfl, rfl⟩ := EStateM.Result.ok.inj (hnamed.symm.trans hnamed')
  obtain ⟨a, hmodel, -, hstands⟩ := ofNamed_stands hnamed
  have hlisted := hstands.listed hselect hforced
  have hlisted' := hstands.listed hselect' hforced'
  obtain ⟨merged, r'', final, p', hmerged, hfinal⟩ := hlisted.exists_run hboth hlisted' hstands
  have hunion := hstands.listed hmerged hfinal
  have hrun : (ofDemand catalog model { d with wanted := .paths (some both) }).run p =
      .ok final p' := (ofDemand_paths_eq_ok rfl).2 ⟨named, r, merged, r'', hnamed, hmerged, hfinal⟩
  refine ⟨a, final, p', hrun, hlisted.made, hlisted'.made, hunion.made,
    fun x => hlisted.reaches_union hboth hlisted' hunion, fun x c => ?_⟩
  obtain ⟨b, hb, -, hchooses, -⟩ := ofDemand_selects rfl h
  obtain ⟨b', hb', -, hchooses', -⟩ := ofDemand_selects rfl h'
  obtain ⟨b'', hb'', -, hchooses'', -⟩ := ofDemand_selects rfl hrun
  obtain rfl := Except.ok.inj (hb.symm.trans hb')
  obtain rfl := Except.ok.inj (hb.symm.trans hb'')
  rw [hchooses, hchooses', hchooses'', Catalog.selects_union hboth]

end JoinTree
end QueryCompiler
