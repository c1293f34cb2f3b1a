import QueryCompiler.Proofs.Build.Reports
import QueryCompiler.Proofs.JoinTree.Likeness
import QueryCompiler.Proofs.JoinTree.Growth

/-!
# What a join tree gains

Whatever is done to a join tree, its tables keep their places, their paths and their numbers, and the
tables that are new stand behind them and have been reported. This is said of every task, of any tree
(`Gains`); what is known of trees from their tables or from the events is read off it.
-/

namespace QueryCompiler

open Build

namespace JoinTree

variable {catalog : Catalog} {tree tree' tree'' : JoinTree} {new more : List Event}

/-- The tables of the first tree are those of the second up to new ones behind them, and these were
reported. -/
def Gains (tree tree' : JoinTree) (new : List Event) : Prop :=
  ∃ cores, tree'.cores = tree.cores ++ cores ∧
    new = cores.map fun core => .joined core.2.2.model.name

namespace Gains

theorem refl (tree : JoinTree) : tree.Gains tree [] :=
  ⟨[], (List.append_nil _).symm, rfl⟩

theorem trans (h : tree.Gains tree' new) (h' : tree'.Gains tree'' more) :
    tree.Gains tree'' (new ++ more) := by
  obtain ⟨cores, hcores, rfl⟩ := h
  obtain ⟨cores', hcores', rfl⟩ := h'
  exact ⟨cores ++ cores', by rw [hcores', hcores, List.append_assoc], List.map_append.symm⟩

theorem of_cores_eq (h : tree'.cores = tree.cores) : tree.Gains tree' [] :=
  ⟨[], by rw [h, List.append_nil], rfl⟩

theorem cores_prefix (h : tree.Gains tree' new) : tree.cores <+: tree'.cores := by
  obtain ⟨cores, hcores, -⟩ := h
  exact hcores ▸ List.prefix_append _ _

end Gains

/-! ## Tasks -/

theorem join_gains (t : Table) (name : String) (r : Relation) :
    Reports (fun u => tree.Gains u.1) (tree.join catalog t name r) := by
  rw [join]
  split
  · exact .pure (.refl tree)
  · refine Reports.bind_silent (.ofExcept fun _ _ => rfl) fun access _ _ _ => ?_
    refine Reports.bind_silent (.freshNumber fun _ => rfl) fun number _ _ _ => ?_
    refine Reports.bind (.report rfl (R := fun _ new => new = [.joined access.model.name]) rfl) ?_
    rintro _ _ _ _ _ rfl
    exact .pure ⟨_, cores_extend tree t name r access number, rfl⟩

theorem reachFrom_gains {path segment : String} {checked wildcard : Bool} {rest : List String}
    {t : Table} : Reports (fun u => tree.Gains u.1)
      (reachFrom catalog path checked wildcard rest tree t segment) := by
  induction rest generalizing tree t segment with
  | nil =>
    rw [reachFrom]
    split
    · split
      · exact .pure (.refl tree)
      · exact .reject _
    · refine Reports.bind_silent (.ofExcept fun _ _ => rfl) fun f _ _ _ => ?_
      split
      · refine (join_gains t _ _).bind fun u _ _ new _ hu => ?_
        exact .pure (hu.trans (.refl u.1))
      · exact .pure (.refl tree)
  | cons next rest ih =>
    rw [reachFrom]
    split
    · exact .reject _
    · refine Reports.bind_silent (.ofExcept fun _ _ => rfl) fun f _ _ _ => ?_
      split
      · exact .reject _
      · split
        · split
          · exact .pure (.refl tree)
          · split
            · exact .pure (.refl tree)
            · exact .reject _
        · exact .reject _
      · refine (join_gains t _ _).bind fun u _ _ new _ hu => ?_
        exact ih.mono fun _ _ hmore => hu.trans hmore

theorem addPaths_gains {t : Table} {paths : List String} {checked : Bool} :
    Reports tree.Gains (tree.addPaths catalog t paths checked) := by
  refine Reports.foldlM Gains.refl (fun _ _ _ _ _ => Gains.trans) (fun tree path _ => ?_) tree
  refine reachFrom_gains.bind fun u _ _ new _ hu => ?_
  exact .pure (hu.trans (.refl u.1))

theorem addJoins_gains {joins : List Join} :
    Reports tree.Gains (tree.addJoins catalog joins) := by
  refine Reports.foldlM Gains.refl (fun _ _ _ _ _ => Gains.trans) (fun tree join _ => ?_) tree
  rw [addJoin_eq]
  split
  · exact .reject _
  · refine reachFrom_gains.bind fun u _ _ new _ hu => ?_
    simp only
    split
    · have happlied : tree.Gains (u.1.applyJoin u.2.1.path join) (new ++ []) :=
        hu.trans (.of_cores_eq (cores_applyJoin u.1 u.2.1.path join))
      rw [List.append_nil] at happlied
      exact addPaths_gains.mono fun _ _ hmore => happlied.trans hmore
    · exact .reject _

theorem addEnforcedPaths_gains : Reports tree.Gains (tree.addEnforcedPaths catalog) :=
  Reports.foldlM Gains.refl (fun _ _ _ _ _ => Gains.trans) (fun _ _ _ => addPaths_gains) tree

theorem selectPaths_gains {paths : List String} :
    Reports (fun u => tree.Gains u.1) (selectPaths catalog paths tree) := by
  induction paths generalizing tree with
  | nil => exact .pure (.refl tree)
  | cons path paths ih =>
    rw [selectPaths]
    refine reachFrom_gains.bind fun u _ _ new _ hu => ?_
    refine ih.bind fun u' _ _ more _ hu' => .pure ?_
    have hchosen : u.1.Gains u'.1 ([] ++ more) :=
      .trans (.of_cores_eq (cores_mapTables u.1 _ fun _ => by split <;> rfl)) hu'
    rw [List.append_nil]
    exact hu.trans hchosen

theorem select_gains {paths : Option (List String)} :
    Reports tree.Gains (tree.select catalog paths) := by
  cases paths with
  | none => exact .pure (.of_cores_eq (cores_mapTables tree _ fun _ => rfl))
  | some paths =>
    refine selectPaths_gains.bind fun u _ _ new _ hu => .pure ?_
    exact hu.trans (.of_cores_eq (cores_mapTables u.1 _ fun _ => by split <;> rfl))

end JoinTree
end QueryCompiler
