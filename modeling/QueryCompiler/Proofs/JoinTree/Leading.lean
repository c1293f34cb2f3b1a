import QueryCompiler.Proofs.JoinTree.Demand

/-!
# Where a path leads

Which tables a path needs and what it ends with follow from the catalog alone (`Catalog.LeadsTo`).
So a path can be reached in one tree if it can be reached in any other, whatever is joined already and
in whatever order; it leads to the same place there, and brings in no tables but those on the way.
-/

namespace QueryCompiler

/-- Where segments lead from a model: over these relationships, to this model, and to what is named
there. -/
inductive Catalog.LeadsTo (catalog : Catalog) (checked wildcard : Bool) :
    Access → List String → TablePath → Access → Target → Prop where
  | wildcard {a : Access} : wildcard = true → LeadsTo catalog checked wildcard a ["*"] [] a .wildcard
  | field {a : Access} {name : String} {f : Field} : name ≠ "*" → a.field name checked = .ok f →
      f.isRelation = false → LeadsTo catalog checked wildcard a [name] [] a (.found (.field f))
  | member {a : Access} {name next : String} {f : Field} {g : GroupField} {b : BasicField} :
      name ≠ "*" → a.field name checked = .ok f → f.kind = .group g →
      (next = "*" && wildcard) = false → g.member? next = some b →
      LeadsTo catalog checked wildcard a [name, next] [] a (.found (.member f b))
  | groupWildcard {a : Access} {name : String} {f : Field} {g : GroupField} : wildcard = true →
      name ≠ "*" → a.field name checked = .ok f → f.kind = .group g →
      LeadsTo catalog checked wildcard a [name, "*"] [] a (.groupWildcard f)
  | relation {a b : Access} {name : String} {f : Field} {r : Relation} : name ≠ "*" →
      a.field name checked = .ok f → f.kind = .relation r → catalog.target a.model name r = .ok b →
      LeadsTo catalog checked wildcard a [name] [name] b (.found (.field f))
  | through {a b c : Access} {name next : String} {rest : List String} {f : Field} {r : Relation}
      {hops : TablePath} {target : Target} : name ≠ "*" → a.field name checked = .ok f →
      f.kind = .relation r → catalog.target a.model name r = .ok b →
      LeadsTo catalog checked wildcard b (next :: rest) hops c target →
      LeadsTo catalog checked wildcard a (name :: next :: rest) (name :: hops) c target

/-- The segments lead somewhere. -/
def Catalog.Leads (catalog : Catalog) (checked wildcard : Bool) (a : Access) (path : String) : Prop :=
  ∃ hops b target, catalog.LeadsTo checked wildcard a (Path.all path) hops b target

namespace JoinTree

open Build

variable {catalog : Catalog} {checked wildcard : Bool} {tree tree' : JoinTree} {t t' : Table}
  {p p' : Progress} {path : String} {target : Target} {hops : TablePath} {b : Access}

/-! ## Joining -/

/-- A relationship with a target can be joined to every tree. -/
theorem exists_join (tree : JoinTree) {name : String} {r : Relation}
    (htarget : catalog.target t.access.model name r = .ok b) (p : Progress) :
    ∃ tree' j p', (tree.join catalog t name r).run p = .ok (tree', j) p' := by
  rw [join]
  cases tree.child? t name with
  | some j => exact ⟨tree, j, p, rfl⟩
  | none =>
    rw [htarget]
    exact ⟨_, _, _, rfl⟩

/-! ## Reaching -/

/-- What is reached is where the path leads, and only tables on the way are joined. -/
theorem Arrives.leadsTo {segments : List String} (hw : tree.Walked catalog false) (ht : tree.Has t)
    (h : Arrives catalog checked wildcard segments tree t p tree' t' target p') :
    ∃ hops, catalog.LeadsTo checked wildcard t.access segments hops t'.access target ∧
      t'.path = t.path ++ hops ∧ ∀ x, tree'.Has x → tree.Has x ∨ x.path <+: t'.path := by
  induction h with
  | wildcard hwildcard => exact ⟨[], .wildcard hwildcard, (List.append_nil _).symm, fun _ => .inl⟩
  | field hstar hf hrelation =>
    exact ⟨[], .field hstar hf hrelation, (List.append_nil _).symm, fun _ => .inl⟩
  | groupWildcard hwildcard hstar hf hk =>
    exact ⟨[], .groupWildcard hwildcard hstar hf hk, (List.append_nil _).symm, fun _ => .inl⟩
  | member hstar hf hk hnext hb =>
    exact ⟨[], .member hstar hf hk hnext hb, (List.append_nil _).symm, fun _ => .inl⟩
  | @relation name _ _ _ _ _ _ _ _ hstar hf hk hjoin =>
    obtain ⟨-, -, hpath, hhop, hnew⟩ := join_eq_ok hw ht hf hk hjoin
    obtain ⟨f', r', hf', hk', htarget⟩ := Catalog.hop?_eq_some.1 hhop
    obtain rfl := Except.ok.inj (hf.symm.trans hf')
    refine ⟨[name], .relation hstar hf hk' htarget, hpath, fun x hx => (hnew x hx).imp_right ?_⟩
    intro hx
    exact hx ▸ List.prefix_refl _
  | @through name _ _ _ _ _ _ _ _ _ _ _ _ _ _ hstar hf hk hjoin _ ih =>
    obtain ⟨hext, hhas, hpath, hhop, hnew⟩ := join_eq_ok hw ht hf hk hjoin
    obtain ⟨hops, hleads, ht', hnew'⟩ := ih (hext.unchecked.walked hw) hhas
    obtain ⟨f', r', hf', hk', htarget⟩ := Catalog.hop?_eq_some.1 hhop
    obtain rfl := Except.ok.inj (hf.symm.trans hf')
    refine ⟨name :: hops, .through hstar hf hk' htarget hleads, ?_, fun x hx => ?_⟩
    · rw [ht', hpath, List.append_assoc, List.singleton_append]
    · rcases hnew' x hx with hx | hx
      · refine (hnew x hx).imp_right fun hx => ?_
        rw [hx, ht']
        exact List.prefix_append _ _
      · exact .inr hx

/-- Where a path leads can be reached in every tree. -/
theorem reachFrom_of_leadsTo {rest : List String} {segment : String} (hw : tree.Walked catalog false)
    (ht : tree.Has t)
    (h : catalog.LeadsTo checked wildcard t.access (segment :: rest) hops b target) (p : Progress) :
    ∃ tree' t' p', (reachFrom catalog path checked wildcard rest tree t segment).run p =
      .ok (tree', t', target) p' ∧ t'.path = t.path ++ hops := by
  have hhere : t.path = t.path ++ [] := (List.append_nil _).symm
  induction rest generalizing tree t segment p hops with
  | nil =>
    cases h with
    | wildcard hwildcard =>
      refine ⟨tree, t, p, ?_, hhere⟩
      rw [reachFrom, if_pos rfl, if_pos hwildcard]
      rfl
    | field hstar hf hrelation =>
      refine ⟨tree, t, p, ?_, hhere⟩
      rw [reachFrom_field hstar hf hrelation]
      rfl
    | relation hstar hf hk htarget =>
      obtain ⟨tree', j, p', hjoin⟩ := exists_join tree htarget p
      obtain ⟨-, -, hpath, -, -⟩ := join_eq_ok hw ht hf hk hjoin
      refine ⟨tree', j.toTable, p', ?_, hpath⟩
      rw [reachFrom_relation hstar hf hk]
      exact run_bind_eq_ok.2 ⟨_, _, hjoin, rfl⟩
  | cons next rest ih =>
    cases h with
    | member hstar hf hk hnext hb =>
      refine ⟨tree, t, p, ?_, hhere⟩
      rw [reachFrom_member hstar hf hk hnext hb]
      rfl
    | groupWildcard hwildcard hstar hf hk =>
      refine ⟨tree, t, p, ?_, hhere⟩
      rw [reachFrom_groupWildcard hstar hf hk hwildcard]
      rfl
    | @through _ c _ _ _ _ f r hops _ hstar hf hk htarget hrest =>
      obtain ⟨tree₁, j, q, hjoin⟩ := exists_join tree htarget p
      obtain ⟨hext, hhas, hpath, hhop, -⟩ := join_eq_ok hw ht hf hk hjoin
      have haccess : j.access = c :=
        Option.some.inj (hhop.symm.trans (Catalog.hop?_eq_some.2 ⟨f, r, hf, hk, htarget⟩))
      obtain ⟨tree', t', p', hreach, ht'⟩ := ih (hext.unchecked.walked hw) hhas (haccess ▸ hrest) q
        (List.append_nil _).symm
      refine ⟨tree', t', p', ?_, ?_⟩
      · rw [reachFrom_through hstar hf hk]
        exact run_bind_eq_ok.2 ⟨_, _, hjoin, hreach⟩
      · rw [ht', hpath, List.append_assoc, List.singleton_append]

theorem reach_leads (hw : tree.Walked catalog false) (ht : tree.Has t)
    (h : (tree.reach catalog t path checked wildcard).run p = .ok (tree', t', target) p') :
    catalog.Leads checked wildcard t.access path := by
  obtain ⟨hops, hleads, -⟩ := (arrives_of_run h).leadsTo hw ht
  exact ⟨hops, t'.access, target, hleads⟩

theorem reach_of_leads (hw : tree.Walked catalog false) (ht : tree.Has t)
    (h : catalog.Leads checked wildcard t.access path) (p : Progress) :
    ∃ r p', (tree.reach catalog t path checked wildcard).run p = .ok r p' := by
  obtain ⟨hops, b, target, hleads⟩ := h
  obtain ⟨tree', t', p', hreach, -⟩ := reachFrom_of_leadsTo hw ht hleads p
  exact ⟨_, p', hreach⟩

/-! ## Reaching what is named -/

/-- The tree has grown from another one. -/
def GrownFrom (catalog : Catalog) (tree tree' : JoinTree) : Prop :=
  tree'.Walked catalog false ∧ tree.cores <+: tree'.cores

theorem GrownFrom.refl (hw : tree.Walked catalog false) : GrownFrom catalog tree tree :=
  ⟨hw, List.prefix_refl _⟩

theorem GrownFrom.has (h : GrownFrom catalog tree tree') (ht : tree.Has t) : tree'.Has t :=
  h.2.subset ht

theorem GrownFrom.extends {mid : JoinTree} {n n' : Nat} (h : GrownFrom catalog tree mid)
    (hext : Extends catalog checked (mid, n) (tree', n')) : GrownFrom catalog tree tree' :=
  ⟨hext.unchecked.walked h.1, h.2.trans hext.cores_prefix⟩

section Added

variable {paths : List String} (ht : tree.Has t)
include ht

theorem GrownFrom.addPath {mid : JoinTree} (h : GrownFrom catalog tree mid)
    (hrun : EStateM.run (do
      let (reached, _, _) ← mid.reach catalog t path checked false
      return reached) p = .ok tree' p') : GrownFrom catalog tree tree' := by
  obtain ⟨⟨_, t', target⟩, q, hreach, hrun⟩ := run_bind_eq_ok.1 hrun
  obtain ⟨rfl, rfl⟩ := run_pure_eq_ok.1 hrun
  obtain ⟨hext, -⟩ := reach_eq_ok h.1 (h.has ht) hreach
  exact h.extends hext

/-- If paths have been added, each of them leads somewhere. -/
theorem addPaths_leads (hw : tree.Walked catalog false)
    (h : (tree.addPaths catalog t paths checked).run p = .ok tree' p') :
    ∀ path ∈ paths, path ≠ "" → catalog.Leads checked false t.access path := by
  intro path hpath hne
  have hmem : path ∈ Keyed.setOf (paths.filter fun p => !p.isEmpty) :=
    Keyed.mem_setOf.2 (List.mem_filter.2 ⟨hpath, by simpa using hne⟩)
  obtain ⟨mid, q, _, _, hmid, hrun⟩ := run_foldlM (GrownFrom catalog tree)
    (fun _ hmid _ _ _ _ _ hrun => hmid.addPath ht hrun) (.refl hw) h path hmem
  obtain ⟨⟨_, t', target⟩, _, hreach, -⟩ := run_bind_eq_ok.1 hrun
  exact reach_leads hmid.1 (hmid.has ht) hreach

/-- Paths that lead somewhere can be added to every tree. -/
theorem addPaths_of_leads (hw : tree.Walked catalog false)
    (h : ∀ path ∈ paths, path ≠ "" → catalog.Leads checked false t.access path) (p : Progress) :
    ∃ tree' p', (tree.addPaths catalog t paths checked).run p = .ok tree' p' := by
  refine exists_run_foldlM (GrownFrom catalog tree)
    (fun _ hmid _ _ _ _ _ hrun => hmid.addPath ht hrun) (.refl hw) (fun mid hmid path hmem p => ?_) p
  obtain ⟨hpath, hne⟩ := List.mem_filter.1 (Keyed.mem_of_mem_setOf hmem)
  obtain ⟨⟨reached, t', target⟩, q, hreach⟩ :=
    reach_of_leads hmid.1 (hmid.has ht) (h path hpath (by simpa using hne)) p
  exact ⟨reached, q, run_bind_eq_ok.2 ⟨_, q, hreach, rfl⟩⟩

end Added

/-- What a table is held to names paths that lead somewhere. -/
def RuleLeads (catalog : Catalog) (t : Table) : Prop :=
  ∀ path ∈ ((t.access.enforced? t.ignoreDeleted).map Condition.joinPaths).getD [], path ≠ "" →
    catalog.Leads false false t.access path

theorem GrownFrom.addRule {mid : JoinTree} (ht : tree.Has t) (h : GrownFrom catalog tree mid)
    {paths : List String} (hrun : (mid.addPaths catalog t paths false).run p = .ok tree' p') :
    GrownFrom catalog tree tree' :=
  h.extends (addPaths_eq_ok h.1 (h.has ht) hrun).1

theorem addEnforcedPaths_leads (hw : tree.Walked catalog false)
    (h : (tree.addEnforcedPaths catalog).run p = .ok tree' p') :
    ∀ t ∈ tree.tables, RuleLeads catalog t := by
  intro t hmem
  have hhas : ∀ {t : Table}, t ∈ tree.tables → tree.Has t := List.mem_map_of_mem
  obtain ⟨mid, q, _, _, hmid, hrun⟩ := run_foldlM (GrownFrom catalog tree)
    (fun _ hmid _ ht _ _ _ hrun => hmid.addRule (hhas ht) hrun) (.refl hw) h t hmem
  exact addPaths_leads (hmid.has (hhas hmem)) hmid.1 hrun

theorem addEnforcedPaths_of_leads (hw : tree.Walked catalog false)
    (h : ∀ t ∈ tree.tables, RuleLeads catalog t) (p : Progress) :
    ∃ tree' p', (tree.addEnforcedPaths catalog).run p = .ok tree' p' := by
  have hhas : ∀ {t : Table}, t ∈ tree.tables → tree.Has t := List.mem_map_of_mem
  exact exists_run_foldlM (GrownFrom catalog tree)
    (fun _ hmid _ ht _ _ _ hrun => hmid.addRule (hhas ht) hrun) (.refl hw)
    (fun mid hmid t ht p => addPaths_of_leads (hmid.has (hhas ht)) hmid.1 (h t ht) p) p

end JoinTree
end QueryCompiler
