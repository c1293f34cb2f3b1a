import QueryCompiler.Proofs.JoinTree.Growth
import QueryCompiler.Proofs.Build.Run
import QueryCompiler.Proofs.Keyed

/-!
# Reaching a path

`reach` joins what is missing on a path and `find` only follows what is joined. Both end where the
path leads in the catalog (`Leads`). The runs of `reach` that arrive are told apart once, by what they
stop at (`Arrives`); what reaching a path does to a tree is then shown by induction on them.
-/

namespace QueryCompiler.JoinTree

open Build

variable {catalog : Catalog} {checked wildcard : Bool} {tree tree' : JoinTree} {t t' : Table}
  {p p' : Progress} {path : String} {target : Target}

theorem Leads.cons {j : Table} {name : String} {segments : List String}
    (hpath : j.path = t.path ++ [name]) (hhop : catalog.hop? checked t.access name = some j.access)
    (h : Leads catalog checked j segments t' target) :
    Leads catalog checked t (name :: segments) t' target := by
  obtain ⟨hops, last, rfl, ht', hwalk, hends⟩ := h
  refine ⟨name :: hops, last, rfl, ?_, ?_, hends⟩
  · rw [ht', hpath, List.append_assoc, List.singleton_append]
  · rw [Catalog.walk?, hhop]
    exact hwalk

theorem Leads.here {segments : List String} (h : Ends t.access checked segments target) :
    Leads catalog checked t segments t target :=
  ⟨[], segments, rfl, by rw [List.append_nil], rfl, h⟩

theorem Leads.relation {j : Table} {name : String} {f : Field} (hpath : j.path = t.path ++ [name])
    (hhop : catalog.hop? checked t.access name = some j.access) (hf : f.isRelation = true) :
    Leads catalog checked t [name] j (.found (.field f)) :=
  .cons hpath hhop (.here (.relation hf))

/-- A path that ends at a relationship leads to a table by all its segments. -/
theorem Leads.of_relation {segments : List String}
    (h : Leads catalog checked t segments t' target) (htarget : target.isRelation = true) :
    t'.path = t.path ++ segments ∧ catalog.walk? checked t.access segments = some t'.access := by
  obtain ⟨hops, last, rfl, hpath, hwalk, hends⟩ := h
  cases hends with
  | relation _ =>
    rw [List.append_nil]
    exact ⟨hpath, hwalk⟩
  | field _ hf => exact absurd htarget (by simp [Target.isRelation, Found.isRelation, hf])
  | member _ _ _ => exact absurd htarget Bool.false_ne_true
  | wildcard => exact absurd htarget Bool.false_ne_true
  | groupWildcard _ _ => exact absurd htarget Bool.false_ne_true

theorem child?_eq_some {j : Joined} {name : String} (h : tree.child? t name = some j) :
    j ∈ tree.joined ∧ j.path = t.path ++ [name] := by
  have hfind := List.find?_some h
  exact ⟨List.mem_of_find?_eq_some h, by simpa using hfind⟩

/-- A joined table is of the model that the relationship has at its other end. -/
theorem Walked.hop?_child {j : Joined} {name : String} {f : Field} {r : Relation}
    (hw : tree.Walked catalog false) (ht : tree.Has t) (hf : t.access.field name checked = .ok f)
    (hk : f.kind = .relation r) (hj : tree.child? t name = some j) :
    catalog.hop? checked t.access name = some j.access := by
  obtain ⟨hmem, hpath⟩ := child?_eq_some hj
  have hwalk := hw j.toTable (.of_mem hmem)
  rw [hpath, Catalog.walk?_concat, hw t ht, Option.bind_some] at hwalk
  obtain ⟨f', r', hf', hk', htarget⟩ := Catalog.hop?_eq_some.1 hwalk
  rw [Access.field_unchecked hf] at hf'
  obtain rfl := Except.ok.inj hf'
  rw [hk] at hk'
  obtain rfl := FieldKind.relation.inj hk'
  exact Catalog.hop?_eq_some.2 ⟨f, r, hf, hk, htarget⟩

/-! ## Reaching -/

theorem join_eq_ok {name : String} {f : Field} {r : Relation} {j : Joined}
    (hw : tree.Walked catalog false) (ht : tree.Has t) (hf : t.access.field name checked = .ok f)
    (hk : f.kind = .relation r) (h : (tree.join catalog t name r).run p = .ok (tree', j) p') :
    Extends catalog checked (tree, p.nextNumber) (tree', p'.nextNumber) ∧ tree'.Has j.toTable ∧
      j.path = t.path ++ [name] ∧ catalog.hop? checked t.access name = some j.access ∧
      ∀ x, tree'.Has x → tree.Has x ∨ x.path = j.path := by
  rw [join] at h
  cases hj : tree.child? t name with
  | some k =>
    rw [hj] at h
    obtain ⟨⟨rfl, rfl⟩, rfl⟩ := run_pure_eq_ok.1 h
    obtain ⟨hmem, hpath⟩ := child?_eq_some hj
    exact ⟨.refl, .of_mem hmem, hpath, hw.hop?_child ht hf hk hj, fun _ => .inl⟩
  | none =>
    rw [hj] at h
    obtain ⟨access, q, haccess, h⟩ := run_bind_eq_ok.1 h
    obtain ⟨htarget, rfl⟩ := run_ofExcept_eq_ok.1 haccess
    obtain ⟨number, q, hnumber, h⟩ := run_bind_eq_ok.1 h
    rw [run_freshNumber] at hnumber
    obtain ⟨rfl, rfl⟩ := EStateM.Result.ok.inj hnumber
    obtain ⟨_, q, hreport, h⟩ := run_bind_eq_ok.1 h
    rw [run_report] at hreport
    obtain ⟨-, rfl⟩ := EStateM.Result.ok.inj hreport
    obtain ⟨heq, rfl⟩ := run_pure_eq_ok.1 h
    obtain ⟨rfl, rfl⟩ := Prod.mk.inj heq
    refine ⟨.single (.join ht hf hk hj htarget), .of_mem (by simp), rfl, ?_, fun x hx => ?_⟩
    · exact Catalog.hop?_eq_some.2 ⟨f, r, hf, hk, htarget⟩
    · have hcores := cores_extend tree t name r access p.nextNumber
      have hx : x.core ∈ (tree.extend t name r access p.nextNumber).cores := hx
      rw [hcores, List.mem_append, List.mem_singleton] at hx
      exact hx.imp_right fun hx => congrArg (fun c => c.1) hx

section Steps

variable {name next : String} {rest : List String} {f : Field} (hstar : name ≠ "*")
  (hf : t.access.field name checked = .ok f)
include hstar hf

theorem reachFrom_field (hrelation : f.isRelation = false) :
    reachFrom catalog path checked wildcard [] tree t name = pure (tree, t, .found (.field f)) := by
  rw [reachFrom, if_neg hstar, hf]
  cases hk : f.kind with
  | relation r => exact absurd hrelation (by simp [Field.isRelation_iff.2 ⟨r, hk⟩])
  | basic _ | group _ => simp [Build.ofExcept, hk]

theorem reachFrom_relation {r : Relation} (hk : f.kind = .relation r) :
    reachFrom catalog path checked wildcard [] tree t name = (do
      let (tree, j) ← tree.join catalog t name r
      return (tree, j.toTable, .found (.field f))) := by
  rw [reachFrom, if_neg hstar, hf]
  simp only [Build.ofExcept, pure_bind, hk]

theorem reachFrom_member {g : GroupField} {b : BasicField} (hk : f.kind = .group g)
    (hnext : (next = "*" && wildcard) = false) (hb : g.member? next = some b) :
    reachFrom catalog path checked wildcard [next] tree t name =
      pure (tree, t, .found (.member f b)) := by
  rw [reachFrom, if_neg hstar, hf]
  simp [Build.ofExcept, hk, hnext, hb]

theorem reachFrom_groupWildcard {g : GroupField} (hk : f.kind = .group g)
    (hwildcard : wildcard = true) :
    reachFrom catalog path checked wildcard ["*"] tree t name = pure (tree, t, .groupWildcard f) := by
  rw [reachFrom, if_neg hstar, hf]
  simp [Build.ofExcept, hk, hwildcard]

theorem reachFrom_through {r : Relation} (hk : f.kind = .relation r) :
    reachFrom catalog path checked wildcard (next :: rest) tree t name = (do
      let (tree, j) ← tree.join catalog t name r
      reachFrom catalog path checked wildcard rest tree j.toTable next) := by
  rw [reachFrom, if_neg hstar, hf]
  simp only [Build.ofExcept, pure_bind, hk]

end Steps

/-- The runs over segments that reach something: they stop at a wildcard, at a field or at a member of a
group, or they join a relationship and stop or go on there. -/
inductive Arrives (catalog : Catalog) (checked wildcard : Bool) : List String → JoinTree → Table →
    Progress → JoinTree → Table → Target → Progress → Prop where
  | wildcard {tree : JoinTree} {t : Table} {p : Progress} : wildcard = true →
      Arrives catalog checked wildcard ["*"] tree t p tree t .wildcard p
  | field {name : String} {tree : JoinTree} {t : Table} {p : Progress} {f : Field} : name ≠ "*" →
      t.access.field name checked = .ok f → f.isRelation = false →
      Arrives catalog checked wildcard [name] tree t p tree t (.found (.field f)) p
  | relation {name : String} {tree tree₁ : JoinTree} {t : Table} {p p₁ : Progress} {f : Field}
      {r : Relation} {j : Joined} : name ≠ "*" → t.access.field name checked = .ok f →
      f.kind = .relation r → (tree.join catalog t name r).run p = .ok (tree₁, j) p₁ →
      Arrives catalog checked wildcard [name] tree t p tree₁ j.toTable (.found (.field f)) p₁
  | groupWildcard {name : String} {tree : JoinTree} {t : Table} {p : Progress} {f : Field}
      {g : GroupField} : wildcard = true → name ≠ "*" → t.access.field name checked = .ok f →
      f.kind = .group g →
      Arrives catalog checked wildcard [name, "*"] tree t p tree t (.groupWildcard f) p
  | member {name next : String} {tree : JoinTree} {t : Table} {p : Progress} {f : Field}
      {g : GroupField} {b : BasicField} : name ≠ "*" → t.access.field name checked = .ok f →
      f.kind = .group g → (next = "*" && wildcard) = false → g.member? next = some b →
      Arrives catalog checked wildcard [name, next] tree t p tree t (.found (.member f b)) p
  | through {name next : String} {rest : List String} {tree tree₁ tree' : JoinTree} {t t' : Table}
      {p p₁ p' : Progress} {f : Field} {r : Relation} {j : Joined} {target : Target} : name ≠ "*" →
      t.access.field name checked = .ok f → f.kind = .relation r →
      (tree.join catalog t name r).run p = .ok (tree₁, j) p₁ →
      Arrives catalog checked wildcard (next :: rest) tree₁ j.toTable p₁ tree' t' target p' →
      Arrives catalog checked wildcard (name :: next :: rest) tree t p tree' t' target p'

theorem arrives_of_run {rest : List String} {segment : String}
    (h : (reachFrom catalog path checked wildcard rest tree t segment).run p =
      .ok (tree', t', target) p') :
    Arrives catalog checked wildcard (segment :: rest) tree t p tree' t' target p' := by
  induction rest generalizing tree t segment p with
  | nil =>
    rw [reachFrom] at h
    split at h
    case isTrue hstar =>
      subst hstar
      split at h
      case isTrue hwildcard =>
        obtain ⟨heq, rfl⟩ := run_pure_eq_ok.1 h
        cases heq
        exact .wildcard hwildcard
      · exact absurd h run_reject_ne_ok
    case isFalse hstar =>
      obtain ⟨f, q, hrun, h⟩ := run_bind_eq_ok.1 h
      obtain ⟨hf, rfl⟩ := run_ofExcept_eq_ok.1 hrun
      cases hk : f.kind with
      | relation r =>
        simp only [hk] at h
        obtain ⟨⟨tree₁, j⟩, q, hjoin, h⟩ := run_bind_eq_ok.1 h
        obtain ⟨heq, rfl⟩ := run_pure_eq_ok.1 h
        cases heq
        exact .relation hstar hf hk hjoin
      | basic _ | group _ =>
        simp only [hk] at h
        obtain ⟨heq, rfl⟩ := run_pure_eq_ok.1 h
        cases heq
        exact .field hstar hf (Field.isRelation_eq_false (by simp [hk]))
  | cons next rest ih =>
    rw [reachFrom] at h
    split at h
    · exact absurd h run_reject_ne_ok
    case isFalse hstar =>
      obtain ⟨f, q, hrun, h⟩ := run_bind_eq_ok.1 h
      obtain ⟨hf, rfl⟩ := run_ofExcept_eq_ok.1 hrun
      cases hk : f.kind with
      | relation r =>
        simp only [hk] at h
        obtain ⟨⟨tree₁, j⟩, q, hjoin, h⟩ := run_bind_eq_ok.1 h
        exact .through hstar hf hk hjoin (ih h)
      | basic b =>
        simp only [hk] at h
        exact absurd h run_reject_ne_ok
      | group g =>
        simp only [hk] at h
        cases rest with
        | cons _ _ => exact absurd h run_reject_ne_ok
        | nil =>
          simp only at h
          split at h
          case isTrue hnext =>
            obtain ⟨heq, rfl⟩ := run_pure_eq_ok.1 h
            cases heq
            obtain ⟨rfl, hwildcard⟩ : next = "*" ∧ wildcard = true := by simpa using hnext
            exact .groupWildcard hwildcard hstar hf hk
          case isFalse hnext =>
            cases hb : g.member? next with
            | none =>
              rw [hb] at h
              exact absurd h run_reject_ne_ok
            | some b =>
              rw [hb] at h
              obtain ⟨heq, rfl⟩ := run_pure_eq_ok.1 h
              cases heq
              exact .member hstar hf hk (Bool.eq_false_iff.2 hnext) hb

theorem Arrives.ends {segments : List String} (hw : tree.Walked catalog false) (ht : tree.Has t)
    (h : Arrives catalog checked wildcard segments tree t p tree' t' target p') :
    Extends catalog checked (tree, p.nextNumber) (tree', p'.nextNumber) ∧ tree'.Has t' ∧
      Leads catalog checked t segments t' target ∧
      ∀ x, tree'.Has x → tree.Has x ∨ x.path <+: t.path ++ segments := by
  induction h with
  | wildcard _ => exact ⟨.refl, ht, .here .wildcard, fun _ => .inl⟩
  | field _ hf hrelation => exact ⟨.refl, ht, .here (.field hf hrelation), fun _ => .inl⟩
  | groupWildcard _ _ hf hk => exact ⟨.refl, ht, .here (.groupWildcard hf hk), fun _ => .inl⟩
  | member _ hf hk _ hb => exact ⟨.refl, ht, .here (.member hf hk hb), fun _ => .inl⟩
  | relation _ hf hk hjoin =>
    obtain ⟨hext, hhas, hpath, hhop, hnew⟩ := join_eq_ok hw ht hf hk hjoin
    refine ⟨hext, hhas, .relation hpath hhop (Field.isRelation_iff.2 ⟨_, hk⟩),
      fun x hx => (hnew x hx).imp_right fun hx => ?_⟩
    exact hx ▸ hpath ▸ List.prefix_refl _
  | @through name next rest _ _ _ t _ _ _ _ _ _ j _ _ hf hk hjoin _ ih =>
    obtain ⟨hext, hhas, hpath, hhop, hnew⟩ := join_eq_ok hw ht hf hk hjoin
    obtain ⟨hext', hhas', hleads, hnew'⟩ := ih (hext.unchecked.walked hw) hhas
    refine ⟨hext.trans hext', hhas', hleads.cons hpath hhop, fun x hx => ?_⟩
    have hsplit : t.path ++ name :: next :: rest = j.path ++ next :: rest := by simp [hpath]
    rw [hsplit]
    rcases hnew' x hx with hx | hx
    · refine (hnew x hx).imp_right fun hx => ?_
      rw [hx]
      exact List.prefix_append _ _
    · exact .inr hx

/-- Reaching a path joins what is missing on it and ends where the path leads. -/
theorem reach_eq_ok (hw : tree.Walked catalog false) (ht : tree.Has t)
    (h : (tree.reach catalog t path checked wildcard).run p = .ok (tree', t', target) p') :
    Extends catalog checked (tree, p.nextNumber) (tree', p'.nextNumber) ∧ tree'.Has t' ∧
      Leads catalog checked t (Path.all path) t' target ∧
      ∀ x, tree'.Has x → tree.Has x ∨ x.path <+: t.path ++ Path.all path :=
  (arrives_of_run h).ends hw ht

/-! ## Finding -/

theorem findFrom_eq_ok {rest : List String} {segment : String} {found : Found}
    (hw : tree.Walked catalog false) (ht : tree.Has t)
    (h : findFrom tree path checked rest t segment = .ok (t', found)) :
    tree.Has t' ∧ Leads catalog checked t (segment :: rest) t' (.found found) := by
  induction rest generalizing t segment with
  | nil =>
    rw [findFrom] at h
    obtain ⟨f, hf, h⟩ := except_bind_eq_ok.1 h
    cases hk : f.kind with
    | relation r =>
      simp only [hk] at h
      cases hj : tree.child? t segment with
      | none => rw [hj] at h; exact absurd h nofun
      | some j =>
        rw [hj] at h
        cases h
        obtain ⟨hmem, hpath⟩ := child?_eq_some hj
        exact ⟨.of_mem hmem, .relation hpath (hw.hop?_child ht hf hk hj)
          (Field.isRelation_iff.2 ⟨r, hk⟩)⟩
    | basic b =>
      simp only [hk] at h
      cases h
      exact ⟨ht, .here (.field hf (Field.isRelation_eq_false (by simp [hk])))⟩
    | group g =>
      simp only [hk] at h
      cases h
      exact ⟨ht, .here (.field hf (Field.isRelation_eq_false (by simp [hk])))⟩
  | cons next rest ih =>
    rw [findFrom] at h
    obtain ⟨f, hf, h⟩ := except_bind_eq_ok.1 h
    cases hk : f.kind with
    | relation r =>
      simp only [hk] at h
      cases hj : tree.child? t segment with
      | none => rw [hj] at h; exact absurd h nofun
      | some j =>
        rw [hj] at h
        obtain ⟨hmem, hpath⟩ := child?_eq_some hj
        obtain ⟨hhas, hleads⟩ := ih (.of_mem hmem) h
        exact ⟨hhas, hleads.cons hpath (hw.hop?_child ht hf hk hj)⟩
    | basic b =>
      simp only [hk] at h
      exact absurd h nofun
    | group g =>
      simp only [hk] at h
      cases rest with
      | cons _ _ => exact absurd h nofun
      | nil =>
        simp only at h
        cases hb : g.member? next with
        | none => rw [hb] at h; exact absurd h nofun
        | some b =>
          rw [hb] at h
          cases h
          exact ⟨ht, .here (.member hf hk hb)⟩

theorem find_eq_ok {found : Found} (hw : tree.Walked catalog false) (ht : tree.Has t)
    (h : tree.find t path checked = .ok (t', found)) :
    tree.Has t' ∧ Leads catalog checked t (Path.all path) t' (.found found) :=
  findFrom_eq_ok hw ht h

/-! ## Joining what a query names -/

theorem addPaths_eq_ok {paths : List String} (hw : tree.Walked catalog false) (ht : tree.Has t)
    (h : (tree.addPaths catalog t paths checked).run p = .ok tree' p') :
    Extends catalog checked (tree, p.nextNumber) (tree', p'.nextNumber) ∧
      ∀ x, tree'.Has x → tree.Has x ∨ ∃ path ∈ paths, x.path <+: t.path ++ Path.all path := by
  rw [addPaths] at h
  refine run_foldlM_induct (P := fun _ mid q =>
    Extends catalog checked (tree, p.nextNumber) (mid, q.nextNumber) ∧
      ∀ x, mid.Has x → tree.Has x ∨ ∃ path ∈ paths, x.path <+: t.path ++ Path.all path)
    ⟨.refl, fun _ => .inl⟩ ?_ h
  rintro _ path mid _ q _ hpath ⟨hext, hnew⟩ hrun
  obtain ⟨⟨tree₁, t₁, target⟩, q', hreach, hrun⟩ := run_bind_eq_ok.1 hrun
  obtain ⟨rfl, rfl⟩ := run_pure_eq_ok.1 hrun
  obtain ⟨hext', -, -, hnew'⟩ :=
    reach_eq_ok (hext.unchecked.walked hw) (ht.mono hext.cores_prefix) hreach
  refine ⟨hext.trans hext', fun x hx => ?_⟩
  rcases hnew' x hx with hx | hx
  · exact hnew x hx
  · exact .inr ⟨path, (List.mem_filter.1 (Keyed.mem_of_mem_setOf hpath)).1, hx⟩

end QueryCompiler.JoinTree
