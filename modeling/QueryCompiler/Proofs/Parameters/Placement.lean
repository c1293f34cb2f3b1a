import QueryCompiler.Proofs.Build.Resolve
import QueryCompiler.Proofs.Parameters.Trees

/-!
# Where resolved conditions bind

A condition binds under its own path, and what its subqueries hold rows to under numbers that were
drawn while it was resolved, whatever it names and whatever its templates are. So no two values of a
condition, of a subquery or of the joins of a tree are bound to one path.
-/

namespace QueryCompiler

open Build Params

variable {catalog : Catalog} {p p' : Progress} {base : String} {n lo hi : Nat}

/-- The paths that a subquery binds besides those of its inner condition. -/
def Subquery.paths (body : Subquery Predicate) : List String :=
  Predicate.joinsPaths body.joins ++ body.enforced.paths

theorem Predicate.paths_related {negated : Bool} {body : Subquery Predicate} {inner : Predicate} :
    (related negated body inner).paths = body.paths ++ inner.paths := by
  obtain ⟨model, number, link, joins, enforced⟩ := body
  simp [Predicate.paths, bindings, Subquery.paths, joinsPaths]

/-! ## Conditions -/

/-- A list is bound by its items and as a whole, at different paths. -/
theorem Params.scoped_withItems {path : String} (n : Nat) (h : Under base path) (v : Value) :
    Scoped base n n ((Binding.withItems path v).map Binding.path) := by
  have hitems := scoped_ofItems n h (v.items?.getD [])
  have hdisjoint : path ∉ (Binding.ofItems path (v.items?.getD [])).map Binding.path := by
    intro hmem
    obtain ⟨b, hb, hpath⟩ := List.mem_map.1 hmem
    obtain ⟨e, -, rfl⟩ := List.mem_map.1 hb
    have hlength := congrArg (fun s => s.toList.length) hpath
    simp [itemPath] at hlength
  rw [Binding.withItems, List.map_append, List.map_singleton]
  refine ⟨le_rfl, ?_, fun p hp => ?_⟩
  · refine List.nodup_append'.2 ⟨hitems.nodup, List.nodup_singleton _, fun p hp hpath => ?_⟩
    obtain rfl := List.mem_singleton.1 hpath
    exact hdisjoint hp
  · rcases List.mem_append.1 hp with hp | hp
    · exact hitems.within p hp
    · obtain rfl := List.mem_singleton.1 hp
      exact .inl h

theorem Operator.resolve_scoped {op : Operator} {column : Column} {value : Value} {r : Predicate}
    (h : op.resolve column base value = .ok r) (hbase : base ≠ "") (n : Nat) :
    Scoped base n n r.paths := by
  obtain ⟨op, template, value, -, rfl⟩ | ⟨negated, items, rfl⟩ := resolve_eq_ok h
  · rw [filled, Predicate.paths, Predicate.bindings]
    split
    · exact scoped_singleton n (under_childPath hbase)
    · exact scoped_nil base n
  · exact scoped_ofItems n (under_childPath hbase) items

/-- Subqueries bind under numbers that they draw. -/
structure Names.Placed {σ : Type} (names : Names σ) : Prop where
  subquery : ∀ {s path joins paths body s' p p'},
    (names.subquery s path joins paths).run p = .ok (body, s') p' → p.nextNumber ≤ p'.nextNumber ∧
      Ranged (fun n => p.nextNumber ≤ n ∧ n < p'.nextNumber) body.paths

namespace Condition

variable {σ : Type} {d : Dialect} {names : Names σ}

mutual

theorem resolve_scoped (hn : names.Placed) :
    ∀ (c : Condition) {s : σ} {base : String} {r : Predicate} {p p' : Progress},
      IsBase base p.nextNumber → (c.resolve d names s base).run p = .ok r p' →
      Scoped base p.nextNumber p'.nextNumber r.paths
  | .compare path op value skipEmpty, s, base, r, p, p', hbase, h => by
    obtain ⟨rfl, ⟨-, rfl⟩ | ⟨-, column, -, hr⟩⟩ := resolve_compare_eq_ok.1 h
    · exact scoped_nil base _
    · exact Operator.resolve_scoped hr hbase.nonempty _
  | .group k members, s, base, r, p, p', hbase, h => by
    obtain ⟨parts, hparts, rfl⟩ := resolve_group_eq_ok.1 h
    exact (resolveMembers_scoped hn members hbase hparts).group hbase
  | .negate inner, s, base, r, p, p', hbase, h => by
    obtain ⟨q, hq, rfl⟩ := resolve_negate_eq_ok.1 h
    exact (resolve_scoped hn inner hbase.inner hq).inner hbase
  | .custom template paths value, s, base, r, p, p', hbase, h => by
    obtain ⟨rfl, sql, -, rfl⟩ := resolve_custom_eq_ok.1 h
    cases value with
    | none => exact scoped_nil base _
    | some v => exact scoped_withItems _ (under_childPath hbase.nonempty) v
  | .search path value mode, s, base, r, p, p', hbase, h => by
    obtain ⟨rfl, template, -, sql, -, rfl⟩ := resolve_search_eq_ok.1 h
    exact scoped_singleton _ (under_childPath hbase.nonempty)
  | .related path inner joins negated, s, base, r, p, p', hbase, h => by
    obtain ⟨-, rfl, rfl⟩ | ⟨-, body, s', mid, q, hbody, hq, rfl⟩ := resolve_related_eq_ok.1 h
    · exact scoped_nil base _
    · obtain ⟨hle, hranged⟩ := hn.subquery hbody
      rw [Predicate.paths_related]
      exact hranged.append_inner hbase hle (resolve?_scoped hn (hbase.inner.mono hle) hq)

theorem resolve?_scoped (hn : names.Placed) {c : Option Condition} {s : σ} {base : String}
    {r : Predicate} {p p' : Progress} (hbase : IsBase base p.nextNumber)
    (h : (resolve? d names c s base).run p = .ok r p') :
    Scoped base p.nextNumber p'.nextNumber r.paths := by
  cases c with
  | none =>
    obtain ⟨rfl, rfl⟩ := run_pure_eq_ok.1 h
    exact scoped_nil base _
  | some c => exact resolve_scoped hn c hbase h

theorem resolveMembers_scoped (hn : names.Placed) :
    ∀ (cs : List Condition) {s : σ} {base : String} {i : Nat} {rs : List Predicate}
      {p p' : Progress}, IsBase base p.nextNumber →
      (resolveMembers d names cs s base i).run p = .ok rs p' →
      ScopedFrom base i p.nextNumber p'.nextNumber
        ((Predicate.bindingsOf rs).map Binding.path)
  | [], s, base, i, rs, p, p', _, h => by
    obtain ⟨rfl, rfl⟩ := resolveMembers_nil_eq_ok.1 h
    exact scopedFrom_nil base i _
  | c :: cs, s, base, i, rs, p, p', hbase, h => by
    obtain ⟨r, mid, rs', hr, hrs, rfl⟩ := resolveMembers_cons_eq_ok.1 h
    have hfirst := resolve_scoped hn c (hbase.member i) hr
    rw [Predicate.bindingsOf, List.map_append]
    exact .cons hbase hfirst (resolveMembers_scoped hn cs (hbase.mono hfirst.le) hrs)

end

end Condition

/-! ## Joins -/

namespace JoinTree

variable {names : Names Scope} {tree : JoinTree}

namespace Regular

variable (h : Regular catalog lo (tree, hi))
include h

theorem range_of_has {t : Table} (ht : tree.Has t) : lo ≤ t.number ∧ t.number < hi :=
  h.range _ (List.mem_map.2 ⟨t.core, ht, rfl⟩)

theorem numbers_nodup : (tree.root.number :: tree.joined.map fun j => j.number).Nodup := by
  have hnodup := h.nodup
  simpa [numbers, cores, tables, Table.core, Function.comp_def] using hnodup

theorem root_not_joined {j : Joined} (hj : j ∈ tree.joined) : j.number ≠ tree.root.number := by
  intro heq
  exact (List.nodup_cons.1 h.numbers_nodup).1 (heq ▸ List.mem_map_of_mem hj)

theorem joined_nodup : (tree.inOrder.map fun j => j.number).Nodup :=
  (tree.inOrder_perm.map _).nodup_iff.2 (List.nodup_cons.1 h.numbers_nodup).2

end Regular

theorem enforced_scoped (hn : names.Placed) {t : Table} {mark : String} {r : Predicate}
    (hbase : IsBase (mark ++ "0") p.nextNumber)
    (h : (tree.enforced catalog names t mark).run p = .ok r p') :
    Scoped (mark ++ "0") p.nextNumber p'.nextNumber r.paths :=
  Condition.resolve?_scoped hn hbase h

section Resolved

variable (hn : names.Placed) (htree : Regular catalog lo (tree, hi))
include hn htree

/-- The join of a table binds under the number of its table and under later ones. -/
theorem clause_ranged {j : Joined} {clause : JoinClause Predicate} (hj : j ∈ tree.joined)
    (hle : hi ≤ p.nextNumber) (h : (tree.clause catalog names j).run p = .ok clause p') :
    p.nextNumber ≤ p'.nextNumber ∧
      Ranged (fun n => n = j.number ∨ p.nextNumber ≤ n ∧ n < p'.nextNumber)
        (clause.filter.enforced.paths ++ clause.filter.requested.paths) := by
  obtain ⟨_, -, -, -, -, hheld, hasked⟩ := clause_eq_ok h
  have hnumber : j.number < p.nextNumber := (htree.range_of_has (.of_mem hj)).2.trans_le hle
  have hheld := enforced_scoped hn (isBase_joinBase false hnumber) hheld
  have hasked := Condition.resolve?_scoped hn (isBase_joinBase true (hnumber.trans_le hheld.le))
    hasked
  exact ⟨hheld.le.trans hasked.le, hheld.join hnumber hasked⟩

/-- The joins of some of the tables, one after the other. -/
theorem mapM_clause_ranged {js : List Joined} {clauses : List (JoinClause Predicate)}
    (hmem : ∀ j ∈ js, j ∈ tree.joined) (hnodup : (js.map fun j => j.number).Nodup)
    (hle : hi ≤ p.nextNumber) (h : (js.mapM (tree.clause catalog names)).run p = .ok clauses p') :
    p.nextNumber ≤ p'.nextNumber ∧
      Ranged (fun n => (∃ j ∈ js, j.number = n) ∨ p.nextNumber ≤ n ∧ n < p'.nextNumber)
        (Predicate.joinsPaths clauses) := by
  induction js generalizing clauses p with
  | nil =>
    rw [List.mapM_nil] at h
    obtain ⟨rfl, rfl⟩ := run_pure_eq_ok.1 h
    exact ⟨le_rfl, .nil, nofun⟩
  | cons j js ih =>
    rw [List.mapM_cons] at h
    obtain ⟨clause, q, hclause, h⟩ := run_bind_eq_ok.1 h
    obtain ⟨rest, q', hrest, h⟩ := run_bind_eq_ok.1 h
    obtain ⟨rfl, rfl⟩ := run_pure_eq_ok.1 h
    rw [List.map_cons, List.nodup_cons] at hnodup
    have hj := hmem j List.mem_cons_self
    have hjs : ∀ j' ∈ js, j' ∈ tree.joined := fun j' hj' => hmem j' (List.mem_cons_of_mem _ hj')
    obtain ⟨hq, hranged⟩ := clause_ranged hn htree hj hle hclause
    obtain ⟨hq', hranged'⟩ := ih hjs hnodup.2 (hle.trans hq) hrest
    have hnumber : ∀ j' ∈ tree.joined, j'.number < p.nextNumber :=
      fun j' hj' => (htree.range_of_has (.of_mem hj')).2.trans_le hle
    have hpaths : Predicate.joinsPaths (clause :: rest) = clause.filter.enforced.paths ++
        clause.filter.requested.paths ++ Predicate.joinsPaths rest := by
      obtain ⟨type, model, number, link, ⟨enforced, requested⟩⟩ := clause
      simp [Predicate.joinsPaths, Predicate.joinsBindings, Predicate.paths]
    rw [hpaths]
    refine ⟨hq.trans hq', (hranged.append hranged' ?_).mono fun n hn => ?_⟩
    · -- Later joins have other tables, and what they draw is drawn later.
      rintro n (rfl | hn) (⟨j', hj', heq⟩ | hn')
      · exact hnodup.1 (heq ▸ List.mem_map_of_mem hj')
      · have := hnumber j hj
        omega
      · have := hnumber j' (hjs j' hj')
        omega
      · omega
    · rcases hn with (rfl | hn) | ⟨j', hj', rfl⟩ | hn
      · exact .inl ⟨j, List.mem_cons_self, rfl⟩
      · exact .inr (by omega)
      · exact .inl ⟨j', List.mem_cons_of_mem _ hj', rfl⟩
      · exact .inr (by omega)

theorem clauses_ranged {clauses : List (JoinClause Predicate)} (hle : hi ≤ p.nextNumber)
    (h : (tree.clauses catalog names).run p = .ok clauses p') :
    p.nextNumber ≤ p'.nextNumber ∧
      Ranged (fun n => (∃ j ∈ tree.joined, j.number = n) ∨ p.nextNumber ≤ n ∧ n < p'.nextNumber)
        (Predicate.joinsPaths clauses) := by
  have hmem : ∀ j ∈ tree.inOrder, j ∈ tree.joined := fun j hj => tree.inOrder_perm.subset hj
  obtain ⟨hq, hranged⟩ := mapM_clause_ranged hn htree hmem htree.joined_nodup hle h
  refine ⟨hq, hranged.mono fun n hn => hn.imp_left ?_⟩
  rintro ⟨j, hj, rfl⟩
  exact ⟨j, hmem j hj, rfl⟩

end Resolved
end JoinTree

/-! ## Names -/

theorem Names.placed_ofTable (a : Access) (qualifier : Qualifier) :
    (Names.ofTable a qualifier).Placed :=
  ⟨fun h => absurd h run_reject_ne_ok⟩

/-- At every depth, subqueries bind under numbers that they draw. -/
theorem Names.placed_ofTree (catalog : Catalog) (depth : Nat) :
    (Names.ofTree catalog depth).Placed := by
  induction depth with
  | zero => exact ⟨fun h => absurd h nofun⟩
  | succ depth ih =>
    refine ⟨fun {s path joins paths body s' p p'} h => ?_⟩
    change (s.subquery catalog (Names.ofTree catalog depth) path joins paths).run p = _ at h
    obtain ⟨link, access, tree, q, q', -, htarget, hmade, -, -, -, -, hclauses, henforced, -⟩ :=
      Scope.subquery_eq_ok h
    obtain ⟨htree, hle⟩ := hmade.regular (Catalog.knows_of_target htarget)
    have hroot := htree.range_of_has (.root : tree.Has tree.root)
    obtain ⟨hq₁, hranged⟩ := JoinTree.clauses_ranged ih htree le_rfl hclauses
    have hplace : Scoped (joinBase tree.root.number false) q'.nextNumber p'.nextNumber
        body.enforced.paths :=
      JoinTree.enforced_scoped ih (isBase_joinBase false (hroot.2.trans_le hq₁)) henforced
    have hq₂ := hplace.le
    refine ⟨hle.trans (hq₁.trans hq₂), (hranged.append hplace.ranged ?_).mono fun n hn => ?_⟩
    · rintro n (⟨j, hj, rfl⟩ | hn) (heq | hn')
      · exact htree.root_not_joined hj heq
      · have := (htree.range_of_has (.of_mem hj)).2
        omega
      · omega
      · omega
    · rcases hn with (⟨j, hj, rfl⟩ | hn) | rfl | hn
      · have := htree.range_of_has (.of_mem hj)
        omega
      · omega
      · omega
      · omega

end QueryCompiler
