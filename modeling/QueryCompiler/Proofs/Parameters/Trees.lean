import QueryCompiler.Proofs.JoinTree.Scopes
import QueryCompiler.Proofs.Parameters.Texts

/-!
# Tables of plain catalogs

Every table of a join tree is of a model of the catalog, so all names in its columns and links are
plain. The numbers of the tables are drawn one after the other and stay apart from each other and
from all that are drawn later.
-/

namespace QueryCompiler

/-! ## Models of the catalog -/

namespace Catalog

variable {catalog : Catalog} {a b : Access} {checked : Bool}

variable (hplain : catalog.isPlain = true)
include hplain

theorem Knows.isPlain (h : catalog.Knows a) : a.model.isPlain = true := by
  obtain ⟨name, hmem⟩ := h.exists_mem
  rw [Catalog.isPlain, Bool.and_eq_true, List.all_eq_true] at hplain
  exact hplain.1 _ hmem

end Catalog

/-! ## Plain names of fields and columns -/

theorem Model.isPlain_field {m : Model} (h : m.isPlain = true) {f : Field} (hf : f ∈ m.fields) :
    f.isPlain = true := by
  rw [isPlain, Bool.and_eq_true, List.all_eq_true] at h
  exact h.2 f hf

theorem Field.isPlain_basic {f : Field} {b : BasicField} (h : f.isPlain = true)
    (hk : f.kind = .basic b) : Text.isPlain b.column = true := by
  rw [isPlain, hk, Bool.and_eq_true] at h
  exact h.2

theorem Field.isPlain_member {f : Field} {g : GroupField} {b : BasicField} (h : f.isPlain = true)
    (hk : f.kind = .group g) (hb : b ∈ g.fields) :
    Text.isPlain b.name = true ∧ Text.isPlain b.column = true := by
  rw [isPlain, hk, Bool.and_eq_true] at h
  exact Bool.and_eq_true_iff.1 (List.all_eq_true.1 h.2 b hb)

theorem Access.Shows.isPlain {a : Access} {checked : Bool} {segments : List String} {b : BasicField}
    (hplain : a.model.isPlain = true) (h : a.Shows checked segments b) :
    Text.isPlain b.column = true := by
  cases h with
  | field hf hk =>
    exact Field.isPlain_basic (Model.isPlain_field hplain (Access.name_of_field hf).2) hk
  | member hf hk hb =>
    have hfield := Model.isPlain_field hplain (Access.name_of_field hf).2
    exact (Field.isPlain_member hfield hk (List.mem_of_find?_eq_some hb)).2

namespace Model

variable {m : Model} (hplain : m.isPlain = true)
include hplain

end Model

namespace JoinTree

/-- The tables are of models of the catalog and hang on such tables, and each has a number of its own
from `lo` on. The number of the next table goes along with the tree. -/
structure Regular (catalog : Catalog) (lo : Nat) (x : JoinTree × Nat) : Prop where
  known : ∀ t, x.1.Has t → catalog.Knows t.access
  links : ∀ j ∈ x.1.joined, ∃ a, catalog.Knows a ∧ j.link.parentModel = a.model
  nodup : x.1.numbers.Nodup
  range : ∀ n ∈ x.1.numbers, lo ≤ n ∧ n < x.2

variable {catalog : Catalog} {checked : Bool} {joins : List Join} {x y : JoinTree × Nat} {lo : Nat}
  {tree : JoinTree} {a : Access}

theorem Joins.regular (h : Joins catalog checked x y) (hle : lo ≤ x.2)
    (hx : Regular catalog lo x) : Regular catalog lo y := by
  cases h with
  | @join tree n t name f r access ht _ _ _ htarget =>
    obtain ⟨hknown, hlinks, hnodup, hrange⟩ := hx
    have hnumbers : (tree.extend t name r access n).numbers = tree.numbers ++ [n] := by
      rw [numbers, cores_extend, List.map_append]
      rfl
    refine ⟨fun t' ht' => ?_, fun j hj => ?_, ?_, ?_⟩
    · rw [Has, cores_extend, List.mem_append, List.mem_singleton] at ht'
      rcases ht' with ht' | ht'
      · exact hknown t' ht'
      · have haccess : t'.access = access := congrArg (fun c => c.2.2) ht'
        exact haccess ▸ Catalog.knows_of_target htarget
    · rw [extend, List.mem_append, List.mem_singleton] at hj
      rcases hj with hj | rfl
      · exact hlinks j hj
      · exact ⟨t.access, hknown t ht, rfl⟩
    · rw [hnumbers, List.nodup_append']
      refine ⟨hnodup, List.nodup_singleton n, fun m hm hmem => ?_⟩
      have hlt : m < n := (hrange m hm).2
      rw [List.mem_singleton] at hmem
      omega
    · intro m hm
      rw [hnumbers, List.mem_append, List.mem_singleton] at hm
      rcases hm with hm | rfl
      · exact ⟨(hrange m hm).1, (hrange m hm).2.trans (Nat.lt_succ_self _)⟩
      · exact ⟨hle, Nat.lt_succ_self _⟩

theorem Step.regular (h : Step catalog joins x y) (hle : lo ≤ x.2)
    (hx : Regular catalog lo x) : Regular catalog lo y := by
  cases h with
  | join h => exact h.regular hle hx
  | @choose tree n choices _ =>
    obtain ⟨hknown, hlinks, hnodup, hrange⟩ := hx
    have hcores := cores_mapTables tree (fun t => t.choose (choices t)) fun _ => rfl
    refine ⟨fun t ht => hknown t ?_, fun j' hj' => ?_, ?_, ?_⟩
    · rw [Has, hcores] at ht
      exact ht
    · obtain ⟨j, hj, rfl⟩ := List.mem_map.1 hj'
      exact hlinks j hj
    · rw [numbers, hcores]
      exact hnodup
    · rw [numbers, hcores]
      exact hrange
  | @apply tree n t join _ _ _ =>
    obtain ⟨hknown, hlinks, hnodup, hrange⟩ := hx
    have hcores := cores_applyJoin tree t.path join
    refine ⟨fun t' ht' => hknown t' ?_, fun j' hj' => ?_, ?_, ?_⟩
    · rw [Has, hcores] at ht'
      exact ht'
    · obtain ⟨j, hj, rfl⟩ := List.mem_map.1 hj'
      have hlink : (if j.path = t.path then { j with
          ignoreDeleted := join.ignoreDeleted, type := join.type, condition := join.condition }
          else j).link = j.link := by split <;> rfl
      rw [hlink]
      exact hlinks j hj
    · rw [numbers, hcores]
      exact hnodup
    · rw [numbers, hcores]
      exact hrange

theorem Steps.regular (h : Steps catalog joins x y) (hle : lo ≤ x.2)
    (hx : Regular catalog lo x) : Regular catalog lo y := by
  induction h with
  | refl => exact hx
  | tail hsteps h ih => exact h.regular (hle.trans (Steps.next_le hsteps)) ih

theorem Extends.regular (h : Extends catalog checked x y) (hle : lo ≤ x.2)
    (hx : Regular catalog lo x) : Regular catalog lo y := by
  induction h with
  | refl => exact hx
  | tail hsteps h ih => exact h.regular (hle.trans (Extends.next_le hsteps)) ih

theorem Starts.regular {n : Nat} (h : Starts a n tree) (ha : catalog.Knows a) :
    Regular catalog n (tree, n + 1) := by
  have hcores : tree.cores = [([], n, a)] := by
    rw [cores, tables, h.alone]
    simp [Table.core, h.path, h.number, h.access]
  have hnumbers : tree.numbers = [n] := by rw [numbers, hcores]; rfl
  refine ⟨fun t ht => ?_, fun j hj => ?_, ?_, ?_⟩
  · rw [Has, hcores, List.mem_singleton] at ht
    have haccess : t.access = a := congrArg (fun c => c.2.2) ht
    exact haccess ▸ ha
  · rw [h.alone] at hj
    exact absurd hj List.not_mem_nil
  · rw [hnumbers]
    exact List.nodup_singleton n
  · intro m hm
    rw [hnumbers, List.mem_singleton] at hm
    exact ⟨hm.ge, hm.le.trans_lt (Nat.lt_succ_self n)⟩

theorem Made.regular {n n' : Nat} (h : Made catalog checked a joins n tree n')
    (ha : catalog.Knows a) : Regular catalog n (tree, n') ∧ n ≤ n' := by
  obtain ⟨start, mid, m, hstart, hsteps, hext, -, -⟩ := h
  have hm : n + 1 ≤ m := hsteps.next_le
  have hn : m ≤ n' := hext.next_le
  have hmid := hsteps.regular (Nat.le_succ n) (hstart.regular ha)
  exact ⟨hext.regular (by omega) hmid, by omega⟩

end JoinTree

/-! ## Scopes -/

namespace Scope

/-- A scope over tables of models of the catalog that stand where their paths lead. -/
structure Sited (catalog : Catalog) (s : Scope) : Prop where
  walked : s.tree.Walked catalog false
  known : ∀ t, s.tree.Has t → catalog.Knows t.access
  has : s.tree.Has s.table

variable {catalog : Catalog} {s : Scope} {path : String}

end Scope
end QueryCompiler
