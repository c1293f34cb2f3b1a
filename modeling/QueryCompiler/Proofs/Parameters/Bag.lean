import QueryCompiler.Proofs.Keyed
import QueryCompiler.Proofs.Parameters.Marks
import Mathlib.Data.List.Nodup

/-!
# The bag of a statement

If the paths of a statement's bindings differ, its bag holds each of them with its value. If besides
the text names them, each once, then the placeholders of the text and the paths of the bag are the
same, and the statement can be lowered in every style.
-/

namespace QueryCompiler

/-- The text names the given paths in its placeholders, each as often as it is given. -/
def Accounts (s : String) (bound : List String) : Prop :=
  ∃ paths, Marks s paths ∧ paths.Perm bound

namespace Accounts

variable {s t : String} {bound more : List String}

theorem of_marks (h : Marks s bound) : Accounts s bound :=
  ⟨bound, h, .refl _⟩

theorem append (hs : Accounts s bound) (ht : Accounts t more)
    (hseam : t.toList.head? ≠ some '\x7b') : Accounts (s ++ t) (bound ++ more) := by
  obtain ⟨paths, hmarks, hpaths⟩ := hs
  obtain ⟨paths', hmarks', hpaths'⟩ := ht
  exact ⟨paths ++ paths', hmarks.append hmarks' hseam, hpaths.append hpaths'⟩

theorem text_append (l : String) (hl : '#' ∉ l.toList) (hs : Accounts s bound) :
    Accounts (l ++ s) bound := by
  obtain ⟨paths, hmarks, hpaths⟩ := hs
  exact ⟨paths, .text_append l hl hmarks, hpaths⟩

theorem between (hs : Accounts s bound) (gap : String) (hgap : isGap gap = true)
    (ht : Accounts t more) : Accounts (s ++ gap ++ t) (bound ++ more) := by
  obtain ⟨paths, hmarks, hpaths⟩ := hs
  obtain ⟨paths', hmarks', hpaths'⟩ := ht
  exact ⟨paths ++ paths', hmarks.between gap hgap hmarks', hpaths.append hpaths'⟩

end Accounts

namespace Params

variable {bs : List Binding}

/-- Where the paths differ, no value takes the place of another one. -/
theorem ofBindings_perm (h : (bs.map Binding.path).Nodup) :
    (ofBindings bs).Perm (bs.map fun b => (b.path, b.value)) := by
  have hfold : ∀ (bs : List Binding) (bag : Params),
      (bag.map (·.1) ++ bs.map Binding.path).Nodup →
      (bs.foldl bind bag).Perm (bag ++ bs.map fun b => (b.path, b.value)) := by
    intro bs
    induction bs with
    | nil => exact fun bag _ => by rw [List.map_nil, List.append_nil]; exact .refl _
    | cons b bs ih =>
      intro bag hnodup
      have hmiddle := List.perm_middle.nodup_iff.1 hnodup
      rw [List.nodup_cons, List.mem_append, not_or] at hmiddle
      have hinsert := Keyed.insert_perm (v := b.value) hmiddle.1.1
      have hkeys : ((bind bag b).map (·.1)).Perm (b.path :: bag.map (·.1)) := hinsert.map (·.1)
      refine (ih (bind bag b) ?_).trans ?_
      · rw [(hkeys.append_right _).nodup_iff, List.cons_append, List.nodup_cons, List.mem_append,
          not_or]
        exact hmiddle
      · exact (hinsert.append_right _).trans List.perm_middle.symm
  exact hfold bs [] h

theorem keys_ofBindings (h : (bs.map Binding.path).Nodup) :
    ((ofBindings bs).map (·.1)).Perm (bs.map Binding.path) := by
  have hkeys := (ofBindings_perm h).map (·.1)
  rwa [List.map_map] at hkeys

theorem get?_ofBindings (h : (bs.map Binding.path).Nodup) {b : Binding} (hb : b ∈ bs) :
    (ofBindings bs).get? b.path = some b.value := by
  refine Keyed.get?_of_mem ((keys_ofBindings h).nodup_iff.2 h) ?_
  exact (ofBindings_perm h).symm.subset (List.mem_map.2 ⟨b, hb, rfl⟩)

theorem get?_ofBindings_eq_none (h : (bs.map Binding.path).Nodup) {path : String}
    (hpath : path ∉ bs.map Binding.path) : (ofBindings bs).get? path = none := by
  rw [Option.eq_none_iff_forall_not_mem]
  intro v hv
  have hmem := (ofBindings_perm h).subset (Keyed.mem_of_get? hv)
  obtain ⟨b, hb, heq⟩ := List.mem_map.1 hmem
  exact hpath (List.mem_map.2 ⟨b, hb, congrArg Prod.fst heq⟩)

end Params

/-- The bag of a statement is exactly what its text names. -/
structure Statement.Exact (s : Statement) : Prop where
  /-- Every path of the bag is named in one placeholder. -/
  once : ∀ e ∈ s.params, (Piece.scan none s.sql.toList).count (.placeholder e.1.toList) = 1
  /-- The text is made of characters and of placeholders that name paths of the bag. -/
  bound : ∀ piece ∈ Piece.scan none s.sql.toList,
    (∃ c, piece = .char c) ∨ ∃ e ∈ s.params, piece = .placeholder e.1.toList
  /-- No value takes the place of another one. -/
  kept : ∀ b ∈ s.command.bindings, s.params.get? b.path = some b.value
  size : s.params.length = s.command.bindings.length
  /-- In both styles, the placeholders are lowered to as many values as are bound. -/
  lowered : ∀ style, ∃ positional, s.lower style = .ok positional ∧
    positional.values.length = s.params.length

end QueryCompiler
