import QueryCompiler.Proofs.JoinTree.Walk
import QueryCompiler.Proofs.Parameters.Paths

/-!
# The layout of a statement's parameters

Outside of joins, every part of a statement binds its values under a first segment that is its own,
such as `c0` for what the root table is held to. No such segment is read as one of a join, so the
paths of parts that are put together differ if the parts do.
-/

namespace QueryCompiler.Params

variable {part path : String} {parts others paths more : List String} {lo mid hi n : Nat}

/-- Whether a segment is fit for the paths of a part: a path without dots that does not begin like
those of joins. -/
def isPart (part : String) : Bool :=
  part.toList.all (fun c => 46 < c.toNat && c.toNat ≤ 122) && part.toList.head?.any (· ≠ 'j')

theorem isPath_of_isPart (h : isPart part = true) : IsPath part := by
  rw [isPart, Bool.and_eq_true, List.all_eq_true] at h
  intro c hc
  have hrange := h.1 c hc
  rw [Bool.and_eq_true, decide_eq_true_eq, decide_eq_true_eq] at hrange
  omega

theorem dot_not_mem_part (h : isPart part = true) : '.' ∉ part.toList := by
  rw [isPart, Bool.and_eq_true, List.all_eq_true] at h
  intro hdot
  exact absurd (h.1 '.' hdot) (by decide)

theorem isPart_joinBase (n : Nat) (asked : Bool) : isPart (joinBase n asked) = false := by
  have hhead : (joinBase n asked).toList.head? = some 'j' := by simp [joinBase]
  rw [isPart, hhead]
  exact Bool.and_false _

theorem head_of_under (hpart : '.' ∉ part.toList) (h : Under part path) : Path.head path = part := by
  obtain ⟨rest, h⟩ := h
  have hall := Path.all_eq_splitOn path
  rw [h, List.splitOn_append_cons_self_of_not_mem hpart, List.map_cons, String.ofList_toList] at hall
  exact (List.cons.inj hall).1

theorem head_of_dotless (h : '.' ∉ path.toList) : Path.head path = path := by
  have hall := Path.all_eq_splitOn path
  rw [List.splitOn_eq_singleton h, List.map_singleton, String.ofList_toList] at hall
  exact (List.cons.inj hall).1

/-- What lies under a part is not read as the path of a join. -/
theorem Numbered.not_isPart (h : Numbered n path) : isPart (Path.head path) = false := by
  obtain ⟨asked, h⟩ := h
  rw [head_of_under (dot_not_mem_joinBase n asked) h]
  exact isPart_joinBase n asked

theorem isBase_of_isPart (h : isPart part = true) : IsBase part n where
  nonempty := by
    rintro rfl
    exact Bool.false_ne_true h
  isPath := isPath_of_isPart h
  fresh m _ path hunder hnumbered := by
    have hjoin := hnumbered.not_isPart
    rw [head_of_under (dot_not_mem_part h) hunder, h] at hjoin
    exact Bool.false_ne_true hjoin.symm

/-! ## Layouts -/

/-- The paths differ, and each lies in one of the parts or in the join of a table with a number from
`lo` up to `hi`. -/
structure Laid (parts : List String) (lo hi : Nat) (paths : List String) : Prop where
  le : lo ≤ hi
  fit : ∀ part ∈ parts, isPart part = true
  nodup : paths.Nodup
  within : ∀ path ∈ paths, Path.head path ∈ parts ∨ ∃ n, lo ≤ n ∧ n < hi ∧ Numbered n path

theorem laid_nil (hparts : ∀ part ∈ parts, isPart part = true) (n : Nat) : Laid parts n n [] :=
  ⟨le_rfl, hparts, .nil, List.forall_mem_nil _⟩

theorem laid_singleton (hpath : isPart path = true) (n : Nat) : Laid [path] n n [path] where
  le := le_rfl
  fit _ hpart := List.mem_singleton.1 hpart ▸ hpath
  nodup := List.nodup_singleton _
  within p hp := by
    obtain rfl := List.mem_singleton.1 hp
    rw [head_of_dotless (dot_not_mem_part hpath)]
    exact .inl List.mem_cons_self

theorem Scoped.laid (hpart : isPart part = true) (h : Scoped part lo hi paths) :
    Laid [part] lo hi paths where
  le := h.le
  fit _ hp := List.mem_singleton.1 hp ▸ hpart
  nodup := h.nodup
  within path hpath := by
    refine (h.within path hpath).imp_left fun hunder => ?_
    rw [head_of_under (dot_not_mem_part hpart) hunder]
    exact List.mem_cons_self

theorem Ranged.laid (hle : lo ≤ hi) (h : Ranged (fun n => lo ≤ n ∧ n < hi) paths) :
    Laid [] lo hi paths := by
  refine ⟨hle, List.forall_mem_nil _, h.nodup, fun path hpath => ?_⟩
  obtain ⟨n, ⟨hlo, hhi⟩, hnumbered⟩ := h.within path hpath
  exact .inr ⟨n, hlo, hhi, hnumbered⟩

theorem Laid.perm (h : Laid parts lo hi paths) (hperm : paths.Perm more) : Laid parts lo hi more :=
  ⟨h.le, h.fit, hperm.nodup_iff.1 h.nodup, fun path hpath =>
    h.within path (hperm.symm.subset hpath)⟩

theorem Laid.widen {lo' hi' : Nat} (h : Laid parts lo hi paths) (hlo : lo' ≤ lo) (hhi : hi ≤ hi') :
    Laid parts lo' hi' paths := by
  refine ⟨hlo.trans (h.le.trans hhi), h.fit, h.nodup, fun path hpath => ?_⟩
  refine (h.within path hpath).imp_right ?_
  rintro ⟨n, hn, hn', hnumbered⟩
  exact ⟨n, hlo.trans hn, hn'.trans_le hhi, hnumbered⟩

/-- Parts that are resolved one after the other. -/
theorem Laid.append (h : Laid parts lo mid paths) (h' : Laid others mid hi more)
    (hapart : ∀ part ∈ parts, part ∉ others) : Laid (parts ++ others) lo hi (paths ++ more) := by
  have hdisjoint : paths.Disjoint more := by
    intro path hpath hmore
    rcases h.within path hpath with hpart | ⟨m, hm, hmid, hnumbered⟩
    · rcases h'.within path hmore with hother | ⟨n, -, -, hnumbered⟩
      · exact hapart _ hpart hother
      · have hjoin := hnumbered.not_isPart
        rw [h.fit _ hpart] at hjoin
        exact Bool.false_ne_true hjoin.symm
    · rcases h'.within path hmore with hother | ⟨n, hn, -, hnumbered'⟩
      · have hjoin := hnumbered.not_isPart
        rw [h'.fit _ hother] at hjoin
        exact Bool.false_ne_true hjoin.symm
      · have := hnumbered.inj hnumbered'
        omega
  refine ⟨h.le.trans h'.le, fun part hpart => ?_,
    List.nodup_append'.2 ⟨h.nodup, h'.nodup, hdisjoint⟩, fun path hmem => ?_⟩
  · exact (List.mem_append.1 hpart).elim (h.fit part) (h'.fit part)
  · rcases List.mem_append.1 hmem with hpath | hpath
    · rcases (h.widen le_rfl h'.le).within path hpath with hpart | hnumbered
      · exact .inl (List.mem_append_left _ hpart)
      · exact .inr hnumbered
    · rcases (h'.widen h.le le_rfl).within path hpath with hpart | hnumbered
      · exact .inl (List.mem_append_right _ hpart)
      · exact .inr hnumbered

end QueryCompiler.Params
