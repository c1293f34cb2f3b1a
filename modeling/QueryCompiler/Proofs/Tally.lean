import QueryCompiler.Tally
import QueryCompiler.Proofs.Keyed
import Mathlib.Algebra.GroupWithZero.Nat

/-!
# What the counters of a tally add up to

Every event that is counted for a model is counted in all too. As long as no counter is full, the
counters of the models therefore add up to those of all compilations (`Balanced`). A counter that has
been full is never seen to have room again, so it is enough to look at the tally as it is now.
-/

namespace QueryCompiler

namespace Keyed

variable {α : Type} {k : String} {l : List (String × α)}

/-- A key that comes before all others is the key of none. -/
theorem get?_eq_none_of_lt (h : ∀ k' ∈ l.map (·.1), k < k') : get? k l = none := by
  cases hget : get? k l with
  | none => rfl
  | some v => exact absurd (h k (List.mem_map_of_mem (mem_of_get? hget))) (String.lt_irrefl k)

/-- A value that is put into an ordered list counts in place of the one its key had. -/
theorem sum_insert (weight : α → Nat) (v : α) (h : (l.map (·.1)).Pairwise (· < ·)) :
    ((insert k v l).map fun p => weight p.2).sum + ((get? k l).map weight).getD 0 =
      (l.map fun p => weight p.2).sum + weight v := by
  induction l with
  | nil => simp [insert, get?]
  | cons p l ih =>
    obtain ⟨k', v'⟩ := p
    rw [List.map_cons, List.pairwise_cons] at h
    obtain ⟨hfirst, hrest⟩ := h
    have ih := ih hrest
    rw [insert]
    by_cases hlt : k < k'
    · have hnone : get? k ((k', v') :: l) = none := by
        refine get?_eq_none_of_lt fun k₂ hk₂ => ?_
        rcases List.mem_cons.1 hk₂ with rfl | hk₂
        · exact hlt
        · exact String.lt_trans hlt (hfirst k₂ hk₂)
      rw [if_pos hlt, hnone]
      simp only [List.map_cons, List.sum_cons, Option.map_none, Option.getD_none]
      omega
    · rw [if_neg hlt, get?]
      by_cases heq : k = k'
      · rw [if_pos heq, if_pos heq]
        simp only [List.map_cons, List.sum_cons, Option.map_some, Option.getD_some]
        omega
      · rw [if_neg heq, if_neg heq]
        simp only [List.map_cons, List.sum_cons]
        omega

/-- A change of one value changes the sum by as much. -/
theorem sum_alter (weight : α → Nat) {d : α} (hd : weight d = 0) (f : α → α)
    (h : (l.map (·.1)).Pairwise (· < ·)) :
    ((alter k d f l).map fun p => weight p.2).sum + weight ((get? k l).getD d) =
      (l.map fun p => weight p.2).sum + weight (f ((get? k l).getD d)) := by
  have hweight : weight ((get? k l).getD d) = ((get? k l).map weight).getD 0 := by
    cases get? k l with
    | none => exact hd
    | some v => rfl
  rw [hweight]
  exact sum_insert weight _ h

/-- What held of a changed list's values held before the change. -/
theorem forall_of_alter {P : α → Prop} {d : α} {f : α → α} (hf : ∀ v, P (f v) → P v)
    (hkeys : (l.map (·.1)).Pairwise (· < ·)) (h : ∀ p ∈ alter k d f l, P p.2) : ∀ p ∈ l, P p.2 := by
  have hnodup : (l.map (·.1)).Nodup := hkeys.imp fun hlt => String.ne_of_lt hlt
  rintro ⟨k', v⟩ hp
  have hget := get?_of_mem hnodup hp
  by_cases heq : k' = k
  · subst heq
    have hnew := h _ (mem_of_get? (get?_insert_self k' _ l))
    rw [hget] at hnew
    exact hf v hnew
  · have hkept : get? k' (alter k d f l) = some v := by rw [alter, get?_insert_of_ne _ _ heq, hget]
    exact h _ (mem_of_get? hkept)

end Keyed

/-- One more, and no more than fits. -/
theorem toNat_bump (n : UInt64) : (bump n).toNat = min (n.toNat + 1) (UInt64.size - 1) := by
  have hsize : UInt64.size = 2 ^ 64 := rfl
  have hlt : n.toNat < 2 ^ 64 := n.toNat_lt
  have hsum : (n + 1).toNat = (n.toNat + 1) % 2 ^ 64 := by simp [UInt64.toNat_add]
  rw [bump]
  by_cases hfull : n.toNat + 1 = 2 ^ 64
  · have hzero : n + 1 = 0 := UInt64.toNat_inj.1 (by rw [hsum, hfull]; rfl)
    rw [hzero, beq_self_eq_true, if_pos rfl]
    omega
  · have hne : (n + 1 == 0) = false := by
      rw [beq_eq_false_iff_ne]
      intro hzero
      have hnone : (n + 1).toNat = 0 := by rw [hzero]; rfl
      omega
    rw [hne, if_neg Bool.false_ne_true]
    omega

/-- A counter is not full. -/
def Counts (n : UInt64) : Prop :=
  n.toNat + 1 < UInt64.size

instance (n : UInt64) : Decidable (Counts n) :=
  inferInstanceAs (Decidable (_ < _))

/-- A counter that is not full after an event was not full before, and has counted the event. -/
theorem Counts.of_bump {n : UInt64} (h : Counts (bump n)) :
    Counts n ∧ (bump n).toNat = n.toNat + 1 := by
  rw [Counts, toNat_bump] at h
  rw [Counts, toNat_bump]
  omega

/-! ## Sums -/

namespace ModelTally

/-- The counters of a model. -/
def counters (m : ModelTally) : List UInt64 :=
  [m.statements, m.joined, m.subqueries]

/-- Counts a statement about the model. -/
def countStatement (m : ModelTally) : ModelTally :=
  { m with statements := bump m.statements }

/-- Counts a join of the model's table. -/
def countJoined (m : ModelTally) : ModelTally :=
  { m with joined := bump m.joined }

/-- Counts a subquery over the model's rows. -/
def countSubquery (m : ModelTally) : ModelTally :=
  { m with subqueries := bump m.subqueries }

end ModelTally

namespace Tally

/-- How many statements are counted by their kinds. -/
def calls (t : Tally) : Nat :=
  t.query.toNat + t.count.toNat + t.existence.toNat + t.aggregate.toNat + t.recursive.toNat +
    t.vectorSearch.toNat + t.deleteWhere.toNat

/-- What a counter of the models adds up to. -/
def overModels (t : Tally) (counter : ModelTally → UInt64) : Nat :=
  (t.models.map fun m => (counter m.2).toNat).sum

/-- The counters of all compilations. -/
def counters (t : Tally) : List UInt64 :=
  [t.query, t.count, t.existence, t.aggregate, t.recursive, t.vectorSearch, t.deleteWhere, t.joined,
    t.subqueries, t.failures]

/-- No counter is full. -/
structure HasRoom (t : Tally) : Prop where
  overall : ∀ n ∈ t.counters, Counts n
  models : ∀ m ∈ t.models, ∀ n ∈ m.2.counters, Counts n

/-- The counters of the models add up to those of all compilations. -/
structure Balanced (t : Tally) : Prop where
  statements : t.calls = t.overModels ModelTally.statements
  joined : t.joined.toNat = t.overModels ModelTally.joined
  subqueries : t.subqueries.toNat = t.overModels ModelTally.subqueries

theorem hasRoom_iff {t : Tally} : t.HasRoom ↔ (t.counters.all fun n => decide (Counts n)) = true ∧
    (t.models.all fun m => m.2.counters.all fun n => decide (Counts n)) = true := by
  simp only [List.all_eq_true, decide_eq_true_eq]
  exact ⟨fun h => ⟨h.overall, h.models⟩, fun h => ⟨h.1, h.2⟩⟩

instance (t : Tally) : Decidable t.HasRoom :=
  decidable_of_iff' _ hasRoom_iff

/-- The models stand in the order of their names. -/
def Ordered (t : Tally) : Prop :=
  (t.models.map (·.1)).Pairwise (· < ·)

variable {t : Tally} {model : String} {f : ModelTally → ModelTally}

/-! ## One event -/

theorem Ordered.countModel (h : t.Ordered) : (t.countModel model f).Ordered :=
  Keyed.pairwise_keys_insert h

theorem models_countKind (kind : StatementKind) : (t.countKind kind).models = t.models := by
  cases kind <;> rfl

theorem overModels_countKind (kind : StatementKind) (counter : ModelTally → UInt64) :
    (t.countKind kind).overModels counter = t.overModels counter := by
  rw [overModels, overModels, models_countKind]

theorem Ordered.countKind (h : t.Ordered) (kind : StatementKind) : (t.countKind kind).Ordered := by
  rw [Ordered, models_countKind]
  exact h

theorem Ordered.record (h : t.Ordered) (e : Event) : (t.record e).Ordered := by
  cases e with
  | compiled kind model => exact (h.countKind kind).countModel
  | joined model => exact Ordered.countModel (t := { t with joined := bump t.joined }) h
  | subquery model => exact Ordered.countModel (t := { t with subqueries := bump t.subqueries }) h
  | failed kind => exact h

/-- A statement is counted once among the kinds. -/
theorem HasRoom.of_countKind {kind : StatementKind} (h : (t.countKind kind).HasRoom) :
    t.HasRoom ∧ (t.countKind kind).calls = t.calls + 1 := by
  obtain ⟨hall, hmodels⟩ := h
  rw [models_countKind] at hmodels
  have hroom : (∀ n ∈ t.counters, Counts n) ∧ (t.countKind kind).calls = t.calls + 1 := by
    cases kind <;> simp only [countKind, counters, calls, List.forall_mem_cons] at hall ⊢ <;>
      grind [Counts.of_bump]
  exact ⟨⟨hroom.1, hmodels⟩, hroom.2⟩

section CountModel

variable (ho : t.Ordered) (model : String) (f : ModelTally → ModelTally)
  (counter : ModelTally → UInt64) (hd : (counter {}).toNat = 0)
include ho hd

/-- A change of a model's counter changes the sum by as much. -/
theorem overModels_countModel :
    (t.countModel model f).overModels counter +
        (counter ((Keyed.get? model t.models).getD {})).toNat =
      t.overModels counter + (counter (f ((Keyed.get? model t.models).getD {}))).toNat :=
  Keyed.sum_alter (fun m => (counter m).toNat) hd f ho

theorem overModels_kept (hf : ∀ m, counter (f m) = counter m) :
    (t.countModel model f).overModels counter = t.overModels counter := by
  have hsum := overModels_countModel ho model f counter hd
  rw [hf] at hsum
  omega

theorem overModels_bumped (hf : ∀ m, counter (f m) = bump (counter m))
    (hroom : Counts (bump (counter ((Keyed.get? model t.models).getD {})))) :
    (t.countModel model f).overModels counter = t.overModels counter + 1 := by
  have hsum := overModels_countModel ho model f counter hd
  rw [hf, hroom.of_bump.2] at hsum
  omega

end CountModel

theorem HasRoom.of_countModel (ho : t.Ordered)
    (hf : ∀ m, (∀ n ∈ (f m).counters, Counts n) → ∀ n ∈ m.counters, Counts n)
    (h : (t.countModel model f).HasRoom) :
    t.HasRoom ∧ ∀ n ∈ (f ((Keyed.get? model t.models).getD {})).counters, Counts n := by
  have hmodels := Keyed.forall_of_alter (P := fun m : ModelTally => ∀ n ∈ m.counters, Counts n) hf
    ho h.models
  refine ⟨⟨h.overall, hmodels⟩, ?_⟩
  exact h.models _ (Keyed.mem_of_get? (Keyed.get?_insert_self model _ t.models))

/-- If no counter is full after an event, none was full before, and the counters of the models add up
to those of all compilations if they did so before. -/
theorem record_balanced (ho : t.Ordered) (e : Event) (h : (t.record e).HasRoom) :
    t.HasRoom ∧ (t.Balanced → (t.record e).Balanced) := by
  cases e with
  | compiled kind model =>
    have hkeys := ho.countKind kind
    obtain ⟨hkind, hcounted⟩ := HasRoom.of_countModel (f := .countStatement) hkeys (fun m hm => by
      simp only [ModelTally.counters, List.forall_mem_cons] at hm ⊢
      exact ⟨hm.1.of_bump.1, hm.2⟩) h
    obtain ⟨hroom, hcalls⟩ := hkind.of_countKind
    refine ⟨hroom, fun hb => ⟨.symm ?_, .symm ?_, .symm ?_⟩⟩
    · refine (overModels_bumped hkeys model .countStatement ModelTally.statements rfl (fun _ => rfl)
        (hcounted _ List.mem_cons_self)).trans ?_
      rw [overModels_countKind, ← hb.statements]
      exact hcalls.symm
    · refine (overModels_kept hkeys model .countStatement ModelTally.joined rfl fun _ => rfl).trans ?_
      rw [overModels_countKind, ← hb.joined]
      cases kind <;> rfl
    · refine (overModels_kept hkeys model .countStatement ModelTally.subqueries rfl fun _ => rfl).trans ?_
      rw [overModels_countKind, ← hb.subqueries]
      cases kind <;> rfl
  | joined model =>
    have hkeys : Ordered { t with joined := bump t.joined } := ho
    obtain ⟨⟨hall, hmodels⟩, hcounted⟩ := HasRoom.of_countModel (f := .countJoined) hkeys
      (fun m hm => by
        simp only [ModelTally.counters, List.forall_mem_cons] at hm ⊢
        exact ⟨hm.1, hm.2.1.of_bump.1, hm.2.2⟩) h
    simp only [counters, List.forall_mem_cons] at hall
    refine ⟨⟨?_, hmodels⟩, fun hb => ⟨.symm ?_, .symm ?_, .symm ?_⟩⟩
    · simp only [counters, List.forall_mem_cons]
      grind [Counts.of_bump]
    · exact (overModels_kept hkeys model .countJoined ModelTally.statements rfl fun _ => rfl).trans
        hb.statements.symm
    · refine (overModels_bumped hkeys model .countJoined ModelTally.joined rfl (fun _ => rfl)
        (hcounted _ (List.mem_cons_of_mem _ List.mem_cons_self))).trans ?_
      have hone : Counts (bump t.joined) := by grind
      exact (congrArg (· + 1) hb.joined.symm).trans hone.of_bump.2.symm
    · exact (overModels_kept hkeys model .countJoined ModelTally.subqueries rfl fun _ => rfl).trans
        hb.subqueries.symm
  | subquery model =>
    have hkeys : Ordered { t with subqueries := bump t.subqueries } := ho
    obtain ⟨⟨hall, hmodels⟩, hcounted⟩ := HasRoom.of_countModel (f := .countSubquery) hkeys
      (fun m hm => by
        simp only [ModelTally.counters, List.forall_mem_cons] at hm ⊢
        exact ⟨hm.1, hm.2.1, hm.2.2.1.of_bump.1, nofun⟩) h
    simp only [counters, List.forall_mem_cons] at hall
    refine ⟨⟨?_, hmodels⟩, fun hb => ⟨.symm ?_, .symm ?_, .symm ?_⟩⟩
    · simp only [counters, List.forall_mem_cons]
      grind [Counts.of_bump]
    · exact (overModels_kept hkeys model .countSubquery ModelTally.statements rfl fun _ => rfl).trans
        hb.statements.symm
    · exact (overModels_kept hkeys model .countSubquery ModelTally.joined rfl fun _ => rfl).trans
        hb.joined.symm
    · refine (overModels_bumped hkeys model .countSubquery ModelTally.subqueries rfl (fun _ => rfl)
        (hcounted _ (List.mem_cons_of_mem _ (List.mem_cons_of_mem _ List.mem_cons_self)))).trans ?_
      have hone : Counts (bump t.subqueries) := by grind
      exact (congrArg (· + 1) hb.subqueries.symm).trans hone.of_bump.2.symm
  | failed kind =>
    obtain ⟨hall, hmodels⟩ := h
    refine ⟨⟨?_, hmodels⟩, fun hb => ⟨hb.statements, hb.joined, hb.subqueries⟩⟩
    simp only [record, counters, List.forall_mem_cons] at hall ⊢
    grind [Counts.of_bump]

/-! ## All events -/

/-- The counters of the models add up to those of all compilations, unless a counter is full. -/
theorem recordAll_balanced (events : List Event) (h : (recordAll {} events).HasRoom) :
    (recordAll {} events).Balanced := by
  have hall : ∀ (events : List Event) (t : Tally), t.Ordered → (t.recordAll events).HasRoom →
      t.HasRoom ∧ (t.Balanced → (t.recordAll events).Balanced) := by
    intro events
    induction events with
    | nil => exact fun t _ h => ⟨h, id⟩
    | cons e events ih =>
      intro t ho h
      obtain ⟨hroom, hrest⟩ := ih (t.record e) (ho.record e) h
      obtain ⟨hbefore, hstep⟩ := record_balanced ho e hroom
      exact ⟨hbefore, hrest ∘ hstep⟩
  exact (hall events {} .nil h).2 ⟨rfl, rfl, rfl⟩

end Tally
end QueryCompiler
