import QueryCompiler.Condition.Match
import Mathlib.Data.List.Basic

/-!
# The algebra of verdicts

Under each connective the verdicts are a semilattice: the order and the number of the members of a
group do not matter, and absent is neutral, so an absent member does not either. Negation takes one
connective to the other. A condition may be rewritten by these laws at any place, under negations, in
groups and in the conditions on related rows, and keeps its verdict (`Condition.verdict_rewrites`).
-/

namespace QueryCompiler

/-- The connective that negation makes of a connective. -/
def Connective.dual : Connective → Connective
  | .and => .or
  | .or => .and

namespace Verdict

/-- The verdict of a member that settles its group. -/
def decisive : Connective → Verdict
  | .and => .fails
  | .or => .holds

/-- The verdict of a group of two. -/
def join (k : Connective) : Verdict → Verdict → Verdict
  | .absent, v => v
  | u, .absent => u
  | u, v => if u = v then u else decisive k

section

variable (k : Connective) (u v w : Verdict)

theorem join_comm : join k u v = join k v u := by
  cases k <;> cases u <;> cases v <;> rfl

theorem join_assoc : join k (join k u v) w = join k u (join k v w) := by
  cases k <;> cases u <;> cases v <;> cases w <;> rfl

theorem join_left_comm : join k u (join k v w) = join k v (join k u w) := by
  rw [← join_assoc, join_comm k u, join_assoc]

theorem join_self : join k u u = u := by
  cases k <;> cases u <;> rfl

theorem join_eq_absent_iff : join k u v = .absent ↔ u = .absent ∧ v = .absent := by
  cases k <;> cases u <;> cases v <;> decide

theorem negate_negate : u.negate.negate = u := by
  cases u <;> rfl

theorem negate_join : (join k u v).negate = join k.dual u.negate v.negate := by
  cases k <;> cases u <;> cases v <;> rfl

theorem negate_eq_absent_iff : u.negate = .absent ↔ u = .absent := by
  cases u <;> decide

end

/-! ## Groups -/

theorem combine_cons (k : Connective) (v : Verdict) (vs : List Verdict) :
    combine k (v :: vs) = join k v (combine k vs) := by
  have hand : ∀ a b, ofBool (a && b) = join .and (ofBool a) (ofBool b) := by decide
  have hor : ∀ a b, ofBool (a || b) = join .or (ofBool a) (ofBool b) := by decide
  unfold combine
  cases v with
  | absent => rfl
  | holds | fails =>
    rw [List.filter_cons_of_pos (by rfl)]
    -- the group of the others is absent if none of them is present, and an answer otherwise
    cases vs.filter (fun v => !v.isAbsent) with
    | nil => cases k <;> rfl
    | cons w ws =>
      cases k with
      | and => exact hand _ _
      | or => exact hor _ _

variable {k : Connective} {v : Verdict} {us vs : List Verdict}

theorem combine_append (k : Connective) (us vs : List Verdict) :
    combine k (us ++ vs) = join k (combine k us) (combine k vs) := by
  induction us with
  | nil => rfl
  | cons u us ih => rw [List.cons_append, combine_cons, ih, ← join_assoc, combine_cons k u]

theorem combine_perm (k : Connective) (h : us.Perm vs) : combine k us = combine k vs := by
  induction h with
  | nil => rfl
  | cons u _ ih => rw [combine_cons, ih, ← combine_cons]
  | swap u v us => rw [combine_cons, combine_cons, join_left_comm, ← combine_cons, ← combine_cons]
  | trans _ _ ih ih' => exact ih.trans ih'

theorem join_combine_of_mem (k : Connective) (h : v ∈ vs) : join k v (combine k vs) = combine k vs := by
  induction h with
  | head vs => rw [combine_cons, ← join_assoc, join_self]
  | tail u _ ih => rw [combine_cons, join_left_comm, ih]

theorem combine_eq_absent_iff : combine k vs = .absent ↔ ∀ v ∈ vs, v = .absent := by
  induction vs with
  | nil => exact iff_of_true rfl nofun
  | cons v vs ih => rw [combine_cons, join_eq_absent_iff, ih, List.forall_mem_cons]

theorem negate_combine (k : Connective) (vs : List Verdict) :
    (combine k vs).negate = combine k.dual (vs.map negate) := by
  induction vs with
  | nil => rfl
  | cons v vs ih => rw [combine_cons, negate_join, ih, List.map_cons, combine_cons]

end Verdict

namespace Condition

theorem verdicts_eq_map (cs : List Condition) (row : Row) :
    verdicts cs row = cs.map (·.verdict row) := by
  induction cs with
  | nil => rfl
  | cons c cs ih => rw [verdicts, ih, List.map_cons]

theorem verdict_negate (c : Condition) (row : Row) :
    (negate c).verdict row = (c.verdict row).negate := by
  rw [verdict]

theorem verdict_group (k : Connective) (cs : List Condition) (row : Row) :
    (group k cs).verdict row = .combine k (cs.map (·.verdict row)) := by
  rw [verdict, verdicts_eq_map]

theorem verdict_group_append (k : Connective) (cs ds : List Condition) (row : Row) :
    (group k (cs ++ ds)).verdict row = .join k ((group k cs).verdict row) ((group k ds).verdict row) := by
  simp only [verdict_group, List.map_append, Verdict.combine_append]

theorem verdict_group_cons (k : Connective) (c : Condition) (cs : List Condition) (row : Row) :
    (group k (c :: cs)).verdict row = .join k (c.verdict row) ((group k cs).verdict row) := by
  simp only [verdict_group, List.map_cons, Verdict.combine_cons]

/-! ## The laws -/

/-- One law, for a whole condition on a row. -/
inductive Law (row : Row) : Condition → Condition → Prop where
  /-- The order of members does not matter. -/
  | permute {k : Connective} {cs ds : List Condition} (h : cs.Perm ds) : Law row (.group k cs) (.group k ds)
  /-- A member need not be repeated. -/
  | repeated {k : Connective} {c : Condition} {cs : List Condition} (h : c ∈ cs) : Law row (.group k (c :: cs)) (.group k cs)
  /-- A member that is absent on the row may be left out. -/
  | absent {k : Connective} {front : List Condition} {c : Condition} {back : List Condition}
      (h : c.verdict row = .absent) :
      Law row (.group k (front ++ c :: back)) (.group k (front ++ back))
  /-- The members of a group of the same connective may stand in its place. -/
  | flatten {k : Connective} {front inner back : List Condition} :
      Law row (.group k (front ++ .group k inner :: back)) (.group k (front ++ inner ++ back))
  | negateTwice {c : Condition} : Law row (.negate (.negate c)) c
  | deMorgan {k : Connective} {cs : List Condition} : Law row (.negate (.group k cs)) (.group k.dual (cs.map .negate))

/-- The laws lead from one condition to the other on a row, each used at any place and in either
direction. -/
inductive Rewrites : Row → Condition → Condition → Prop where
  | law {row : Row} {c d : Condition} (h : Law row c d) : Rewrites row c d
  | refl {row : Row} {c : Condition} : Rewrites row c c
  | symm {row : Row} {c d : Condition} (h : Rewrites row c d) : Rewrites row d c
  | trans {row : Row} {c d e : Condition} (h : Rewrites row c d) (h' : Rewrites row d e) :
      Rewrites row c e
  | member {row : Row} {k : Connective} {front : List Condition} {c d : Condition}
      {back : List Condition} (h : Rewrites row c d) :
      Rewrites row (.group k (front ++ c :: back)) (.group k (front ++ d :: back))
  | negate {row : Row} {c d : Condition} (h : Rewrites row c d) :
      Rewrites row (.negate c) (.negate d)
  /-- The condition on related rows is rewritten on all of them. -/
  | related {row : Row} {path : String} {c d : Condition} {joins : List Join} {negated : Bool}
      (h : ∀ items, (row.read path).items? = some items → ∀ item ∈ items, Rewrites item.row c d) :
      Rewrites row (.related path (some c) joins negated) (.related path (some d) joins negated)

theorem Law.verdict_eq {row : Row} {c d : Condition} (h : Law row c d) : c.verdict row = d.verdict row := by
  cases h with
  | permute h =>
    rw [verdict_group, verdict_group]
    exact Verdict.combine_perm _ (h.map _)
  | repeated h =>
    rw [verdict_group_cons, verdict_group]
    exact Verdict.join_combine_of_mem _ (List.mem_map_of_mem h)
  | absent h =>
    rw [verdict_group_append, verdict_group_cons, h, verdict_group_append]
    rfl
  | flatten =>
    rw [List.append_assoc, verdict_group_append, verdict_group_cons, verdict_group_append,
      verdict_group_append]
  | negateTwice => rw [verdict_negate, verdict_negate, Verdict.negate_negate]
  | deMorgan =>
    rw [verdict_negate, verdict_group, verdict_group, Verdict.negate_combine, List.map_map, List.map_map]
    exact congrArg _ (List.map_congr_left fun c _ => (verdict_negate c row).symm)

theorem relatedVerdict_congr {related : Value} {negated : Bool} {test test' : Row → Bool}
    (h : ∀ items, related.items? = some items → ∀ item ∈ items, test item.row = test' item.row) :
    relatedVerdict related negated test = relatedVerdict related negated test' := by
  unfold relatedVerdict
  cases hitems : related.items? with
  | none => rfl
  | some items =>
    refine congrArg (fun b => Verdict.ofBool (b != negated)) (Bool.eq_iff_iff.2 ?_)
    rw [List.any_eq_true, List.any_eq_true]
    exact exists_congr fun item => and_congr_right fun hitem => by rw [h items hitems item hitem]

/-- What the laws lead to has the same verdict. -/
theorem verdict_rewrites {row : Row} {c d : Condition} (h : Rewrites row c d) :
    c.verdict row = d.verdict row := by
  induction h with
  | law h => exact h.verdict_eq
  | refl => rfl
  | symm _ ih => exact ih.symm
  | trans _ _ ih ih' => exact ih.trans ih'
  | member _ ih =>
    rw [verdict_group_append, verdict_group_cons, ih, ← verdict_group_cons, ← verdict_group_append]
  | negate _ ih => rw [verdict_negate, verdict_negate, ih]
  | related _ ih =>
    rw [verdict, verdict]
    refine relatedVerdict_congr fun items hitems item hitem => ?_
    rw [ih items hitems item hitem]

/-- Without a name there is no tagless name. What names no field is left out on the way, and the name
is asked for once. -/
theorem unnamed_rewrites :
    let named := compare "name" .isNotNull .null false
    let tagless := compare "tag" .isNull .null false
    let nameless := compare "" .isNull .null false
    let given := negate (group .and [nameless, named, group .and [tagless, named]])
    let wanted := group .or [negate named, negate tagless]
    Rewrites (fun _ => none) given wanted ∧
      given.verdict (fun _ => none) = wanted.verdict (fun _ => none) ∧
      wanted.verdict (fun _ => none) = .holds := by
  intro named tagless nameless given wanted
  have hrewrites : Rewrites (fun _ => none) given wanted := by
    have habsent : Law (fun _ => none) (group .and [nameless, named, group .and [tagless, named]])
        (group .and [named, group .and [tagless, named]]) :=
      @Law.absent _ _ [] nameless _ rfl
    have hflatten : Law (fun _ => none) (group .and [named, group .and [tagless, named]])
        (group .and [named, tagless, named]) :=
      @Law.flatten _ _ [named] _ []
    have hrepeated : Law (fun _ => none) (group .and [named, tagless, named])
        (group .and [tagless, named]) :=
      .repeated (List.mem_of_getLast? rfl)
    have hpermute : Law (fun _ => none) (group .and [tagless, named]) (group .and [named, tagless]) :=
      .permute (List.Perm.swap _ _ _)
    have hmembers := (((Rewrites.law habsent).trans (.law hflatten)).trans
      (.law hrepeated)).trans (.law hpermute)
    exact hmembers.negate.trans (.law .deMorgan)
  exact ⟨hrewrites, verdict_rewrites hrewrites, rfl⟩

end Condition
end QueryCompiler
