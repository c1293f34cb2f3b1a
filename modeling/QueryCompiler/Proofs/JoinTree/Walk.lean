import QueryCompiler.JoinTree.Basic
import QueryCompiler.Proofs.Keyed
import Mathlib.Data.List.TakeDrop
import Mathlib.Data.List.TakeWhile

/-!
# Where paths lead

A path leads over relationships from one model to another. `walk?` follows it in the catalog alone,
so that the tables of a join tree can be compared with it: which model a path leads to, and whether
every field on the way may be named, does not depend on what has been joined.
-/

namespace QueryCompiler

namespace Path

/-- All segments of a path. -/
def all (path : String) : List String :=
  (segments path).1 :: (segments path).2

theorem all_eq_cons (path : String) : ∃ rest, all path = head path :: rest :=
  ⟨_, rfl⟩

theorem head_of_all {path segment : String} {rest : List String} (h : all path = segment :: rest) :
    head path = segment :=
  (List.cons.inj h).1

theorem all_eq_splitOn (path : String) : all path = (path.toList.splitOn '.').map .ofList := by
  rw [all, segments]
  cases h : path.toList.splitOn '.' with
  | nil => exact absurd h (List.splitOn_ne_nil _ _)
  | cons s ss => rfl

theorem all_injective {path path' : String} (h : all path = all path') : path = path' := by
  rw [all_eq_splitOn, all_eq_splitOn] at h
  have hsplit := List.map_injective_iff.2 (fun _ _ => String.ofList_injective) h
  have hjoin := congrArg ['.'].intercalate hsplit
  rw [List.intercalate_splitOn, List.intercalate_splitOn] at hjoin
  exact String.toList_injective hjoin

theorem all_of_splitLast_eq_none {path : String} (h : splitLast path = none) :
    all path = [path] := by
  have hdot : '.' ∉ path.toList := by
    rw [splitLast, List.span_eq_takeWhile_dropWhile] at h
    split at h
    case h_1 b heq =>
      have hall := List.dropWhile_eq_nil_iff.1 (congrArg Prod.snd heq)
      intro hmem
      exact absurd (hall '.' (List.mem_reverse.2 hmem)) (by decide)
    case h_2 => exact absurd h nofun
  rw [all_eq_splitOn, List.splitOn_eq_singleton hdot, List.map_singleton, String.ofList_toList]

theorem all_of_splitLast_eq_some {path before name : String}
    (h : splitLast path = some (before, name)) : all path = all before ++ [name] := by
  rw [splitLast] at h
  split at h
  case h_1 => exact absurd h nofun
  case h_2 b x a heq =>
    rw [List.span_eq_takeWhile_dropWhile] at heq
    obtain ⟨rfl, rfl⟩ := Prod.mk.inj (Option.some.inj h)
    have hb : b = path.toList.reverse.takeWhile (· ≠ '.') := (congrArg Prod.fst heq).symm
    have ha : path.toList.reverse.dropWhile (· ≠ '.') = x :: a := congrArg Prod.snd heq
    have hx : x = '.' := by
      have hhead := List.head?_dropWhile_not (fun c => decide (c ≠ '.')) path.toList.reverse
      rw [ha] at hhead
      simpa using hhead
    have hsplit : path.toList = a.reverse ++ '.' :: b.reverse := by
      have happ := List.takeWhile_append_dropWhile (p := fun c => decide (c ≠ '.'))
        (l := path.toList.reverse)
      rw [ha, ← hb, hx] at happ
      rw [← List.reverse_reverse path.toList, ← happ]
      simp
    have hdot : '.' ∉ b.reverse := by
      rw [List.mem_reverse, hb]
      intro hmem
      exact absurd (List.mem_takeWhile_imp hmem) (by decide)
    rw [all_eq_splitOn, all_eq_splitOn, hsplit, String.toList_ofList,
      List.splitOn_append_cons_self, List.splitOn_eq_singleton hdot, List.map_append,
      List.map_singleton]

theorem all_of_splitFirst_eq_none {path first : String} (h : splitFirst path = (first, none)) :
    all path = [first] := by
  rw [splitFirst, List.span_eq_takeWhile_dropWhile] at h
  split at h
  case h_2 => simp at h
  case h_1 a heq =>
    obtain ⟨rfl, -⟩ := Prod.mk.inj h
    obtain ⟨rfl, hrest⟩ := Prod.mk.inj heq
    have hdot : '.' ∉ path.toList := by
      intro hmem
      simpa using List.dropWhile_eq_nil_iff.1 hrest '.' hmem
    rw [all_eq_splitOn, List.splitOn_eq_singleton hdot, List.map_singleton,
      List.takeWhile_eq_self_iff.2 (List.dropWhile_eq_nil_iff.1 hrest)]

theorem all_of_splitFirst_eq_some {path first rest : String}
    (h : splitFirst path = (first, some rest)) : all path = first :: all rest := by
  rw [splitFirst, List.span_eq_takeWhile_dropWhile] at h
  split at h
  case h_1 => simp at h
  case h_2 a x b heq =>
    obtain ⟨rfl, hrest⟩ := Prod.mk.inj h
    obtain rfl := Option.some.inj hrest
    obtain ⟨ha, hb⟩ := Prod.mk.inj heq
    have hx : x = '.' := by
      have hhead := List.head?_dropWhile_not (fun c => decide (c ≠ '.')) path.toList
      rw [hb] at hhead
      simpa using hhead
    have hdot : '.' ∉ a := by
      rw [← ha]
      intro hmem
      simpa using List.mem_takeWhile_imp hmem
    have hpath : path.toList = a ++ '.' :: b := by
      rw [← List.takeWhile_append_dropWhile (p := fun c => decide (c ≠ '.')) (l := path.toList), ha,
        hb, hx]
    rw [all_eq_splitOn, all_eq_splitOn, hpath, String.toList_ofList,
      List.splitOn_append_cons_self, List.splitOn_eq_singleton hdot, List.map_append,
      List.map_singleton, List.singleton_append]

end Path

namespace Field

variable {f : Field}

theorem isRelation_iff : f.isRelation = true ↔ ∃ r, f.kind = .relation r := by
  rw [isRelation, relation?]
  cases f.kind <;> simp

theorem isRelation_eq_false (h : ∀ r, f.kind ≠ .relation r) : f.isRelation = false := by
  rw [Bool.eq_false_iff, Ne, isRelation_iff]
  exact fun ⟨r, hr⟩ => h r hr

end Field

namespace Model

variable {m : Model} {name : String}

theorem mem_of_field? {f : Field} (h : m.field? name = some f) : f ∈ m.fields ∧ f.name = name :=
  ⟨List.mem_of_find?_eq_some h, by simpa using List.find?_some h⟩

theorem basicField?_eq_some {b : BasicField} (h : m.basicField? name = some b) :
    ∃ f, m.field? name = some f ∧ f.kind = .basic b := by
  obtain ⟨f, hf, hb⟩ := Option.bind_eq_some_iff.1 h
  refine ⟨f, hf, ?_⟩
  rw [Field.basic?] at hb
  split at hb
  case h_1 hk => rw [hk, Option.some.inj hb]
  case h_2 => exact absurd hb nofun

end Model

namespace Access

variable {a : Access} {name : String} {checked : Bool} {f : Field}

theorem field_eq_ok : a.field name checked = .ok f ↔
    a.model.field? name = some f ∧ (checked = true → a.permits name = true) := by
  rw [field]
  cases a.model.field? name with
  | none => simp
  | some g => cases checked <;> cases a.permits name <;> simp

theorem field_unchecked (h : a.field name checked = .ok f) : a.field name false = .ok f := by
  rw [field_eq_ok] at h ⊢
  exact ⟨h.1, nofun⟩

theorem name_of_field (h : a.field name checked = .ok f) : f.name = name ∧ f ∈ a.model.fields :=
  (Model.mem_of_field? (field_eq_ok.1 h).1).symm

/-- Reads of a model are held to the caller's rule, to that rows are not marked as deleted, or to
both. -/
theorem enforced?_eq_some {ignoreDeleted : Bool} {c : Condition}
    (h : a.enforced? ignoreDeleted = some c) :
    c = notDeleted ∨ a.rows? = some c ∨
      ∃ rule, a.rows? = some rule ∧ c = .group .and [notDeleted, rule] := by
  rw [enforced?] at h
  cases hrows : a.rows? with
  | none =>
    rw [hrows] at h
    split at h
    · exact .inl (Option.some.inj h).symm
    · exact absurd h nofun
  | some rule =>
    rw [hrows] at h
    split at h
    · exact .inr (.inr ⟨rule, rfl, (Option.some.inj h).symm⟩)
    · exact .inr (.inl h)

end Access

namespace Catalog

/-- The access is the caller's to some model of the catalog. -/
def Knows (catalog : Catalog) (a : Access) : Prop :=
  ∃ name, catalog.access name = .ok a

/-- The model at the other end of a relationship. -/
def hop? (catalog : Catalog) (checked : Bool) (a : Access) (name : String) : Option Access :=
  match a.field name checked with
  | .ok f =>
    match f.kind with
    | .relation r => (catalog.target a.model name r).toOption
    | _ => none
  | .error _ => none

/-- The model that relationships lead to one after the other. -/
def walk? (catalog : Catalog) (checked : Bool) (a : Access) : TablePath → Option Access
  | [] => some a
  | name :: names => (catalog.hop? checked a name).bind fun b => walk? catalog checked b names

variable {catalog : Catalog} {checked : Bool} {a b : Access} {name : String}

theorem hop?_eq_some : catalog.hop? checked a name = some b ↔ ∃ f r,
    a.field name checked = .ok f ∧ f.kind = .relation r ∧
      catalog.target a.model name r = .ok b := by
  rw [hop?]
  cases a.field name checked with
  | error e => simp
  | ok f =>
    cases hk : f.kind with
    | basic b => simp [hk]
    | group g => simp [hk]
    | relation r => cases htarget : catalog.target a.model name r <;> simp [Except.toOption, hk, htarget]

theorem hop?_unchecked (h : catalog.hop? checked a name = some b) :
    catalog.hop? false a name = some b := by
  obtain ⟨f, r, hf, hk, ht⟩ := hop?_eq_some.1 h
  exact hop?_eq_some.2 ⟨f, r, Access.field_unchecked hf, hk, ht⟩

theorem walk?_append (a : Access) (p q : TablePath) :
    catalog.walk? checked a (p ++ q) =
      (catalog.walk? checked a p).bind fun b => catalog.walk? checked b q := by
  induction p generalizing a with
  | nil => rfl
  | cons name p ih =>
    rw [List.cons_append, walk?, walk?, Option.bind_assoc]
    exact congrArg _ (funext ih)

theorem walk?_concat (a : Access) (p : TablePath) (name : String) :
    catalog.walk? checked a (p ++ [name]) =
      (catalog.walk? checked a p).bind fun b => catalog.hop? checked b name := by
  rw [walk?_append]
  refine congrArg _ (funext fun b => ?_)
  rw [walk?]
  cases catalog.hop? checked b name <;> rfl

theorem walk?_unchecked {p : TablePath} (h : catalog.walk? checked a p = some b) :
    catalog.walk? false a p = some b := by
  induction p generalizing a with
  | nil => exact h
  | cons name p ih =>
    obtain ⟨c, hc, h⟩ := Option.bind_eq_some_iff.1 h
    exact Option.bind_eq_some_iff.2 ⟨c, hop?_unchecked hc, ih h⟩

theorem access_eq_ok {name : String} : catalog.access name = .ok a ↔ ∃ m,
    catalog.models.model? name = some m ∧ a = ⟨m, Keyed.get? m.name catalog.permissions⟩ := by
  rw [access]
  cases catalog.models.model? name with
  | none => simp
  | some m => simp [eq_comm]

/-- The model that is known is registered. -/
theorem Knows.exists_mem (h : catalog.Knows a) : ∃ name, (name, a.model) ∈ catalog.models := by
  obtain ⟨name, h⟩ := h
  obtain ⟨m, hm, rfl⟩ := access_eq_ok.1 h
  exact ⟨name, Keyed.mem_of_get? hm⟩

theorem knows_of_target {owner : Model} {field : String} {r : Relation}
    (h : catalog.target owner field r = .ok a) : catalog.Knows a := by
  rw [target] at h
  split at h
  case h_1 a' haccess => exact ⟨r.target, Except.ok.inj h ▸ haccess⟩
  · exact absurd h nofun

theorem Knows.walk? {path : TablePath} (ha : catalog.Knows a)
    (h : catalog.walk? checked a path = some b) : catalog.Knows b := by
  induction path generalizing a with
  | nil => exact Option.some.inj h ▸ ha
  | cons name path ih =>
    obtain ⟨c, hhop, h⟩ := Option.bind_eq_some_iff.1 h
    obtain ⟨f, r, -, -, htarget⟩ := hop?_eq_some.1 hhop
    exact ih (knows_of_target htarget) h

end Catalog
end QueryCompiler
