import QueryCompiler.Proofs.Boolean.Conditions

/-!
# Conditions that say nothing

Whether a condition has a text is seen before it is resolved. A comparison that is dropped has none,
and neither has a condition over no relationship; a group has none if no member has, and a negation
has none if there is nothing to negate. Such a condition is resolved without reading a path, in every
scope (`resolve_of_saysNothing`). No other condition is left without a text, unless it has a template
of the caller's in it (`saysNothing_of_text`).
-/

namespace QueryCompiler

/-- A predicate that adds nothing to a statement. -/
structure Predicate.IsSilent (p : Predicate) : Prop where
  text : p.text = ""
  bindings : p.bindings = []

namespace Predicate

theorem isSilent_absent : IsSilent .absent :=
  ⟨rfl, rfl⟩

theorem isSilent_group (k : Connective) {parts : List Predicate} (h : ∀ p ∈ parts, p.IsSilent) :
    IsSilent (.group k parts) := by
  have hparts : (texts parts).filter (fun s => !s.isEmpty) = [] ∧ bindingsOf parts = [] := by
    induction parts with
    | nil => exact ⟨rfl, rfl⟩
    | cons p parts ih =>
      obtain ⟨hp, hparts⟩ := List.forall_mem_cons.1 h
      obtain ⟨htexts, hbindings⟩ := ih hparts
      rw [texts, bindingsOf, hp.text, hp.bindings]
      exact ⟨htexts, hbindings⟩
  constructor
  · rw [text, Text.joinFragments, hparts.1]
  · rw [bindings, hparts.2]

theorem formula?_ne_none {p : Predicate} (hp : p.AtomicLeaves) (h : Atomic p.text.toList) :
    p.formula? ≠ none :=
  fun hnone => Expresses.ne_empty (.atom h) ((p.says_text hp).eq_empty_iff.2 hnone)

theorem IsSilent.negate {p : Predicate} (h : p.IsSilent) : IsSilent (.negate p) := by
  constructor
  · rw [Predicate.text, h.text]
    rfl
  · rw [Predicate.bindings, h.bindings]

end Predicate

namespace Condition

mutual

/-- Nothing is left of the condition once what is dropped is dropped. -/
def saysNothing : Condition → Bool
  | .compare path op value skipEmpty => comparesNothing path op value skipEmpty
  | .group _ members => sayNothing members
  | .negate inner => inner.saysNothing
  | .related path _ _ _ => path.isEmpty
  | .custom _ _ _ | .search _ _ _ => false

/-- `saysNothing` of all members of a group. -/
def sayNothing : List Condition → Bool
  | [] => true
  | c :: cs => c.saysNothing && sayNothing cs

end

mutual

/-- The condition has a template of the caller's, outside its conditions over related rows. -/
def hasTemplate : Condition → Bool
  | .custom _ _ _ => true
  | .group _ members => haveTemplate members
  | .negate inner => inner.hasTemplate
  | .compare _ _ _ _ | .related _ _ _ _ | .search _ _ _ => false

/-- `hasTemplate` of some member of a group. -/
def haveTemplate : List Condition → Bool
  | [] => false
  | c :: cs => c.hasTemplate || haveTemplate cs

end

open Build

variable {σ : Type} {d : Dialect} {names : Names σ} {s : σ} {q q' : Progress}

mutual

/-- What says nothing is resolved to a predicate that adds nothing, whatever its paths stand for. -/
theorem resolve_of_saysNothing : ∀ (c : Condition) {base : String}, c.saysNothing = true →
    ∃ p, c.resolve d names s base = pure p ∧ p.IsSilent
  | .compare path op value skipEmpty, base, h =>
    ⟨.absent, by rw [resolve]; exact if_pos h, Predicate.isSilent_absent⟩
  | .related path inner joins negated, base, h =>
    ⟨.absent, by rw [resolve_related]; exact if_pos h, Predicate.isSilent_absent⟩
  | .negate inner, base, h => by
    obtain ⟨p, hp, hsilent⟩ := resolve_of_saysNothing inner h
    exact ⟨.negate p, by rw [resolve, hp, pure_bind], hsilent.negate⟩
  | .group k members, base, h => by
    obtain ⟨parts, hparts, hsilent⟩ := resolveMembers_of_sayNothing members h
    exact ⟨.group k parts, by rw [resolve, hparts, pure_bind], Predicate.isSilent_group k hsilent⟩
  | .custom _ _ _, _, h => absurd h Bool.false_ne_true
  | .search _ _ _, _, h => absurd h Bool.false_ne_true

theorem resolveMembers_of_sayNothing : ∀ (cs : List Condition) {base : String} {i : Nat},
    sayNothing cs = true →
    ∃ ps, resolveMembers d names cs s base i = pure ps ∧ ∀ p ∈ ps, p.IsSilent
  | [], base, i, _ => ⟨[], by rw [resolveMembers], nofun⟩
  | c :: cs, base, i, h => by
    obtain ⟨hc, hcs⟩ := Bool.and_eq_true_iff.1 h
    obtain ⟨p, hp, hsilent⟩ := resolve_of_saysNothing c hc
    obtain ⟨ps, hps, hsilents⟩ := resolveMembers_of_sayNothing cs hcs
    refine ⟨p :: ps, by rw [resolveMembers, hp, pure_bind, hps, pure_bind], ?_⟩
    exact List.forall_mem_cons.2 ⟨hsilent, hsilents⟩

end

/-! ## What has no text says nothing -/

mutual

theorem saysNothing_of_formula? : ∀ (c : Condition) {base : String} {p : Predicate}
    {q q' : Progress}, c.hasTemplate = false → (c.resolve d names s base).run q = .ok p q' →
    p.AtomicLeaves ∧ (p.formula? = none → c.saysNothing = true)
  | .compare path op value skipEmpty, base, p, q, q', _, h => by
    have hleaf := (resolve_compare h).1
    refine ⟨hleaf.atomic, fun hnone => ?_⟩
    obtain ⟨-, ⟨hnothing, -⟩ | ⟨-, column, -, hop⟩⟩ := resolve_compare_eq_ok.1 h
    · exact hnothing
    · exact absurd hnone (Predicate.formula?_ne_none hleaf.atomic (Operator.atomic_resolve hop))
  | .search path value mode, base, p, q, q', _, h => by
    obtain ⟨sql, bindings, rfl, hatomic⟩ := atomic_resolve_search h
    exact ⟨fun _ => hatomic, fun hnone =>
      absurd hnone (Predicate.formula?_ne_none (fun _ => hatomic) hatomic)⟩
  | .related path inner joins negated, base, p, q, q', _, h => by
    obtain ⟨hempty, -, rfl⟩ | ⟨-, body, s', mid, inner, -, -, rfl⟩ := resolve_related_eq_ok.1 h
    · exact ⟨trivial, fun _ => hempty⟩
    · exact ⟨trivial, fun hnone =>
        absurd hnone (Predicate.formula?_ne_none trivial (Predicate.atomic_related _ _ _))⟩
  | .negate inner, base, p, q, q', hc, h => by
    obtain ⟨r, hr, rfl⟩ := resolve_negate_eq_ok.1 h
    obtain ⟨hatomic, hnothing⟩ := saysNothing_of_formula? inner hc hr
    exact ⟨hatomic, fun hnone => hnothing (Option.map_eq_none_iff.1 hnone)⟩
  | .group k members, base, p, q, q', hc, h => by
    obtain ⟨parts, hparts, rfl⟩ := resolve_group_eq_ok.1 h
    obtain ⟨hatomic, hnothing⟩ := sayNothing_of_formulas members hc hparts
    refine ⟨hatomic, fun hnone => hnothing ?_⟩
    rw [Predicate.formula?] at hnone
    cases hparts : Predicate.formulas parts with
    | nil => rfl
    | cons f fs => rw [hparts] at hnone; exact absurd hnone nofun
  | .custom _ _ _, _, _, _, _, hc, _ => absurd hc.symm Bool.false_ne_true

theorem sayNothing_of_formulas : ∀ (cs : List Condition) {base : String} {i : Nat}
    {ps : List Predicate} {q q' : Progress}, haveTemplate cs = false →
    (resolveMembers d names cs s base i).run q = .ok ps q' →
    Predicate.AtomicLeavesOf ps ∧ (Predicate.formulas ps = [] → sayNothing cs = true)
  | [], base, i, ps, q, q', _, h => by
    obtain ⟨-, rfl⟩ := resolveMembers_nil_eq_ok.1 h
    exact ⟨trivial, fun _ => rfl⟩
  | c :: cs, base, i, ps, q, q', hc, h => by
    obtain ⟨hc, hcs⟩ := Bool.or_eq_false_iff.1 hc
    obtain ⟨p, mid, ps, hp, hps, rfl⟩ := resolveMembers_cons_eq_ok.1 h
    obtain ⟨hatomic, hnothing⟩ := saysNothing_of_formula? c hc hp
    obtain ⟨hatomics, hnothings⟩ := sayNothing_of_formulas cs hcs hps
    refine ⟨⟨hatomic, hatomics⟩, fun hnone => ?_⟩
    obtain ⟨hfirst, hrest⟩ := List.append_eq_nil_iff.1 hnone
    exact Bool.and_eq_true_iff.2 ⟨hnothing (Option.toList_eq_nil_iff.1 hfirst), hnothings hrest⟩

end

/-- A condition without templates that is resolved to no text says nothing. -/
theorem saysNothing_of_text {c : Condition} {base : String} {p : Predicate}
    (hc : c.hasTemplate = false) (h : (c.resolve d names s base).run q = .ok p q')
    (htext : p.text = "") : c.saysNothing = true := by
  obtain ⟨hatomic, hnothing⟩ := saysNothing_of_formula? c hc h
  exact hnothing ((p.says_text hatomic).eq_empty_iff.1 htext)

end Condition
end QueryCompiler
