import QueryCompiler.Proofs.Selection.Tests
import QueryCompiler.Condition.Match

/-!
# Rows that SQL selects and rows that memory keeps

A condition of comparisons, groups and negations is decided on a row twice: by SQL, which reads its
text, and in memory, which has no unknown. What SQL selects, memory keeps, and what memory keeps
besides is unknown to SQL: a negation above a comparison that met a null, or a value that differs from
a given null (`Condition.keeps_iff_selects`). The two agree where no null gets in the way
(`Condition.sure`).
-/

namespace QueryCompiler

open Build

/-! ## What the texts of a predicate mean -/

/-- The value that is bound to a path. -/
def Params.bound (params : Params) (path : String) : Value :=
  (params.get? path).getD .null

/-- These values are bound to their paths. -/
def Params.Binds (params : Params) (bs : List Binding) : Prop :=
  ∀ b ∈ bs, params.get? b.path = some b.value

theorem Params.Binds.bound_ofItems {params : Params} {path : String} {items : List Value}
    (h : params.Binds (Binding.ofItems path items)) :
    (Binding.ofItems path items).map (fun b => params.bound b.path) = items := by
  have hvalues : (Binding.ofItems path items).map (fun b => params.bound b.path) =
      (Binding.ofItems path items).map (·.value) := by
    refine List.map_congr_left fun b hb => ?_
    rw [bound, h b hb]
    rfl
  rw [hvalues, Binding.ofItems, List.map_map]
  exact List.zipIdx_map_fst 0 items

variable {w : List Char → Truth} {stored : Column → Value} {params : Params}

/-- The text of a filled template has the truth of the test that the template is written for. -/
def Filled.Reads (w : List Char → Truth) (stored : Column → Value) (params : Params)
    (sql : Filled) : Prop :=
  ∀ (column : Column) (test : Test), sql.columns = [column] → sql.template = test.template →
    w sql.text.toList = test.truth (stored column) (params.bound sql.path)

namespace Predicate

mutual

/-- `w` gives the leaves of a predicate the truths that SQL gives them, in a row with these values in
its columns. -/
def Reads (w : List Char → Truth) (stored : Column → Value) (params : Params) : Predicate → Prop
  | .filled sql _ => sql.Reads w stored params
  | .membership column negated items =>
    let t := Truth.member (items.map fun b => params.bound b.path) (stored column)
    w (membershipText column negated items).toList = if negated then t.negate else t
  | .group _ parts => ReadsAll w stored params parts
  | .negate inner => inner.Reads w stored params
  | .absent | .related _ _ _ => True

/-- `Reads` of the parts of a group. -/
def ReadsAll (w : List Char → Truth) (stored : Column → Value) (params : Params) :
    List Predicate → Prop
  | [] => True
  | p :: ps => p.Reads w stored params ∧ ReadsAll w stored params ps

end
end Predicate

namespace Operator

variable {op : Operator} {column : Column} {base : String} {value : Value} {p : Predicate}

theorem truth_filled (op : Operator) {test : Test} (htest : op.test? = some test)
    (hparams : params.Binds (op.filled column base value).bindings)
    (hw : (op.filled column base value).Reads w stored params) :
    ∃ f, (op.filled column base value).formula? = some f ∧
      f.truth w = test.truth (stored column) value := by
  have htemplate := template?_of_test? htest
  have hatomic : Atomic (Filled.text ⟨op.template?.getD "", [column], Params.valuePath base⟩).toList :=
    Slot.atomic_text rfl (by rw [htemplate]; exact toList_template htemplate) op.spaced_slots
      (isMarked_slots htemplate)
  have htruth := hw column test rfl (by rw [htemplate, Option.getD_some])
  rw [filled, Predicate.formula?, Formula.leaf?_of_atomic hatomic]
  refine ⟨_, rfl, ?_⟩
  rw [Formula.truth, htruth]
  cases hneeds : op.needsValue with
  | true =>
    have hbound := hparams ⟨Params.valuePath base, value⟩ (by
      rw [filled, Predicate.bindings, if_pos hneeds]
      exact List.mem_singleton_self _)
    rw [Params.bound, hbound]
    rfl
  | false => exact test_truth_of_not_needsValue hneeds htest

theorem truth_membership {items : List Value} {negated : Bool}
    (hparams : params.Binds (Binding.ofItems (Params.valuePath base) items))
    (hw : (Predicate.membership column negated
      (Binding.ofItems (Params.valuePath base) items)).Reads w stored params) :
    ∃ f, (Predicate.membership column negated
        (Binding.ofItems (Params.valuePath base) items)).formula? = some f ∧
      f.truth w = if negated then (Truth.member items (stored column)).negate
        else .member items (stored column) := by
  rw [Predicate.Reads, hparams.bound_ofItems] at hw
  rw [Predicate.formula?, Formula.leaf?_of_atomic (Predicate.atomic_membershipText _ _ _)]
  exact ⟨_, rfl, hw⟩

/-- The text that an operator is resolved to has the truth of the operator. -/
theorem truth_resolve (hop : op.isTest = true) (h : op.resolve column base value = .ok p)
    (hparams : params.Binds p.bindings) (hw : p.Reads w stored params) :
    ∃ f, p.formula? = some f ∧ f.truth w = op.truth (stored column) value := by
  cases op with
  | eq | ne | lt | lte | gt | gte | isNull | isNotNull | isBlank | isNotBlank =>
    obtain rfl := Except.ok.inj h
    exact truth_filled _ rfl hparams hw
  | isIn | notIn =>
    obtain ⟨items, hitems, rfl⟩ := collection?_of_membership h
    rw [truth, hitems]
    exact truth_membership hparams hw
  | eqOrIn =>
    rcases eqOrIn_cases h with ⟨single, hsingle, -, hsame⟩ | ⟨h, hsame⟩
    · obtain rfl := Except.ok.inj hsingle
      rw [(hsame _).1]
      exact truth_filled .eq rfl hparams hw
    · obtain ⟨items, hitems, rfl⟩ := collection?_of_membership h
      rw [(hsame _).1, truth, hitems]
      exact truth_membership hparams hw
  | like | contains | startsWith | endsWith => exact absurd hop Bool.false_ne_true

end Operator

/-! ## Verdicts -/

/-- The answer of a condition that says something. -/
def Verdict.answer? : Verdict → Option Bool
  | .holds => some true
  | .fails => some false
  | .absent => none

/-- A condition that says nothing keeps every row. -/
def Verdict.keeps (v : Verdict) : Bool :=
  v != .fails

/-- The answer of a group, if a member has one. -/
def Connective.decide? (k : Connective) : List Bool → Option Bool
  | [] => none
  | ms => some (k.decide ms)

namespace Verdict

theorem filter_present (vs : List Verdict) :
    vs.filter (fun v => !v.isAbsent) = (vs.filterMap answer?).map ofBool := by
  induction vs with
  | nil => rfl
  | cons v vs ih =>
    cases v with
    | holds => exact congrArg (.holds :: ·) ih
    | fails => exact congrArg (.fails :: ·) ih
    | absent => exact ih

theorem answer?_ofBool (b : Bool) : (ofBool b).answer? = some b := by
  cases b <;> rfl

theorem answer?_combine (k : Connective) (vs : List Verdict) :
    (combine k vs).answer? = k.decide? (vs.filterMap answer?) := by
  have hholds : (fun b => ofBool b == .holds) = id := by
    funext b
    cases b <;> rfl
  unfold combine
  rw [filter_present]
  cases vs.filterMap answer? with
  | nil => rfl
  | cons m ms =>
    cases k with
    | and =>
      show (ofBool (((m :: ms).map ofBool).all (· == .holds))).answer? = _
      rw [answer?_ofBool, List.all_map, Function.comp_def, hholds]
      rfl
    | or =>
      show (ofBool (((m :: ms).map ofBool).any (· == .holds))).answer? = _
      rw [answer?_ofBool, List.any_map, Function.comp_def, hholds]
      rfl

theorem answer?_negate (v : Verdict) : v.negate.answer? = v.answer?.map (!·) := by
  cases v <;> rfl

end Verdict

theorem Formula.between_group? {lo hi : Bool} (k : Connective) {fs : List Formula} {ms : List Bool}
    (h : List.Forall₂ (fun f m => (f.truth w).Between lo hi m) fs ms) :
    Option.Rel (fun f m => (f.truth w).Between lo hi m) (Formula.group? k fs) (k.decide? ms) := by
  cases h with
  | nil => exact .none
  | cons h hs => exact .some (Truth.Between.group k (.cons h hs))

/-! ## Conditions -/

namespace Condition

mutual

/-- Comparisons, memberships and tests for null, grouped and negated. -/
def isTest : Condition → Bool
  | .compare _ op _ _ => op.isTest
  | .group _ members => areTests members
  | .negate inner => inner.isTest
  | .related _ _ _ _ | .custom _ _ _ | .search _ _ _ => false

/-- `isTest` of all members of a group. -/
def areTests : List Condition → Bool
  | [] => true
  | c :: cs => c.isTest && areTests cs

end

mutual

/-- No null of the row or of the condition gets in the way: not where it is asked that the condition
holds, or not where it is asked that it fails. -/
def sure (row : Row) : Condition → Bool → Bool
  | .compare path op value skipEmpty, b =>
    comparesNothing path op value skipEmpty || op.sure (row.read path) value b
  | .group _ members, b => areSure row members b
  | .negate inner, b => inner.sure row !b
  | .related _ _ _ _, _ | .custom _ _ _, _ | .search _ _ _, _ => false

/-- `sure` of all members of a group. -/
def areSure (row : Row) : List Condition → Bool → Bool
  | [], _ => true
  | c :: cs, b => c.sure row b && areSure row cs b

end

mutual

theorem isBoolean_of_isTest : ∀ c : Condition, c.isTest = true → c.isBoolean = true
  | .compare _ _ _ _, _ => rfl
  | .group _ members, h => areBoolean_of_areTests members h
  | .negate inner, h => isBoolean_of_isTest inner h
  | .related _ _ _ _, h | .custom _ _ _, h | .search _ _ _, h => absurd h Bool.false_ne_true

theorem areBoolean_of_areTests : ∀ cs : List Condition, areTests cs = true → areBoolean cs = true
  | [], _ => rfl
  | c :: cs, h => by
    obtain ⟨hc, hcs⟩ := Bool.and_eq_true_iff.1 h
    exact Bool.and_eq_true_iff.2 ⟨isBoolean_of_isTest c hc, areBoolean_of_areTests cs hcs⟩

end

/-- Bounds that hold anyway, and those that hold where no null gets in the way. -/
inductive Bounded (sure : Bool → Bool) : (lo hi : Bool) → Prop where
  | anyway : Bounded sure false true
  | sure {b : Bool} (h : sure b = true) : Bounded sure (!b) (!b)

theorem Bounded.imp {sure sure' : Bool → Bool} {lo hi : Bool} (h : Bounded sure lo hi)
    (himp : ∀ b, sure b = true → sure' b = true) : Bounded sure' lo hi := by
  cases h with
  | anyway => exact anyway
  | sure h => exact .sure (himp _ h)

variable {σ : Type} {d : Dialect} {names : Names σ} {s : σ} {row : Row}

/-- The row shows at each path what is stored in the column that the path stands for. -/
def Shown (names : Names σ) (s : σ) (stored : Column → Value) (row : Row) (paths : List String) :
    Prop :=
  ∀ path ∈ paths, ∀ column, names.column s path = .ok column → stored column = row.read path

theorem between_compare {path : String} {op : Operator} {value : Value} {skipEmpty : Bool}
    {base : String} {p : Predicate} {q q' : Progress} {lo hi : Bool} (hop : op.isTest = true)
    (h : ((compare path op value skipEmpty).resolve d names s base).run q = .ok p q')
    (hshown : Shown names s stored row (compare path op value skipEmpty).columnPaths)
    (hparams : params.Binds p.bindings) (hw : p.Reads w stored params)
    (hb : Bounded ((compare path op value skipEmpty).sure row) lo hi) :
    Option.Rel (fun f m => (f.truth w).Between lo hi m) p.formula?
      ((compare path op value skipEmpty).verdict row).answer? := by
  rw [verdict]
  obtain ⟨-, ⟨hnone, rfl⟩ | ⟨hsome, column, hcolumn, hresolve⟩⟩ := resolve_compare_eq_ok.1 h
  · rw [if_pos hnone]
    exact .none
  · obtain ⟨f, hf, htruth⟩ := Operator.truth_resolve hop hresolve hparams hw
    have hpath : path.isEmpty = false := by
      rw [comparesNothing, Bool.or_eq_true, not_or] at hsome
      exact Bool.eq_false_iff.2 hsome.1
    have hstored : stored column = row.read path := by
      refine hshown path ?_ column hcolumn
      rw [columnPaths, if_neg (by simp [hpath])]
      exact List.mem_singleton_self path
    rw [if_neg hsome, Verdict.answer?_ofBool, hf]
    refine .some ?_
    rw [htruth, hstored]
    cases hb with
    | anyway => exact (Operator.truth_decided hop hresolve).between
    | sure hsure =>
      refine Operator.between_of_sure hop hresolve ?_
      rw [sure, Bool.eq_false_iff.2 hsome, Bool.false_or] at hsure
      exact hsure

mutual

/-- In memory, the answer of a condition lies between what the truth of its formula allows. -/
theorem between_verdict : ∀ (c : Condition) {base : String} {p : Predicate} {q q' : Progress}
    {lo hi : Bool}, c.isTest = true → (c.resolve d names s base).run q = .ok p q' →
    Shown names s stored row c.columnPaths → params.Binds p.bindings → p.Reads w stored params →
    Bounded (c.sure row) lo hi →
    Option.Rel (fun f m => (f.truth w).Between lo hi m) p.formula? (c.verdict row).answer?
  | .compare path op value skipEmpty, base, p, q, q', lo, hi, hc, h, hshown, hparams, hw, hb =>
    between_compare hc h hshown hparams hw hb
  | .negate inner, base, p, q, q', lo, hi, hc, h, hshown, hparams, hw, hb => by
    obtain ⟨r, hr, rfl⟩ := resolve_negate_eq_ok.1 h
    -- below the negation the bounds change places, and failing is asked for in place of holding
    have hinner : Bounded (inner.sure row) (!hi) (!lo) := by
      cases hb with
      | anyway => exact .anyway
      | sure hsure => exact .sure hsure
    have ih := between_verdict inner hc hr hshown hparams hw hinner
    rw [Predicate.formula?, verdict, Verdict.answer?_negate]
    generalize r.formula? = f?, (inner.verdict row).answer? = m? at ih
    cases ih with
    | none => exact .none
    | some hf =>
      have hnegated := hf.negate
      rw [Bool.not_not, Bool.not_not] at hnegated
      exact .some hnegated
  | .group k members, base, p, q, q', lo, hi, hc, h, hshown, hparams, hw, hb => by
    obtain ⟨parts, hparts, rfl⟩ := resolve_group_eq_ok.1 h
    have ih := between_verdicts members hc hparts hshown hparams hw hb
    rw [Predicate.formula?, verdict, Verdict.answer?_combine]
    exact Formula.between_group? k ih
  | .related _ _ _ _, _, _, _, _, _, _, hc, _, _, _, _, _ => absurd hc Bool.false_ne_true
  | .custom _ _ _, _, _, _, _, _, _, hc, _, _, _, _, _ => absurd hc Bool.false_ne_true
  | .search _ _ _, _, _, _, _, _, _, hc, _, _, _, _, _ => absurd hc Bool.false_ne_true

theorem between_verdicts : ∀ (cs : List Condition) {base : String} {i : Nat} {ps : List Predicate}
    {q q' : Progress} {lo hi : Bool}, areTests cs = true →
    (resolveMembers d names cs s base i).run q = .ok ps q' →
    Shown names s stored row (columnPathsOf cs) → params.Binds (Predicate.bindingsOf ps) →
    Predicate.ReadsAll w stored params ps → Bounded (areSure row cs) lo hi →
    List.Forall₂ (fun f m => (f.truth w).Between lo hi m) (Predicate.formulas ps)
      ((verdicts cs row).filterMap Verdict.answer?)
  | [], base, i, ps, q, q', lo, hi, _, h, _, _, _, _ => by
    obtain ⟨-, rfl⟩ := resolveMembers_nil_eq_ok.1 h
    exact .nil
  | c :: cs, base, i, ps, q, q', lo, hi, hc, h, hshown, hparams, hw, hb => by
    obtain ⟨hc, hcs⟩ := Bool.and_eq_true_iff.1 hc
    obtain ⟨p, mid, ps, hp, hps, rfl⟩ := resolveMembers_cons_eq_ok.1 h
    obtain ⟨hshown, hshowns⟩ := List.forall_mem_append.1 hshown
    obtain ⟨hparams, hparamses⟩ := List.forall_mem_append.1 hparams
    have ih := between_verdict c hc hp hshown hparams hw.1
      (hb.imp fun b hsure => (Bool.and_eq_true_iff.1 hsure).1)
    have ihs := between_verdicts cs hcs hps hshowns hparamses hw.2
      (hb.imp fun b hsure => (Bool.and_eq_true_iff.1 hsure).2)
    rw [Predicate.formulas, verdicts, List.filterMap_cons]
    generalize p.formula? = f?, (c.verdict row).answer? = m? at ih
    cases ih with
    | none => exact ihs
    | some hf => exact .cons hf ihs

end
end Condition

/-! ## Selection -/

namespace Predicate

/-- SQL selects a row by the text of a predicate: it has none, or it is read as a formula that
holds. -/
def Selects (w : List Char → Truth) (p : Predicate) : Prop :=
  ∀ f ∈ p.formula?, ∃ g, Formula.parse f.atoms p.text.toList = some g ∧ g.truth w = .holds

/-- The text of a predicate is read as a formula of which SQL does not know whether it holds. -/
def Undecided (w : List Char → Truth) (p : Predicate) : Prop :=
  ∃ f ∈ p.formula?, ∃ g, Formula.parse f.atoms p.text.toList = some g ∧ g.truth w = .unknown

variable {p : Predicate} {f : Formula}

theorem selects_iff (h : p.AtomicLeaves) (hf : p.formula? = some f) :
    p.Selects w ↔ f.truth w = .holds := by
  obtain ⟨g, hg, htruth⟩ := parse_truth h hf
  rw [← htruth w]
  constructor
  · intro hselects
    obtain ⟨g', hg', hholds⟩ := hselects f hf
    rw [hg] at hg'
    exact Option.some.inj hg' ▸ hholds
  · intro hholds f' hf'
    obtain rfl := Option.some.inj (hf.symm.trans hf')
    exact ⟨g, hg, hholds⟩

theorem undecided_of_unknown (h : p.AtomicLeaves) (hf : p.formula? = some f)
    (hunknown : f.truth w = .unknown) : p.Undecided w := by
  obtain ⟨g, hg, htruth⟩ := parse_truth h hf
  exact ⟨f, hf, g, hg, (htruth w).trans hunknown⟩

end Predicate

namespace Verdict

variable {v : Verdict} {m : Bool}

theorem answer?_eq_none (h : v.answer? = none) : v = .absent := by
  cases v with
  | absent => rfl
  | holds | fails => exact absurd h nofun

theorem keeps_iff (h : v.answer? = some m) : v.keeps = true ↔ m = true := by
  cases v with
  | absent => exact absurd h nofun
  | holds | fails => obtain rfl := Option.some.inj h; decide

end Verdict

namespace Condition

variable {σ : Type} {d : Dialect} {names : Names σ} {s : σ} {row : Row} {c : Condition}
  {base : String} {p : Predicate} {q q' : Progress}

/-- A row that SQL selects is kept in memory. One that is kept and not selected is unknown to SQL.
Where no null gets in the way of the condition, the two are the same rows. -/
theorem keeps_iff_selects (hc : c.isTest = true)
    (h : (c.resolve d names s base).run q = .ok p q')
    (hshown : Shown names s stored row c.columnPaths) (hparams : params.Binds p.bindings)
    (hw : p.Reads w stored params) :
    (p.text = "" ↔ c.verdict row = .absent) ∧
      (p.Selects w → (c.verdict row).keeps = true) ∧
      ((c.verdict row).keeps = true → p.Selects w ∨ p.Undecided w) ∧
      (c.sure row true = true → ((c.verdict row).keeps = true ↔ p.Selects w)) := by
  obtain ⟨hatomic, -⟩ := formula?_resolve c (isBoolean_of_isTest c hc) h
  have hempty := (p.says_text hatomic).eq_empty_iff
  have hanyway := between_verdict c hc h hshown hparams hw .anyway
  have hsurely := fun hsure => between_verdict c hc h hshown hparams hw (.sure (b := true) hsure)
  generalize c.verdict row = v at hanyway hsurely
  rw [hempty]
  cases hf : p.formula? with
  | none =>
    have hselects : p.Selects w := by
      rw [Predicate.Selects, hf]
      exact nofun
    cases hm : v.answer? with
    | some m => rw [hf, hm] at hanyway; exact absurd hanyway nofun
    | none =>
      obtain rfl := Verdict.answer?_eq_none hm
      exact ⟨iff_of_true rfl rfl, fun _ => rfl, fun _ => .inl hselects,
        fun _ => iff_of_true rfl hselects⟩
  | some f =>
    cases hm : v.answer? with
    | none => rw [hf, hm] at hanyway; exact absurd hanyway nofun
    | some m =>
      rw [hf, hm] at hanyway hsurely
      obtain ⟨hbetween⟩ := hanyway
      rw [Predicate.selects_iff hatomic hf, Verdict.keeps_iff hm]
      refine ⟨iff_of_false nofun fun habsent => ?_, fun hholds => ?_, fun hkept => ?_,
        fun hsure => ?_⟩
      · rw [habsent] at hm
        exact absurd hm nofun
      · exact hbetween.lower (Truth.getD_false_iff.2 hholds)
      · exact (Truth.getD_true_iff.1 (hbetween.upper hkept)).imp_right
          (Predicate.undecided_of_unknown hatomic hf)
      · obtain ⟨hsurely⟩ := hsurely hsure
        rw [hsurely.eq_getD]
        exact Truth.getD_false_iff

/-- The note is not `heavy`. -/
def notHeavy : Condition :=
  .negate (.compare "note" .eq (.text "heavy") false)

/-- What SQL says of `notHeavy` in a row without a note. -/
def noteless (leaf : List Char) : Truth :=
  if leaf = "note = #\x7bc.c.v\x7d".toList then .unknown else .holds

/-- A comparison with a stored null is unknown, whatever its sign. -/
theorem noteless_reads : Filled.Reads noteless (fun _ => .null) [("c.c.v", .text "heavy")]
    ⟨"$COL = #\x7bEXPR\x7d", [⟨.bare, "note"⟩], "c.c.v"⟩ := by
  intro column test _ htemplate
  have hhead := congrArg (fun t => t.toList.head?) htemplate
  have hunknown : noteless (Filled.text
      ⟨"$COL = #\x7bEXPR\x7d", [⟨.bare, "note"⟩], "c.c.v"⟩).toList = .unknown := by decide +kernel
  rw [hunknown]
  cases test with
  | compare sign | compareEmpty sign => exact (Sign.truth_of_null (.inl rfl)).symm
  | isNull negated => cases negated <;> exact absurd htemplate (by decide)
  | both a b | either a b => exact absurd hhead (by simp [Test.template])

/-- A row without a note is kept as one whose note is not `heavy`, and it is not selected. -/
theorem notHeavy_keeps : ∃ p, (notHeavy.resolve .mysql Names.verbatim () "c").run {} = .ok p {} ∧
    p.text = "(NOT note = #\x7bc.c.v\x7d)" ∧ (notHeavy.verdict fun _ => none).keeps = true ∧
    ¬ p.Selects noteless ∧ p.Undecided noteless := by
  obtain ⟨p, hp⟩ : ∃ p, (notHeavy.resolve .mysql Names.verbatim () "c").run {} = .ok p {} :=
    ⟨_, rfl⟩
  obtain ⟨hatomic, -⟩ := formula?_resolve notHeavy rfl hp
  have hshown : Shown Names.verbatim () (fun _ => .null) (fun _ => none) notHeavy.columnPaths := by
    intro path hpath column _
    obtain rfl := List.mem_singleton.1 hpath
    rfl
  have hparams : Params.Binds [("c.c.v", .text "heavy")] p.bindings := by
    cases hp
    intro b hb
    obtain rfl := List.mem_singleton.1 hb
    rfl
  have hw : p.Reads noteless (fun _ => .null) [("c.c.v", .text "heavy")] := by
    cases hp
    exact noteless_reads
  obtain ⟨-, -, hkeeps, -⟩ := keeps_iff_selects rfl hp hshown hparams hw
  have hkept : (notHeavy.verdict fun _ => none).keeps = true := by decide
  have hselects : ¬ p.Selects noteless := by
    cases hp
    rw [Predicate.selects_iff hatomic rfl]
    decide +kernel
  refine ⟨p, hp, ?_, hkept, hselects, (hkeeps hkept).resolve_left hselects⟩
  cases hp
  decide +kernel

end Condition
end QueryCompiler
