import QueryCompiler.Proofs.Boolean.Spelling
import QueryCompiler.Proofs.Enforcement.Places

/-!
# What escapes from what is enforced

The caller's text is put behind what is enforced with `AND` and without brackets of its own. So what
stands behind its first `OR` outside brackets is read as an alternative to all that stands before it:
the rows that a place lets through although they do not meet what is enforced are exactly those that
this part lets through (`Request.place_held_iff`). Nothing escapes where there is no such `OR`, and
only a template that stands alone brings one along: groups of several parts are enclosed.
-/

namespace QueryCompiler

variable {spell : Filled → Sentence} {v : List Char → Bool}

/-! ## Links -/

namespace Equality

/-- The sentence of an equality. -/
def leaf (e : Equality) : Sentence :=
  .last (.leaf e.text.toList)

/-- The sentence of equalities that have to hold together. -/
def sentence? : List Equality → Option Sentence
  | [] => none
  | e :: es => some (.chain .and e.leaf (es.map leaf))

theorem spells_texts {es : List Equality} (h : ∀ e ∈ es, Atomic e.text.toList) :
    Spells (sentence? es) (texts es) := by
  cases es with
  | nil => rfl
  | cons e es =>
    obtain ⟨he, hes⟩ := List.forall_mem_cons.1 h
    refine Spells.chain .and (Spells.leaf he) ?_
    rw [List.forall₂_map_left_iff, List.forall₂_map_right_iff, List.forall₂_same]
    exact fun e he => Spells.leaf (hes e he)

theorem tight_chain (e : Equality) (es : List Equality) :
    (Sentence.chain .and e.leaf (es.map leaf)).Tight := by
  induction es generalizing e with
  | nil => trivial
  | cons e' es ih => exact ⟨rfl, ih e'⟩

theorem passesFrom_chain (P : Operand → Prop) (e : Equality) (es : List Equality) (b : Prop) :
    (Sentence.chain .and e.leaf (es.map leaf)).PassesFrom P b ↔
      b ∧ ∀ e' ∈ e :: es, P (.leaf e'.text.toList) := by
  induction es generalizing e b with
  | nil =>
    rw [List.forall_mem_singleton]
    rfl
  | cons e' es ih =>
    show (Sentence.chain .and e'.leaf (es.map leaf)).PassesFrom P (b ∧ P (.leaf e.text.toList)) ↔ _
    rw [ih, List.forall_mem_cons (a := e), and_assoc]

theorem evalFrom_chain (e : Equality) (es : List Equality) (b : Bool) :
    (Sentence.chain .and e.leaf (es.map leaf)).evalFrom v b = true ↔
      b = true ∧ ∀ e' ∈ e :: es, v e'.text.toList = true :=
  Sentence.evalFrom_iff.trans (passesFrom_chain _ e es _)

theorem eval_chain (e : Equality) (es : List Equality) :
    (Sentence.chain .and e.leaf (es.map leaf)).eval v = true ↔
      ∀ e' ∈ e :: es, v e'.text.toList = true :=
  (evalFrom_chain e es true).trans (and_iff_right rfl)

end Equality

/-! ## Sentences of places -/

namespace Sentence

variable {l s t : Sentence}

/-- Two sentences behind one another, either of which may be missing. -/
def both? : Option Sentence → Option Sentence → Option Sentence
  | none, t? => t?
  | some s, t? => some (s.andOpt t?)

theorem join_assoc (k : Connective) (t u : Sentence) : ∀ s : Sentence,
    (s.join k t).join k u = s.join k (t.join k u)
  | .last _ => rfl
  | .more o k' s => congrArg (Sentence.more o k') (join_assoc k t u s)

theorem andOpt_andOpt (l : Sentence) (s? t? : Option Sentence) :
    (l.andOpt s?).andOpt t? = l.andOpt (both? s? t?) := by
  cases s? with
  | none => rfl
  | some s =>
    cases t? with
    | none => rfl
    | some t => exact join_assoc .and s t l

end Sentence

namespace Place

variable {place : Place}

/-- What stands behind the link of a place. -/
def rest? (spell : Filled → Sentence) : Place → Option Sentence
  | .rows filter | .join _ filter =>
    (Predicate.group .and [filter.enforced, filter.requested]).sentence? spell
  | .subquery _ enforced inner =>
    Sentence.both? (enforced.sentence? spell) (inner.sentence? spell)

/-- The sentence that stands in the place. -/
def sentence? (spell : Filled → Sentence) (place : Place) : Option Sentence :=
  match Equality.sentence? place.link with
  | none => place.rest? spell
  | some l => some (l.andOpt (place.rest? spell))

/-- The templates in a place have the texts of their sentences, and its equalities can be told from
what stands around them. -/
structure Spelled (spell : Filled → Sentence) (place : Place) : Prop where
  link : ∀ e ∈ place.link, Atomic e.text.toList
  enforced : place.enforced.Spelled spell
  requested : place.requested.Spelled spell

theorem spells_text (h : place.Spelled spell) (ht : place.Tied) :
    Spells (place.sentence? spell) place.text := by
  have hlink := Equality.spells_texts h.link
  have henforced := place.enforced.spells_text h.enforced
  have hrequested := place.requested.spells_text h.requested
  cases place with
  | rows filter =>
    exact Predicate.spells_text (.group .and [filter.enforced, filter.requested])
      ⟨h.enforced, h.requested, trivial⟩
  | join link filter =>
    have hrest := Predicate.spells_text (.group .and [filter.enforced, filter.requested])
      ⟨h.enforced, h.requested, trivial⟩
    obtain ⟨e, es, rfl⟩ := List.exists_cons_of_ne_nil ht
    exact hlink.andOpt hrest
  | subquery link enforced inner =>
    obtain ⟨e, es, rfl⟩ := List.exists_cons_of_ne_nil ht
    have hall := (hlink.andOpt henforced).andOpt hrequested
    rw [Sentence.andOpt_andOpt] at hall
    exact hall

/-! ## What a place lets through -/

/-- The rows are tied as the link of the place says. -/
def Linked (v : List Char → Bool) (place : Place) : Prop :=
  ∀ e ∈ place.link, v e.text.toList = true

/-- The place lets rows through whether or not they meet what is enforced. In a filter the caller's
text is enclosed together with what is enforced, behind the link. -/
def Exposes (spell : Filled → Sentence) (v : List Char → Bool) : Place → Prop
  | .rows filter => filter.requested.Escapes spell v
  | .join link filter => (∀ e ∈ link, v e.text.toList = true) ∧ filter.requested.Escapes spell v
  | .subquery _ _ inner => inner.Escapes spell v

/-- The place lets rows through whether or not they are tied as its link says. -/
def Unties (spell : Filled → Sentence) (v : List Char → Bool) (place : Place) : Prop :=
  ∃ s ∈ place.rest? spell, s.behind v = true

end Place

namespace Predicate

variable {p q : Predicate} {s : Sentence}

theorem sentence?_pair (p q : Predicate) :
    (group .and [p, q]).sentence? spell =
      match p.sentence? spell, q.sentence? spell with
      | none, t? => t?
      | some s, none => some s
      | some s, some t => some (.last (.enclosed (s.join .and t))) := by
  rw [sentence?, sentences, sentences, sentences]
  cases p.sentence? spell <;> cases q.sentence? spell <;> rfl

theorem sentence?_eq_none_of_pair (h : (group .and [p, q]).sentence? spell = none) :
    p.sentence? spell = none := by
  rw [sentence?_pair] at h
  cases hp : p.sentence? spell with
  | none => rfl
  | some s =>
    rw [hp] at h
    cases hq : q.sentence? spell with
    | none => rw [hq] at h; exact absurd h nofun
    | some t => rw [hq] at h; exact absurd h nofun

theorem met_of_none (h : p.sentence? spell = none) : p.Met spell v := by
  rw [Met, h]
  exact nofun

theorem met_iff (h : p.sentence? spell = some s) : p.Met spell v ↔ s.eval v = true := by
  rw [Met, h]
  exact ⟨fun hall => hall s rfl, fun hs _ hs' => Option.some.inj hs' ▸ hs⟩

theorem not_escapes (h : p.sentence? spell = none) : ¬ p.Escapes spell v := by
  rw [Escapes, h]
  exact fun ⟨_, hs, _⟩ => absurd hs nofun

theorem escapes_iff (h : p.sentence? spell = some s) :
    p.Escapes spell v ↔ s.behind v = true := by
  rw [Escapes, h]
  exact ⟨fun ⟨_, hs, hbehind⟩ => Option.some.inj hs ▸ hbehind, fun hs => ⟨s, rfl, hs⟩⟩

/-- Behind a conjunction of value `b`, a filter holds its rows to what is enforced but for those
that meet what stands behind the first `OR` of the caller's text. -/
theorem met_pair_iff (hs : (group .and [p, q]).sentence? spell = some s) (b : Bool) :
    (s.evalFrom v b = true → p.Met spell v) ↔ (b = true ∧ q.Escapes spell v → p.Met spell v) := by
  rw [sentence?_pair] at hs
  cases hp : p.sentence? spell with
  | none => exact iff_of_true (fun _ => met_of_none hp) (fun _ => met_of_none hp)
  | some s' =>
    rw [hp] at hs
    rw [met_iff hp]
    cases hq : q.sentence? spell with
    | none =>
      rw [hq] at hs
      obtain rfl := Option.some.inj hs
      exact iff_of_true Sentence.evalFrom_mono fun h => absurd h.2 (not_escapes hq)
    | some t =>
      rw [hq] at hs
      obtain rfl := Option.some.inj hs
      rw [escapes_iff hq]
      -- the brackets keep the conjunction before them from the disjunction between them
      show (b && (s'.join .and t).eval v) = true → _ ↔ _
      cases b with
      | false => exact iff_of_true nofun fun h => absurd h.1 nofun
      | true =>
        rw [Bool.true_and, and_iff_right rfl]
        exact Sentence.eval_before

end Predicate

namespace Place

variable {place : Place} {s : Sentence}

/-- A place lets rows through that are not tied as its link says, if what stands behind the first
`OR` behind the link does. -/
theorem linked_iff (hs : place.sentence? spell = some s) :
    (s.eval v = true → place.Linked v) ↔ (place.Unties spell v → place.Linked v) := by
  rw [sentence?] at hs
  rw [Linked, Unties]
  cases hlink : place.link with
  | nil => exact iff_of_true (fun _ => nofun) (fun _ => nofun)
  | cons e es =>
    rw [hlink] at hs
    obtain rfl := Option.some.inj hs
    rw [← Equality.eval_chain]
    cases place.rest? spell with
    | none => exact iff_of_true id (fun ⟨t, ht, _⟩ => absurd ht nofun)
    | some t =>
      refine Sentence.eval_before.trans ⟨fun h ⟨t', ht', hbehind⟩ => ?_, fun h hbehind => ?_⟩
      · obtain rfl := Option.some.inj ht'
        exact h hbehind
      · exact h ⟨t, rfl, hbehind⟩

/-- A place lets rows through that do not meet what is enforced, if what stands behind the first `OR`
of the caller's text does. -/
theorem held_iff (ht : place.Tied) (hs : place.sentence? spell = some s) :
    (s.eval v = true → place.enforced.Met spell v) ↔
      (place.Exposes spell v → place.enforced.Met spell v) := by
  cases place with
  | rows filter =>
    refine (Predicate.met_pair_iff hs true).trans ?_
    rw [and_iff_right rfl]
    rfl
  | join link filter =>
    obtain ⟨e, es, rfl⟩ := List.exists_cons_of_ne_nil ht
    obtain rfl := Option.some.inj hs
    rw [Exposes, ← Equality.eval_chain]
    cases hrest : rest? spell (.join (e :: es) filter) with
    | none =>
      have hnone := Predicate.sentence?_eq_none_of_pair hrest
      exact iff_of_true (fun _ => Predicate.met_of_none hnone) fun _ =>
        Predicate.met_of_none hnone
    | some t =>
      rw [Sentence.andOpt, Sentence.eval, (Equality.tight_chain e es).evalFrom_join]
      exact Predicate.met_pair_iff hrest _
  | subquery link enforced inner =>
    obtain ⟨e, es, rfl⟩ := List.exists_cons_of_ne_nil ht
    obtain rfl := Option.some.inj hs
    show (Sentence.eval v (.andOpt _ (Sentence.both? _ _)) = true → enforced.Met spell v) ↔
      (inner.Escapes spell v → enforced.Met spell v)
    cases hp : enforced.sentence? spell with
    | none =>
      exact iff_of_true (fun _ => Predicate.met_of_none hp) fun _ => Predicate.met_of_none hp
    | some s' =>
      rw [Predicate.met_iff hp]
      cases hq : inner.sentence? spell with
      | none =>
        refine iff_of_true (fun h => ?_) fun h => absurd h (Predicate.not_escapes hq)
        have htight := Equality.tight_chain e es
        rw [Sentence.both?, Sentence.andOpt, Sentence.andOpt, Sentence.eval,
          htight.evalFrom_join] at h
        exact Sentence.evalFrom_mono h
      | some t =>
        rw [Predicate.escapes_iff hq]
        exact Sentence.eval_between (Equality.tight_chain e es)

theorem tight_rest? (h : ∀ sql, (spell sql).Tight) (hs : place.rest? spell = some s) :
    s.Tight := by
  cases place with
  | rows filter | join _ filter => exact Predicate.tight_sentence h hs
  | subquery _ enforced inner =>
    have htight := fun t => Predicate.tight_sentence (p := enforced) (s := t) h
    have htight' := fun t => Predicate.tight_sentence (p := inner) (s := t) h
    rw [rest?] at hs
    cases hp : enforced.sentence? spell with
    | none =>
      rw [hp] at hs
      exact htight' s hs
    | some t =>
      rw [hp] at hs
      obtain rfl := Option.some.inj hs
      cases hq : inner.sentence? spell with
      | none => exact htight t hp
      | some u => exact Sentence.tight_join (htight' u hq) (htight t hp)

theorem not_unties (h : ∀ sql, (spell sql).Tight) : ¬ place.Unties spell v := by
  rintro ⟨s, hs, hbehind⟩
  rw [Sentence.behind_of_tight (tight_rest? h hs)] at hbehind
  exact Bool.false_ne_true hbehind

theorem not_exposes (h : ∀ sql, (spell sql).Tight) : ¬ place.Exposes spell v := by
  have hescapes : ∀ p : Predicate, ¬ p.Escapes spell v := by
    rintro p ⟨s, hs, hbehind⟩
    rw [Sentence.behind_of_tight (p.tight_sentence h hs)] at hbehind
    exact Bool.false_ne_true hbehind
  cases place with
  | rows filter => exact hescapes filter.requested
  | join link filter => exact fun hexposes => hescapes filter.requested hexposes.2
  | subquery link enforced inner => exact hescapes inner

end Place

/-! ## Compiled commands -/

/-- What a compiled command says of the rows at a place is read from the text that stands there. It
holds the rows to what is enforced there but for those that the place exposes, and to the link but
for those that it unties. Where no template has an `OR` outside brackets, there are none of either. -/
theorem Request.place_held_iff {r : Request} {catalog : Catalog} {statement : Statement}
    {events : List Event} (h : r.compile catalog = (.ok statement, events)) {place : Place}
    (hplace : place ∈ statement.command.places) (hspelled : place.Spelled spell) :
    Text.Within place.text statement.sql ∧ Spells (place.sentence? spell) place.text ∧
      ∀ s ∈ place.sentence? spell, Formula.parse s.leaves place.text.toList = some s.formula ∧
        ∀ v, ((s.formula.eval v = true → place.enforced.Met spell v) ↔
            (place.Exposes spell v → place.enforced.Met spell v)) ∧
          ((s.formula.eval v = true → place.Linked v) ↔
            (place.Unties spell v → place.Linked v)) ∧
          ((∀ sql, (spell sql).Tight) → ¬ place.Exposes spell v ∧ ¬ place.Unties spell v) := by
  have htied := r.places_tied h place hplace
  have hspells := Place.spells_text hspelled htied
  refine ⟨Command.within_text statement.dialect hplace, hspells, fun s hs => ?_⟩
  rw [hs] at hspells
  refine ⟨hspells.parse, fun v => ?_⟩
  rw [Sentence.eval_formula]
  exact ⟨Place.held_iff htied hs, Place.linked_iff hs,
    fun htight => ⟨Place.not_exposes htight, Place.not_unties htight⟩⟩

/-- Employees with grades, held to a company. -/
def graded : Catalog where
  models := [("Employee",
    { name := "Employee", table := "employee"
      fields := [⟨"id", .basic ⟨"id", "id", true⟩⟩,
        ⟨"companyId", .basic ⟨"companyId", "company_id", true⟩⟩,
        ⟨"grade", .basic ⟨"grade", "grade", true⟩⟩] })]
  permissions := [("Employee", { rows := some (.compare "companyId" .eq (.text "1") false) })]

/-- Employees of one of two grades, as a template says. -/
def ofGrades : Query where
  condition := some (.custom "$COL = 1 OR $COL = 2" ["grade"] none)

/-- The filter of these employees. -/
def ofGradesFilter : Filter Predicate where
  enforced := .filled ⟨"$COL = #\x7bEXPR\x7d", [⟨.table 0, "company_id"⟩], "c0.v"⟩ [⟨"c0.v", .text "1"⟩]
  requested := .filled ⟨"$COL = 1 OR $COL = 2", [⟨.table 0, "grade"⟩], "c1.v"⟩ []

/-- The template has an `OR` between two leaves, all others are leaves. -/
def spellGrades (sql : Filled) : Sentence :=
  if sql.text = "t0.grade = 1 OR t0.grade = 2" then
    .more (.leaf "t0.grade = 1".toList) .or (.last (.leaf "t0.grade = 2".toList))
  else .last (.leaf sql.text.toList)

/-- An employee of the second grade and of another company. -/
def otherCompany (leaf : List Char) : Bool :=
  leaf == "t0.grade = 2".toList

theorem ofGradesFilter_spelled : (Place.rows ofGradesFilter).Spelled spellGrades where
  link := nofun
  enforced _ := by
    rw [show spellGrades _ = .last (.leaf _) from if_neg (by decide +kernel)]
    exact Spells.leaf ⟨⟨'_', by decide +kernel⟩, by decide +kernel⟩
  requested _ := by
    rw [show spellGrades _ = _ from if_pos (by decide +kernel)]
    refine ⟨⟨⟨⟨'g', by decide⟩, by decide⟩, ⟨⟨'g', by decide⟩, by decide⟩⟩, by decide +kernel⟩

/-- Employees of the second grade are returned whatever company they are of. -/
theorem ofGrades_escapes : ∃ statement events,
    (Request.query "Employee" ofGrades).compile graded = (.ok statement, events) ∧
    statement.command.places = [.rows ofGradesFilter] ∧
    ofGradesFilter.text = "(t0.company_id = #\x7bc0.v\x7d AND t0.grade = 1 OR t0.grade = 2)" ∧
    ∃ s ∈ (Place.rows ofGradesFilter).sentence? spellGrades,
      Formula.parse s.leaves ofGradesFilter.text.toList = some s.formula ∧
      s.formula.eval otherCompany = true ∧
      ¬ ofGradesFilter.enforced.Met spellGrades otherCompany := by
  obtain ⟨statement, events, hcompile⟩ : ∃ statement events,
      (Request.query "Employee" ofGrades).compile graded = (.ok statement, events) := ⟨_, _, rfl⟩
  have hplaces : statement.command.places = [.rows ofGradesFilter] := by
    cases hcompile
    rfl
  obtain ⟨-, -, hread⟩ := Request.place_held_iff hcompile (hplaces ▸ List.mem_singleton_self _)
    ofGradesFilter_spelled
  refine ⟨statement, events, hcompile, hplaces, by decide +kernel, _, rfl, ?_⟩
  obtain ⟨hparse, hvalues⟩ := hread _ rfl
  have hheld := (hvalues otherCompany).1
  have hexposed : (Place.rows ofGradesFilter).Exposes spellGrades otherCompany :=
    (Predicate.escapes_iff rfl).2 (by decide +kernel)
  have hnot : ¬ ofGradesFilter.enforced.Met spellGrades otherCompany :=
    (Predicate.met_iff rfl).not.2 (by decide +kernel)
  exact ⟨hparse, by_contra fun hfails => hnot (hheld.1 (fun h => absurd h hfails) hexposed), hnot⟩

end QueryCompiler
