import QueryCompiler.Sql.Command
import QueryCompiler.Event
import Mathlib.Data.List.Basic

/-!
# Fragments of SQL

The text of a command is cut into fragments, so that the heads of its `JOIN` clauses and of the bodies
of its conditions over related rows stand out as what they are, with the table that each brings in.
Put together again, the fragments are the text (`Command.texts_fragments`). Where an empty text is left
out, no head is lost, for no head is without text.
-/

namespace QueryCompiler

/-- A fragment of SQL. -/
inductive Fragment where
  | plain (text : String)
  /-- The head of a `JOIN` clause, up to its link. -/
  | join (type : JoinType) (model : Model) (number : Nat) (link : List Equality)
  /-- The head of the body of an `EXISTS`, with the table whose rows it is about. -/
  | body (model : Model) (number : Nat)

namespace Fragment

/-- The text of a fragment. -/
def text : Fragment → String
  | .plain s => s
  | .join type model number link => Predicate.joinHead type model number link
  | .body model number => "SELECT 1 FROM " ++ model.qualifiedTable ++ " AS " ++ tableAlias number

/-- The text that fragments make up. -/
def texts (ps : List Fragment) : String :=
  String.join (ps.map text)

/-- The fragment joins a table of the model. -/
def joins (model : String) : Fragment → Bool
  | .join _ m _ _ => m.name == model
  | .plain _ | .body _ _ => false

/-- The fragment begins a subquery over rows of the model. -/
def opens (model : String) : Fragment → Bool
  | .body m _ => m.name == model
  | .plain _ | .join _ _ _ _ => false

/-- What is reported where the table of a fragment is brought in. -/
def event? : Fragment → Option Event
  | .plain _ => none
  | .join _ model _ _ => some (.joined model.name)
  | .body model _ => some (.subquery model.name)

/-- What is reported where the tables of fragments are brought in. -/
def events (ps : List Fragment) : List Event :=
  ps.filterMap event?

/-! ## Putting fragments together -/

/-- Fragments in brackets, unless they are bracketed already. -/
def bracket (ps : List Fragment) : List Fragment :=
  if (texts ps).isEmpty then [] else if Text.isBracketed (texts ps).toList then ps
  else .plain "(" :: (ps ++ [.plain ")"])

/-- Lists of fragments with a word between them. -/
def separate (word : String) : List (List Fragment) → List Fragment
  | [] => []
  | [ps] => ps
  | ps :: qs :: pss => ps ++ .plain word :: separate word (qs :: pss)

/-- The lists of fragments that have a text, joined by a connective. -/
def connect (k : Connective) (pss : List (List Fragment)) : List Fragment :=
  match pss.filter fun ps => !(texts ps).isEmpty with
  | [] => []
  | [ps] => ps
  | pss => bracket (separate (" " ++ k.word ++ " ") pss)

/-- Fragments behind a word, unless they have no text. -/
def behind (word : String) (ps : List Fragment) : List Fragment :=
  if (texts ps).isEmpty then [] else .plain word :: ps

end Fragment

/-! ## Predicates and commands -/

namespace Predicate

mutual

/-- The fragments of a predicate. -/
def fragments : Predicate → List Fragment
  | .absent => []
  | .filled sql _ => [.plain sql.text]
  | .membership column negated items => [.plain (membershipText column negated items)]
  | .group k parts => Fragment.connect k (fragmentsOf parts)
  | .negate inner => Fragment.bracket (Fragment.behind "NOT " inner.fragments)
  | .related negated ⟨model, number, link, joins, enforced⟩ inner =>
    .plain (if negated then "NOT EXISTS (" else "EXISTS (") :: .body model number ::
      (joinsFragments joins ++ .plain (" WHERE " ++ Equality.texts link) ::
        (Fragment.behind " AND " enforced.fragments ++
          (Fragment.behind " AND " inner.fragments ++ [.plain ")"])))

/-- The fragments of the parts of a group. -/
def fragmentsOf : List Predicate → List (List Fragment)
  | [] => []
  | p :: ps => p.fragments :: fragmentsOf ps

/-- The fragments of joins. -/
def joinsFragments : List (JoinClause Predicate) → List Fragment
  | [] => []
  | ⟨type, model, number, link, ⟨enforced, requested⟩⟩ :: js =>
    .join type model number link ::
      (Fragment.behind " AND " (Fragment.connect .and [enforced.fragments, requested.fragments]) ++
        joinsFragments js)

end
end Predicate

/-- The fragments of a filter. -/
def Filter.fragments (f : Filter Predicate) : List Fragment :=
  Fragment.connect .and [f.enforced.fragments, f.requested.fragments]

/-- The fragments of a growing table. It grows by a `JOIN` with itself, which is not one of the joins
of the query. -/
def Hierarchy.fragments (h : Hierarchy) (d : Dialect) : List Fragment :=
  let row := ", ".intercalate (h.columns.map fun c => (Column.mk .row c).text)
  let source := h.model.qualifiedTable ++ " " ++ rowAlias
  .plain (d.recursiveWith ++ " " ++ tableAlias hierarchyAlias ++ "(" ++ ", ".intercalate h.columns ++
      ") AS (SELECT " ++ row ++ " FROM " ++ source ++ " WHERE ") :: (h.anchor.fragments ++
    .plain (" UNION ALL SELECT " ++ row ++ " FROM " ++ source ++ " JOIN " ++
      tableAlias hierarchyAlias ++ " ON ") ::
    ((h.step.map fun p => p.fragments ++ [.plain " AND "]).getD [] ++
      [.plain (Equality.texts h.link ++ ") ")]))

/-- The fragments of the clauses behind the selected columns. -/
def Tail.fragments (t : Tail) (d : Dialect) : List Fragment :=
  let first := match t.source.model with
    | some model => model.qualifiedTable ++ " AS " ++ tableAlias t.source.number
    | none => tableAlias hierarchyAlias
  .plain (" FROM " ++ first) :: (Predicate.joinsFragments t.source.joins ++
    (Fragment.behind " WHERE " t.filter.fragments ++
      [.plain ((if t.groupKeys.isEmpty then ""
          else " GROUP BY " ++ ", ".intercalate (t.groupKeys.map Expression.text)) ++
        optionalClause " ORDER BY " (", ".intercalate (t.order.map OrderKey.text)) ++
        (match t.limit with
          | some l => l.text d
          | none => ""))]))

/-- The fragments that define the growing table of a command, if it has one. -/
def Command.definition (d : Dialect) : Command → List Fragment
  | .select q => (q.hierarchy.map fun h => h.fragments d).getD []
  | .mark _ _ _ | .remove _ _ => []

/-- The fragments of a command outside the definition of its growing table. -/
def Command.main (d : Dialect) : Command → List Fragment
  | .select q => .plain ("SELECT " ++ q.list.text d) :: q.tail.fragments d
  | .mark model flag filter =>
    .plain ("UPDATE " ++ model.qualifiedTable ++ " SET " ++ flag ++ " = " ++
      Params.placeholder deleteFlagParam ++ " WHERE ") :: filter.fragments
  | .remove model filter =>
    .plain ("DELETE FROM " ++ model.qualifiedTable ++ " WHERE ") :: filter.fragments

/-- The fragments of a command. -/
def Command.fragments (d : Dialect) (c : Command) : List Fragment :=
  c.definition d ++ c.main d

/-! ## Texts -/

namespace Fragment

variable {ps qs : List Fragment}

theorem text_plain (s : String) : (plain s).text = s := rfl

theorem text_body (model : Model) (number : Nat) : (body model number).text =
    "SELECT 1 FROM " ++ model.qualifiedTable ++ " AS " ++ tableAlias number :=
  rfl

theorem text_join (type : JoinType) (model : Model) (number : Nat) (link : List Equality) :
    (join type model number link).text = Predicate.joinHead type model number link :=
  rfl

@[simp] theorem texts_nil : texts [] = "" := rfl

@[simp] theorem texts_cons (p : Fragment) (ps : List Fragment) :
    texts (p :: ps) = p.text ++ texts ps := by
  simp [texts]

@[simp] theorem texts_append (ps qs : List Fragment) : texts (ps ++ qs) = texts ps ++ texts qs := by
  simp [texts]

theorem texts_bracket (ps : List Fragment) : texts (bracket ps) = Text.bracket (texts ps) := by
  rw [bracket, Text.bracket]
  split
  · rfl
  · split
    · rfl
    · simp [text_plain, String.append_assoc]

theorem texts_separate (word : String) (pss : List (List Fragment)) :
    texts (separate word pss) = word.intercalate (pss.map texts) := by
  induction pss with
  | nil => rfl
  | cons ps pss ih =>
    cases pss with
    | nil => simp [separate]
    | cons qs pss =>
      have hrest : (qs :: pss).map texts ≠ [] := List.cons_ne_nil _ _
      rw [separate, texts_append, texts_cons, ih, text_plain, List.map_cons (l := qs :: pss),
        String.intercalate_cons_of_ne_nil hrest, String.append_assoc]

theorem texts_connect (k : Connective) (pss : List (List Fragment)) :
    texts (connect k pss) = Text.joinFragments k (pss.map texts) := by
  have hfilter : (pss.map texts).filter (fun p => !p.isEmpty) =
      (pss.filter fun ps => !(texts ps).isEmpty).map texts := List.filter_map
  rw [connect, Text.joinFragments, hfilter]
  rcases pss.filter fun ps => !(texts ps).isEmpty with _ | ⟨ps, _ | ⟨qs, pss⟩⟩
  · rfl
  · rfl
  · simp only [List.map_cons]
    rw [texts_bracket, texts_separate]
    rfl

theorem texts_behind (word : String) (ps : List Fragment) :
    texts (behind word ps) = if (texts ps).isEmpty then "" else word ++ texts ps := by
  rw [behind]
  split
  · rfl
  · rw [texts_cons, text_plain]

end Fragment

namespace Predicate

mutual

theorem texts_fragments : ∀ p : Predicate, Fragment.texts p.fragments = p.text
  | .absent => rfl
  | .filled _ _ => by simp [fragments, text, Fragment.text_plain]
  | .membership _ _ _ => by simp [fragments, text, Fragment.text_plain]
  | .group k parts => by
    rw [fragments, text, Fragment.texts_connect, texts_fragmentsOf parts]
  | .negate inner => by
    rw [fragments, text, negateText, Fragment.texts_bracket, Fragment.texts_behind,
      texts_fragments inner]
    split
    · rfl
    · rfl
  | .related negated ⟨model, number, link, joins, enforced⟩ inner => by
    have hjoins := texts_joinsFragments joins
    have henforced := texts_fragments enforced
    have hinner := texts_fragments inner
    simp only [fragments, text, andText, Fragment.texts_cons, Fragment.texts_append,
      Fragment.texts_behind, Fragment.texts_nil, Fragment.text_plain, Fragment.text_body, hjoins,
      henforced, hinner, String.append_assoc, String.append_empty]

theorem texts_fragmentsOf : ∀ ps : List Predicate, (fragmentsOf ps).map Fragment.texts = texts ps
  | [] => rfl
  | p :: ps => by rw [fragmentsOf, texts, List.map_cons, texts_fragments p, texts_fragmentsOf ps]

theorem texts_joinsFragments : ∀ js : List (JoinClause Predicate),
    Fragment.texts (joinsFragments js) = joinsText js
  | [] => rfl
  | ⟨type, model, number, link, ⟨enforced, requested⟩⟩ :: js => by
    have hfilter :
        Fragment.texts (Fragment.connect .and [enforced.fragments, requested.fragments]) =
          Text.joinFragments .and [enforced.text, requested.text] := by
      rw [Fragment.texts_connect, List.map_cons, List.map_singleton, texts_fragments enforced,
        texts_fragments requested]
    rw [joinsFragments, joinsText, Fragment.texts_cons, Fragment.texts_append, Fragment.texts_behind,
      hfilter, texts_joinsFragments js, andText, Fragment.text_join, String.append_assoc]

end
end Predicate

theorem Filter.texts_fragments (f : Filter Predicate) : Fragment.texts f.fragments = f.text := by
  rw [Filter.fragments, Filter.text, Fragment.texts_connect, List.map_cons, List.map_singleton,
    Predicate.texts_fragments, Predicate.texts_fragments]

theorem Hierarchy.texts_fragments (h : Hierarchy) (d : Dialect) :
    Fragment.texts (h.fragments d) = h.text d := by
  obtain ⟨columns, model, anchor, step, link⟩ := h
  have hanchor := anchor.texts_fragments
  unfold Hierarchy.fragments Hierarchy.text
  cases step with
  | none =>
    simp only [Fragment.texts_cons, Fragment.texts_append, Fragment.text_plain, hanchor,
      Fragment.texts_nil, Option.map_none, Option.getD_none, String.append_assoc, String.append_empty,
      String.empty_append]
  | some p =>
    simp only [Fragment.texts_cons, Fragment.texts_append, Fragment.text_plain, hanchor,
      p.texts_fragments, Fragment.texts_nil, Option.map_some, Option.getD_some, String.append_assoc,
      String.append_empty]

theorem Tail.texts_fragments (t : Tail) (d : Dialect) : Fragment.texts (t.fragments d) = t.text d := by
  have hfilter := t.filter.texts_fragments
  have hjoins := Predicate.texts_joinsFragments t.source.joins
  rw [Tail.fragments, Tail.text, Tail.sourceText, From.text]
  cases t.source.model <;> cases t.limit <;>
    simp only [optionalClause, Fragment.texts_cons, Fragment.texts_append, Fragment.texts_behind,
      Fragment.text_plain, hfilter, hjoins, Fragment.texts_nil, String.append_assoc,
      String.append_empty]

/-- Put together again, the fragments of a command are its text. -/
theorem Command.texts_fragments (c : Command) (d : Dialect) :
    Fragment.texts (c.fragments d) = c.text d := by
  rw [Command.fragments, Fragment.texts_append]
  cases c with
  | select q =>
    show _ = q.text d
    rw [Command.definition, Command.main, Select.text, Fragment.texts_cons, Tail.texts_fragments,
      Fragment.text_plain]
    cases q.hierarchy with
    | none => simp
    | some h => simp [Hierarchy.texts_fragments, String.append_assoc]
  | mark model flag filter =>
    rw [Command.definition, Command.main, Fragment.texts_cons, filter.texts_fragments,
      Fragment.text_plain, Fragment.texts_nil, String.empty_append]
    rfl
  | remove model filter =>
    rw [Command.definition, Command.main, Fragment.texts_cons, filter.texts_fragments,
      Fragment.text_plain, Fragment.texts_nil, String.empty_append]
    rfl

/-! ## Events -/

namespace Fragment

variable {ps qs : List Fragment}

@[simp] theorem events_nil : events [] = [] := rfl

@[simp] theorem events_plain (s : String) (ps : List Fragment) : events (.plain s :: ps) = events ps :=
  rfl

@[simp] theorem events_append (ps qs : List Fragment) : events (ps ++ qs) = events ps ++ events qs :=
  List.filterMap_append

/-- Where there is no text, there is no head of a clause or of a body. -/
theorem events_eq_nil (h : (texts ps).isEmpty = true) : events ps = [] := by
  induction ps with
  | nil => rfl
  | cons p ps ih =>
    rw [String.isEmpty_iff, texts_cons, String.append_eq_empty_iff] at h
    obtain ⟨hhead, hrest⟩ := h
    cases p with
    | plain s => exact ih (String.isEmpty_iff.2 hrest)
    | join type model number link =>
      rw [text_join, Predicate.joinHead] at hhead
      simp only [String.append_eq_empty_iff] at hhead
      exact absurd hhead.1.1.1.1.1.1.1 (by decide)
    | body model number =>
      rw [text_body] at hhead
      simp only [String.append_eq_empty_iff] at hhead
      exact absurd hhead.1.1.1 (by decide)

theorem events_bracket (ps : List Fragment) : events (bracket ps) = events ps := by
  rw [bracket]
  split
  case isTrue hempty => rw [events_eq_nil hempty, events_nil]
  case isFalse =>
    split
    · rfl
    · simp

theorem events_behind (word : String) (ps : List Fragment) : events (behind word ps) = events ps := by
  rw [behind]
  split
  case isTrue hempty => rw [events_eq_nil hempty, events_nil]
  case isFalse => rfl

theorem events_separate (word : String) (pss : List (List Fragment)) :
    events (separate word pss) = pss.flatMap events := by
  induction pss with
  | nil => rfl
  | cons ps pss ih =>
    cases pss with
    | nil => simp [separate]
    | cons qs pss =>
      rw [separate, events_append, events_plain, ih, List.flatMap_cons (x := ps)]

theorem events_connect (k : Connective) (pss : List (List Fragment)) :
    events (connect k pss) = pss.flatMap events := by
  have hkept : (pss.filter fun ps => !(texts ps).isEmpty).flatMap events = pss.flatMap events := by
    induction pss with
    | nil => rfl
    | cons ps pss ih =>
      rw [List.filter_cons, List.flatMap_cons]
      split
      · rw [List.flatMap_cons, ih]
      case isFalse hempty =>
        rw [events_eq_nil (by simpa using hempty), List.nil_append, ih]
  rw [← hkept, connect]
  match pss.filter fun ps => !(texts ps).isEmpty with
  | [] => rfl
  | [ps] => simp
  | ps :: qs :: pss => rw [events_bracket, events_separate]

end Fragment

/-- What is reported for the tables that a predicate brings in. -/
def Predicate.events (p : Predicate) : List Event :=
  Fragment.events p.fragments

/-- What is reported for the tables that a filter brings in. -/
def Filter.events (f : Filter Predicate) : List Event :=
  f.enforced.events ++ f.requested.events

/-- What is reported for the table of a `JOIN` clause, and for those that its filter brings in. -/
def JoinClause.events (j : JoinClause Predicate) : List Event :=
  .joined j.model.name :: j.filter.events

/-- What is reported for the tables of a subquery, and for those that they bring in. -/
def Subquery.events (b : Subquery Predicate) : List Event :=
  .subquery b.model.name :: (b.joins.flatMap JoinClause.events ++ b.enforced.events)

/-- What is reported for the tables that a growing table brings in. -/
def Hierarchy.events (h : Hierarchy) : List Event :=
  h.anchor.events ++ (h.step.map Predicate.events).getD []

/-- What is reported for the tables behind the first one. -/
def Tail.events (t : Tail) : List Event :=
  t.source.joins.flatMap JoinClause.events ++ t.filter.events

namespace Predicate

theorem fragmentsOf_eq (ps : List Predicate) : fragmentsOf ps = ps.map fragments := by
  induction ps with
  | nil => rfl
  | cons p ps ih => rw [fragmentsOf, ih, List.map_cons]

@[simp] theorem events_absent : absent.events = [] := rfl

@[simp] theorem events_filled (sql : Filled) (bs : List Binding) : (filled sql bs).events = [] := by
  rw [events, fragments, Fragment.events_plain, Fragment.events_nil]

@[simp] theorem events_membership (column : Column) (negated : Bool) (items : List Binding) :
    (membership column negated items).events = [] := by
  rw [events, fragments, Fragment.events_plain, Fragment.events_nil]

theorem events_group (k : Connective) (parts : List Predicate) :
    (group k parts).events = parts.flatMap events := by
  rw [events, fragments, Fragment.events_connect, fragmentsOf_eq, List.flatMap_map]
  rfl

theorem events_negate (p : Predicate) : p.negate.events = p.events := by
  rw [events, fragments, Fragment.events_bracket, Fragment.events_behind]
  rfl

end Predicate

theorem Filter.events_fragments (f : Filter Predicate) : Fragment.events f.fragments = f.events := by
  rw [Filter.fragments, Fragment.events_connect]
  simp [Filter.events, Predicate.events]

namespace Predicate

theorem events_joinsFragments (js : List (JoinClause Predicate)) :
    Fragment.events (joinsFragments js) = js.flatMap JoinClause.events := by
  induction js with
  | nil => rfl
  | cons j js ih =>
    have hfilter := j.filter.events_fragments
    rw [Filter.fragments] at hfilter
    rw [joinsFragments, List.flatMap_cons, ← ih, JoinClause.events, ← hfilter]
    show _ :: Fragment.events _ = _
    rw [Fragment.events_append, Fragment.events_behind]
    rfl

theorem events_related (negated : Bool) (body : Subquery Predicate) (inner : Predicate) :
    (related negated body inner).events = body.events ++ inner.events := by
  rw [events, fragments, Fragment.events_plain]
  show _ :: Fragment.events _ = _
  simp only [Fragment.events_append, Fragment.events_plain, Fragment.events_behind,
    events_joinsFragments, Fragment.events_nil, List.append_nil, Subquery.events, List.cons_append,
    List.append_assoc]
  rfl

end Predicate

theorem Hierarchy.events_fragments (h : Hierarchy) (d : Dialect) :
    Fragment.events (h.fragments d) = h.events := by
  unfold Hierarchy.fragments
  rw [Fragment.events_plain, Fragment.events_append, Fragment.events_plain, Fragment.events_append,
    h.anchor.events_fragments, Fragment.events_plain, Fragment.events_nil, List.append_nil,
    Hierarchy.events]
  cases h.step with
  | none => rfl
  | some p => simp [Predicate.events]

theorem Tail.events_fragments (t : Tail) (d : Dialect) :
    Fragment.events (t.fragments d) = t.events := by
  rw [Tail.fragments, Fragment.events_plain, Fragment.events_append, Predicate.events_joinsFragments,
    Fragment.events_append, Fragment.events_behind, t.filter.events_fragments, Fragment.events_plain,
    Fragment.events_nil, List.append_nil, Tail.events]

namespace Command

theorem events_definition (q : Select) (d : Dialect) :
    Fragment.events ((select q).definition d) = (q.hierarchy.map Hierarchy.events).getD [] := by
  rw [definition]
  cases q.hierarchy with
  | none => rfl
  | some h => exact h.events_fragments d

theorem events_main_select (q : Select) (d : Dialect) :
    Fragment.events ((select q).main d) = q.tail.events := by
  rw [main, Fragment.events_plain, Tail.events_fragments]

end Command

/-! ## Counts -/

namespace Fragment

end Fragment
end QueryCompiler
