import QueryCompiler.Proofs.Enforcement.Rendering
import QueryCompiler.Proofs.Compile.Outcome
import QueryCompiler.Proofs.Compile.Parts
import QueryCompiler.Proofs.Hierarchy.Table

/-!
# Where the caller's text stands

What a caller asks for is put behind what is enforced in three kinds of places: in the filter of the
first table of a query or of a deletion, behind the link of a join, and behind the link of a subquery.
`Command.places` lists them at every depth. All of them are written in the command's text, and in a
compiled command all links have columns (`Request.places_tied`).
-/

namespace QueryCompiler

open Build

/-- A place where the caller's text stands behind what is enforced. -/
inductive Place where
  | rows (filter : Filter Predicate)
  | join (link : List Equality) (filter : Filter Predicate)
  | subquery (link : List Equality) (enforced inner : Predicate)

namespace Place

/-- The text that stands in the place. -/
def text : Place → String
  | .rows filter => filter.text
  | .join link filter => Equality.texts link ++ Predicate.andText filter.text
  | .subquery link enforced inner =>
    Equality.texts link ++ Predicate.andText enforced.text ++ Predicate.andText inner.text

/-- The columns that tie the rows to those around the place. -/
def link : Place → List Equality
  | .rows _ => []
  | .join link _ | .subquery link _ _ => link

/-- What the rows are held to. -/
def enforced : Place → Predicate
  | .rows filter | .join _ filter => filter.enforced
  | .subquery _ enforced _ => enforced

/-- What the caller asks of the rows. -/
def requested : Place → Predicate
  | .rows filter | .join _ filter => filter.requested
  | .subquery _ _ inner => inner

/-- The rows of a joined table or of a subquery are tied to others. -/
def Tied : Place → Prop
  | .rows _ => True
  | .join link _ | .subquery link _ _ => link ≠ []

end Place

namespace Predicate

mutual

/-- The places in the subqueries of a predicate. -/
def places : Predicate → List Place
  | .absent | .filled _ _ | .membership _ _ _ => []
  | .group _ parts => placesOf parts
  | .negate inner => inner.places
  | .related _ ⟨_, _, link, joins, enforced⟩ inner =>
    .subquery link enforced inner :: (joinsPlaces joins ++ enforced.places ++ inner.places)

/-- The places in the parts of a group. -/
def placesOf : List Predicate → List Place
  | [] => []
  | p :: ps => p.places ++ placesOf ps

/-- The places in joins. -/
def joinsPlaces : List (JoinClause Predicate) → List Place
  | [] => []
  | ⟨_, _, _, link, ⟨enforced, requested⟩⟩ :: js =>
    .join link ⟨enforced, requested⟩ :: (enforced.places ++ requested.places ++ joinsPlaces js)

end
end Predicate

/-- A filter and the places in it. -/
def Filter.places (f : Filter Predicate) : List Place :=
  .rows f :: (f.enforced.places ++ f.requested.places)

/-- The places in a command. -/
def Command.places : Command → List Place
  | .select q =>
    (q.hierarchy.map fun h => h.anchor.places).getD [] ++
      (Predicate.joinsPlaces q.tail.source.joins ++ q.tail.filter.places)
  | .mark _ _ filter | .remove _ filter => filter.places

/-! ## Places are written -/

/-- A text is written in another one. -/
def Text.Within (s t : String) : Prop :=
  s.toList <:+: t.toList

namespace Text.Within

variable {s t u : String}

theorem refl (s : String) : Within s s :=
  List.infix_rfl

theorem trans (h : Within s t) (h' : Within t u) : Within s u :=
  List.IsInfix.trans h h'

theorem append_left (u : String) (h : Within s t) : Within s (u ++ t) := by
  rw [Within, String.toList_append]
  exact List.IsInfix.trans h (List.suffix_append _ _).isInfix

theorem append_right (u : String) (h : Within s t) : Within s (t ++ u) := by
  rw [Within, String.toList_append]
  exact List.IsInfix.trans h (List.prefix_append _ _).isInfix

theorem empty (t : String) : Within "" t :=
  List.nil_infix

theorem bracket (h : Within s t) : Within s (Text.bracket t) := by
  by_cases hempty : t = ""
  · subst hempty
    exact h
  · rw [Text.bracket, if_neg (by simpa using hempty)]
    split
    · exact h
    · exact (h.append_left "(").append_right ")"

theorem intercalate {sep : String} {parts : List String} (h : s ∈ parts) :
    Within s (sep.intercalate parts) := by
  induction parts with
  | nil => exact absurd h List.not_mem_nil
  | cons a parts ih =>
    rw [Within, String.toList_intercalate]
    cases parts with
    | nil =>
      obtain rfl := List.mem_singleton.1 h
      simp
    | cons b parts =>
      rw [List.map_cons, List.map_cons, List.intercalate_cons_cons, List.append_assoc]
      rcases List.mem_cons.1 h with rfl | h
      · exact (List.prefix_append _ _).isInfix
      · have hrest := ih h
        rw [Within, String.toList_intercalate, List.map_cons] at hrest
        rw [← List.append_assoc]
        exact List.IsInfix.trans hrest (List.suffix_append _ _).isInfix

theorem joinFragments (k : Connective) {parts : List String} (h : s ∈ parts) :
    Within s (Text.joinFragments k parts) := by
  by_cases hempty : s = ""
  · subst hempty
    exact .empty _
  · have hmem : s ∈ parts.filter fun p => !p.isEmpty := List.mem_filter.2 ⟨h, by simpa using hempty⟩
    rw [Text.joinFragments]
    generalize parts.filter (fun p => !p.isEmpty) = ps at hmem
    rcases ps with _ | ⟨p, _ | ⟨q, ps⟩⟩
    · exact absurd hmem List.not_mem_nil
    · obtain rfl := List.mem_singleton.1 hmem
      exact .refl _
    · exact (intercalate hmem).bracket

theorem andText (h : Within s t) : Within s (Predicate.andText t) := by
  rw [Predicate.andText]
  split
  case isTrue hempty => exact String.isEmpty_iff.1 hempty ▸ h
  case isFalse => exact h.append_left _

theorem negateText (h : Within s t) : Within s (Predicate.negateText t) := by
  rw [Predicate.negateText]
  split
  case isTrue hempty => exact String.isEmpty_iff.1 hempty ▸ h
  case isFalse => exact (h.append_left _).bracket

end Text.Within

namespace Predicate

open Text (Within)

mutual

theorem within_text {place : Place} : ∀ {p : Predicate}, place ∈ p.places → Within place.text p.text
  | .absent, h | .filled _ _, h | .membership _ _ _, h => absurd h List.not_mem_nil
  | .group k parts, h => by
    obtain ⟨t, ht, hwithin⟩ := within_texts h
    exact hwithin.trans (.joinFragments k ht)
  | .negate inner, h => by
    rw [text]
    exact .negateText (within_text (p := inner) h)
  | .related negated ⟨model, number, link, joins, enforced⟩ inner, h => by
    rw [text]
    rcases List.mem_cons.1 h with rfl | h
    · refine .append_right _ ?_
      rw [String.append_assoc, String.append_assoc]
      exact .append_left _ (by rw [← String.append_assoc]; exact .refl _)
    rcases List.mem_append.1 h with h | h
    · rcases List.mem_append.1 h with h | h
      · have hjoins := within_joinsText h
        refine ((((hjoins.append_left _).append_right _).append_right _).append_right _).append_right _
          |>.append_right _
      · have henforced := within_text h
        exact ((henforced.andText.append_left _).append_right _).append_right _
    · have hinner := within_text h
      exact (hinner.andText.append_left _).append_right _

theorem within_texts {place : Place} : ∀ {ps : List Predicate}, place ∈ placesOf ps →
    ∃ t ∈ texts ps, Within place.text t
  | [], h => absurd h List.not_mem_nil
  | p :: ps, h => by
    rcases List.mem_append.1 h with h | h
    · exact ⟨p.text, List.mem_cons_self, within_text h⟩
    · obtain ⟨t, ht, hwithin⟩ := within_texts h
      exact ⟨t, List.mem_cons_of_mem _ ht, hwithin⟩

theorem within_joinsText {place : Place} : ∀ {js : List (JoinClause Predicate)},
    place ∈ joinsPlaces js → Within place.text (joinsText js)
  | [], h => absurd h List.not_mem_nil
  | ⟨type, model, number, link, ⟨enforced, requested⟩⟩ :: js, h => by
    rw [joinsText]
    rcases List.mem_cons.1 h with rfl | h
    · refine .append_right _ ?_
      rw [joinHead, String.append_assoc]
      exact .append_left _ (.refl _)
    rcases List.mem_append.1 h with h | h
    · have hfilter : Within place.text (Text.joinFragments .and [enforced.text, requested.text]) := by
        rcases List.mem_append.1 h with h | h
        · exact (within_text h).trans (.joinFragments _ (by simp))
        · exact (within_text h).trans (.joinFragments _ (by simp))
      exact (hfilter.andText.append_left _).append_right _
    · exact (within_joinsText h).append_left _

end
end Predicate

open Text (Within)

theorem Filter.within_text {f : Filter Predicate} {place : Place} (h : place ∈ f.places) :
    Within place.text f.text := by
  rcases List.mem_cons.1 h with rfl | h
  · exact .refl _
  · rcases List.mem_append.1 h with h | h
    · exact (Predicate.within_text h).trans (.joinFragments _ (by simp))
    · exact (Predicate.within_text h).trans (.joinFragments _ (by simp))

theorem Hierarchy.within_text {h : Hierarchy} {place : Place} (d : Dialect)
    (hplace : place ∈ h.anchor.places) : Within place.text (h.text d) := by
  have hanchor := Filter.within_text hplace
  unfold Hierarchy.text
  dsimp only
  iterate 10 apply Text.Within.append_right
  apply Text.Within.append_left
  exact hanchor

theorem Tail.within_text {t : Tail} {place : Place} (d : Dialect)
    (h : place ∈ Predicate.joinsPlaces t.source.joins ++ t.filter.places) :
    Within place.text (t.text d) := by
  have hsource : Within place.text t.sourceText := by
    rw [Tail.sourceText]
    rcases List.mem_append.1 h with h | h
    · have hjoins := Predicate.within_joinsText h
      exact (hjoins.append_left _).append_right _
    · have hfilter := Filter.within_text h
      refine .append_left _ ?_
      rw [optionalClause]
      split
      case isTrue hempty => exact String.isEmpty_iff.1 hempty ▸ hfilter
      case isFalse => exact hfilter.append_left _
  rw [Tail.text]
  iterate 3 refine .append_right _ ?_
  exact hsource

theorem Command.within_text {command : Command} {place : Place} (d : Dialect)
    (h : place ∈ command.places) : Within place.text (command.text d) := by
  cases command with
  | mark model flag filter => exact (Filter.within_text h).append_left _
  | remove model filter => exact (Filter.within_text h).append_left _
  | select q =>
    rw [Command.text, Select.text]
    rcases List.mem_append.1 h with h | h
    · cases hgrown : q.hierarchy with
      | none =>
        rw [hgrown] at h
        exact absurd h List.not_mem_nil
      | some table =>
        rw [hgrown] at h
        iterate 3 refine .append_right _ ?_
        exact Hierarchy.within_text d h
    · exact (Tail.within_text d h).append_left _

/-! ## Links have columns -/

/-- In the subqueries that names stand for, the places are tied. -/
structure Names.Tie {σ : Type} (names : Names σ) : Prop where
  subquery : ∀ {s path joins paths body s' p p'},
    (names.subquery s path joins paths).run p = .ok (body, s') p' → body.link ≠ [] ∧
      ∀ place ∈ Predicate.joinsPlaces body.joins ++ body.enforced.places, place.Tied

theorem Operator.places_resolve {op : Operator} {column : Column} {base : String} {value : Value}
    {p : Predicate} (h : op.resolve column base value = .ok p) : p.places = [] := by
  obtain ⟨_, _, _, -, rfl⟩ | ⟨_, _, rfl⟩ := resolve_eq_ok h <;> rfl

namespace Condition

variable {σ : Type} {d : Dialect} {names : Names σ}

mutual

theorem resolve_tied (hn : names.Tie) :
    ∀ (c : Condition) {s : σ} {base : String} {r : Predicate} {p p' : Progress},
      (c.resolve d names s base).run p = .ok r p' → ∀ place ∈ r.places, place.Tied
  | .compare path op value skipEmpty, s, base, r, p, p', h => by
    obtain ⟨-, ⟨-, rfl⟩ | ⟨-, column, -, hr⟩⟩ := resolve_compare_eq_ok.1 h
    · exact nofun
    · rw [Operator.places_resolve hr]
      exact nofun
  | .group k members, s, base, r, p, p', h => by
    obtain ⟨parts, hparts, rfl⟩ := resolve_group_eq_ok.1 h
    exact resolveMembers_tied hn members hparts
  | .negate inner, s, base, r, p, p', h => by
    obtain ⟨q, hq, rfl⟩ := resolve_negate_eq_ok.1 h
    rw [Predicate.places]
    exact resolve_tied hn inner hq
  | .custom template paths value, s, base, r, p, p', h => by
    obtain ⟨-, sql, -, rfl⟩ := resolve_custom_eq_ok.1 h
    exact nofun
  | .search path value mode, s, base, r, p, p', h => by
    obtain ⟨-, template, -, sql, -, rfl⟩ := resolve_search_eq_ok.1 h
    exact nofun
  | .related path inner joins negated, s, base, r, p, p', h => by
    obtain ⟨-, -, rfl⟩ | ⟨-, body, s', mid, q, hbody, hq, rfl⟩ := resolve_related_eq_ok.1 h
    · exact nofun
    · obtain ⟨hlink, hplaces⟩ := hn.subquery hbody
      rw [Predicate.places, List.forall_mem_cons]
      refine ⟨hlink, fun place hplace => ?_⟩
      rcases List.mem_append.1 hplace with hplace | hplace
      · exact hplaces place hplace
      · exact resolve?_tied hn hq place hplace

theorem resolve?_tied (hn : names.Tie) {c : Option Condition} {s : σ} {base : String}
    {r : Predicate} {p p' : Progress} (h : (resolve? d names c s base).run p = .ok r p') :
    ∀ place ∈ r.places, place.Tied := by
  cases c with
  | none =>
    obtain ⟨rfl, -⟩ := run_pure_eq_ok.1 h
    exact nofun
  | some c => exact resolve_tied hn c h

theorem resolveMembers_tied (hn : names.Tie) :
    ∀ (cs : List Condition) {s : σ} {base : String} {i : Nat} {rs : List Predicate}
      {p p' : Progress}, (resolveMembers d names cs s base i).run p = .ok rs p' →
      ∀ place ∈ Predicate.placesOf rs, place.Tied
  | [], s, base, i, rs, p, p', h => by
    obtain ⟨-, rfl⟩ := resolveMembers_nil_eq_ok.1 h
    exact nofun
  | c :: cs, s, base, i, rs, p, p', h => by
    obtain ⟨r, mid, rs', hr, hrs, rfl⟩ := resolveMembers_cons_eq_ok.1 h
    intro place hplace
    rcases List.mem_append.1 hplace with hplace | hplace
    · exact resolve_tied hn c hr place hplace
    · exact resolveMembers_tied hn cs hrs place hplace

end

end Condition

/-- A filter with tied places. -/
theorem Filter.tied {f : Filter Predicate} (henforced : ∀ place ∈ f.enforced.places, place.Tied)
    (hrequested : ∀ place ∈ f.requested.places, place.Tied) : ∀ place ∈ f.places, place.Tied := by
  rw [Filter.places, List.forall_mem_cons]
  exact ⟨trivial, List.forall_mem_append.2 ⟨henforced, hrequested⟩⟩

variable {catalog : Catalog} {names : Names Scope} {tree : JoinTree} {p p' : Progress}

theorem JoinTree.clauses_tied (hn : names.Tie) {clauses : List (JoinClause Predicate)}
    (h : (tree.clauses catalog names).run p = .ok clauses p') :
    ∀ place ∈ Predicate.joinsPlaces clauses, place.Tied := by
  have hruns := run_mapM h
  clear h
  generalize tree.inOrder = js at hruns
  induction hruns with
  | nil => exact nofun
  | @cons j clause js clauses hrun _ ih =>
    obtain ⟨q, q', hclause⟩ := hrun
    obtain ⟨_, hlink, -, -, -, henforced, hasked⟩ := clause_eq_ok hclause
    obtain ⟨type, model, number, link, ⟨enforced, requested⟩⟩ := clause
    rw [Predicate.joinsPlaces, List.forall_mem_cons]
    refine ⟨(Link.equalities_pairs hlink).some, ?_⟩
    refine List.forall_mem_append.2 ⟨List.forall_mem_append.2 ⟨?_, ?_⟩, ih⟩
    · exact Condition.resolve?_tied hn henforced
    · exact Condition.resolve?_tied hn hasked

theorem Names.tie_ofTable (a : Access) (qualifier : Qualifier) : (Names.ofTable a qualifier).Tie :=
  ⟨fun h => absurd h nofun⟩

theorem Names.tie_ofTree (catalog : Catalog) (depth : Nat) : (Names.ofTree catalog depth).Tie := by
  induction depth with
  | zero => exact ⟨fun h => absurd h nofun⟩
  | succ depth ih =>
    refine ⟨?_⟩
    intro s path joins paths body s' p p' h
    change (s.subquery catalog (Names.ofTree catalog depth) path joins paths).run p = _ at h
    obtain ⟨link, access, tree, _, _, -, -, -, -, -, -, hequalities, hclauses, henforced, -⟩ :=
      Scope.subquery_eq_ok h
    refine ⟨(Link.equalities_pairs hequalities).some, List.forall_mem_append.2 ⟨?_, ?_⟩⟩
    · exact JoinTree.clauses_tied ih hclauses
    · exact Condition.resolve?_tied ih henforced

/-! ## Compiled commands -/

theorem JoinTree.tail_tied (hn : names.Tie) {hierarchy : Bool} {condition : Option Condition}
    {keys : List Expression} {order : List OrderTerm} {page : Option Page} {t : Tail}
    (h : (tree.tail catalog names hierarchy condition keys order page).run p = .ok t p') :
    ∀ place ∈ Predicate.joinsPlaces t.source.joins ++ t.filter.places, place.Tied := by
  obtain ⟨q, q', hclauses, henforced, hasked, -⟩ := JoinTree.tail_eq_ok h
  refine List.forall_mem_append.2 ⟨JoinTree.clauses_tied hn hclauses, Filter.tied ?_ ?_⟩
  · rcases henforced with ⟨-, habsent, -⟩ | ⟨-, hheld⟩
    · rw [habsent]
      exact nofun
    · exact Condition.resolve?_tied hn hheld
  · exact Condition.resolve?_tied hn hasked

/-- The places in a query are tied if those in its clauses are and those where its growing table
starts. -/
theorem Command.select_tied {s : Select}
    (hgrown : ∀ table ∈ s.hierarchy, ∀ place ∈ table.anchor.places, place.Tied)
    (htail : ∀ place ∈ Predicate.joinsPlaces s.tail.source.joins ++ s.tail.filter.places,
      place.Tied) : ∀ place ∈ (Command.select s).places, place.Tied := by
  rw [Command.places]
  refine List.forall_mem_append.2 ⟨?_, htail⟩
  cases hsome : s.hierarchy with
  | none => exact nofun
  | some table => exact hgrown table hsome

theorem HierarchyQuery.anchor_tied {q : HierarchyQuery} {access : Access} {start : Predicate}
    {h : Hierarchy} {r r' : Progress} (hstart : (q.start? catalog access).run p = .ok start p')
    (hrun : (q.table catalog access start).run r = .ok h r') :
    ∀ place ∈ h.anchor.places, place.Tied := by
  obtain ⟨keys, parents, held, _, step, -, -, -, hheld, -, rfl⟩ := table_eq_ok hrun
  refine Filter.tied ?_ ?_
  · exact Condition.resolve?_tied (Names.tie_ofTable access .row) hheld
  · exact Condition.resolve?_tied (Names.tie_ofTable access .row) hstart

theorem Query.compile_tied (hn : names.Tie) {model : String} {q : Query}
    {hierarchy : Option Hierarchy} {s : Select}
    (hgrown : ∀ table ∈ hierarchy, ∀ place ∈ table.anchor.places, place.Tied)
    (h : (q.compile catalog names model hierarchy).run p = .ok s p') :
    ∀ place ∈ (Command.select s).places, place.Tied := by
  obtain ⟨_, _, _, _, -, -, -, -, -, hsome, htail⟩ := Query.compile_eq_ok h
  exact Command.select_tied (hsome ▸ hgrown) (JoinTree.tail_tied hn htail)

theorem countRows_tied (hn : names.Tie) {model : String} {condition : Option Condition}
    {joins : List Join} {ignoreDeleted : Bool} {s : Select}
    (h : (countRows catalog names model condition joins ignoreDeleted).run p = .ok s p') :
    ∀ place ∈ (Command.select s).places, place.Tied := by
  obtain ⟨_, _, _, -, -, -, -, -, hnone, htail⟩ := countRows_eq_ok h
  exact Command.select_tied (hnone ▸ nofun) (JoinTree.tail_tied hn htail)

theorem Request.places_tied {r : Request} {statement : Statement} {events : List Event}
    (h : r.compile catalog = (.ok statement, events)) :
    ∀ place ∈ statement.command.places, place.Tied := by
  obtain ⟨depth, q', hbuild, -⟩ := Request.build_of_compile h
  have hn := Names.tie_ofTree catalog depth
  cases r with
  | query model q =>
    obtain ⟨s, hs, hcommand⟩ := run_map_eq_ok.1 hbuild
    exact hcommand ▸ Query.compile_tied hn (by exact nofun) hs
  | count model condition joins ignoreDeleted =>
    obtain ⟨s, hs, hcommand⟩ := run_map_eq_ok.1 hbuild
    exact hcommand ▸ countRows_tied hn hs
  | existence model condition joins ignoreDeleted =>
    obtain ⟨s, hs, hcommand⟩ := run_map_eq_ok.1 hbuild
    obtain ⟨_, _, _, -, -, -, -, -, hnone, htail⟩ := checkExistence_eq_ok hs
    exact hcommand ▸ Command.select_tied (hnone ▸ nofun) (JoinTree.tail_tied hn htail)
  | aggregate model q =>
    obtain ⟨s, hs, hcommand⟩ := run_map_eq_ok.1 hbuild
    obtain ⟨_, _, _, _, -, -, -, -, -, -, hnone, htail⟩ := AggregateQuery.compile_eq_ok hs
    exact hcommand ▸ Command.select_tied (hnone ▸ nofun) (JoinTree.tail_tied hn htail)
  | deleteWhere model condition physical =>
    obtain ⟨access, filter, _, -, hasked, hheld, hcommand⟩ := deleteWhere_eq_ok hbuild
    have hfilter : ∀ place ∈ filter.places, place.Tied := by
      refine Filter.tied ?_ ?_
      · exact Condition.resolve?_tied (Names.tie_ofTable access .bare) hheld
      · exact condition.resolve_tied (Names.tie_ofTable access .bare) hasked
    rcases hcommand with hcommand | ⟨flag, -, hcommand⟩
    · exact hcommand ▸ hfilter
    · exact hcommand ▸ hfilter
  | recursive model q =>
    obtain ⟨s, hs, hcommand⟩ := run_map_eq_ok.1 hbuild
    obtain ⟨access, start, _, -, hstart, hs⟩ := HierarchyQuery.rows_eq_ok hs
    rcases hs with ⟨-, hs⟩ | ⟨-, table, _, htable, hs⟩
    · exact hcommand ▸ Query.compile_tied hn (by exact nofun) hs
    · refine hcommand ▸ Query.compile_tied hn (fun table' htable' => ?_) hs
      obtain rfl := Option.some.inj htable'
      exact HierarchyQuery.anchor_tied hstart htable
  | recursiveCount model q =>
    obtain ⟨s, hs, hcommand⟩ := run_map_eq_ok.1 hbuild
    obtain ⟨access, start, _, -, hstart, hs⟩ := HierarchyQuery.count_eq_ok hs
    rcases hs with ⟨-, hs⟩ | ⟨-, table, _, _, _, htable, -, -, -, hsome, htail⟩
    · exact hcommand ▸ countRows_tied hn hs
    · refine hcommand ▸ Command.select_tied (fun table' htable' => ?_) (JoinTree.tail_tied hn htail)
      obtain rfl := Option.some.inj (hsome.symm.trans htable')
      exact HierarchyQuery.anchor_tied hstart htable
  | vectorSearch model q =>
    obtain ⟨s, hs, hcommand⟩ := run_map_eq_ok.1 hbuild
    obtain ⟨query, _, -, hs⟩ := run_bind_eq_ok.1 hs
    exact hcommand ▸ Query.compile_tied hn (by exact nofun) hs

end QueryCompiler
