import QueryCompiler.Proofs.Compile.Columns
import QueryCompiler.Proofs.Compile.Likeness
import QueryCompiler.Proofs.Compile.Outcome
import QueryCompiler.Proofs.Compile.Parts
import QueryCompiler.Proofs.JoinTree.Merging
import Mathlib.Data.Finset.Dedup
import Mathlib.Data.Finset.Lattice.Lemmas

/-!
# Select lists are sets

Whether a query is compiled does not depend on the order of its select list, nor on how often a path
stands there, and neither does the set of its columns, each known by its name and by whether it belongs
to a key. If two lists are compiled, so is any list of all their paths, and it has the columns of both:
every table of such a query stands in one of the two queries too, with all that is read from it, and
shows what is chosen on it for the one list or for the other.
-/

namespace QueryCompiler

open Build

variable {catalog : Catalog} {ignoreDeleted : Bool} {a : Access} {joins : List Join}
  {tree tree' final : JoinTree} {n n' k : Nat} {p p' : Progress} {t t' : Table}

/-! ## Reading the tables of another list -/

namespace JoinTree

variable {m : Comparison} (hsame : ¬ m.same) (hm : m.minded)
  (h : Stands catalog false a ignoreDeleted joins tree n)
  (h' : Stands catalog false a ignoreDeleted joins final k)
include hsame h h'

theorem Stands.table_like (ht : t ∈ tree.tables) (ht' : t' ∈ final.tables)
    (hpath : t.path = t'.path) : t.Like m t' := by
  have haccess : t.access = t'.access :=
    h.access_eq h' (List.mem_map_of_mem ht) (List.mem_map_of_mem ht') hpath
  exact ⟨hpath, fun hnumber => absurd hnumber hsame, haccess ▸ .refl _,
    h.ignoreDeleted_eq h' ht ht' hpath⟩

theorem Stands.root_like : tree.root.Like m final.root :=
  h.table_like hsame h' List.mem_cons_self List.mem_cons_self (h.isTree.root.trans h'.isTree.root.symm)

include hm

/-- Tables of one path are joined alike. -/
theorem Stands.joined_like {j j' : Joined} (hj : j ∈ tree.joined) (hj' : j' ∈ final.joined)
    (hpath : j.path = j'.path) : j.Like m j' := by
  have ht : j.toTable ∈ tree.tables := List.mem_cons_of_mem _ (List.mem_map_of_mem hj)
  have ht' : j'.toTable ∈ final.tables := List.mem_cons_of_mem _ (List.mem_map_of_mem hj')
  obtain ⟨u, hu, hhangs⟩ := h.isTree.exists_hangsOn hj
  obtain ⟨u', hu', hhangs'⟩ := h'.isTree.exists_hangsOn hj'
  have hsplit : u.path ++ [j.link.name] = u'.path ++ [j'.link.name] := by
    rw [← hhangs.path, ← hhangs'.path, hpath]
  have hname : j.link.name = j'.link.name := by simpa using (List.append_inj' hsplit rfl).2
  have haccess : u.access = u'.access := h.access_eq h' (List.mem_map_of_mem hu)
    (List.mem_map_of_mem hu') (List.append_inj' hsplit rfl).1
  have hmodel : j.link.parentModel = j'.link.parentModel := by
    rw [hhangs.parentModel, hhangs'.parentModel, haccess]
  have hrelation : j.link.relation = j'.link.relation := by
    obtain ⟨f, hf, hk, -⟩ := h.serves.linked j hj
    obtain ⟨f', hf', hk', -⟩ := h'.serves.linked j' hj'
    rw [hmodel, hname, hf'] at hf
    obtain rfl := Option.some.inj hf
    exact FieldKind.relation.inj (hk.symm.trans hk')
  have hfollows := h.serves.follows j hj
  rw [hpath] at hfollows
  obtain ⟨htype, hcondition, -⟩ := hfollows.eq (h'.serves.follows j' hj')
  exact ⟨h.table_like hsame h' ht ht' hpath,
    ⟨hname, hrelation, fun hnumber => absurd hnumber hsame, hmodel⟩, htype, hcondition, fun _ => hm⟩

theorem Stands.foundIn (hcut : ∀ model path, m.cut (.rejected (.field model path .notJoined)))
    (hsub : ∀ x, tree.Reaches x → final.Reaches x) : tree.FoundIn m final := by
  intro t t' ht name
  cases hj : tree.child? t name with
  | none => exact .cut hcut
  | some j =>
    obtain ⟨hmem, hpath⟩ := child?_eq_some hj
    obtain ⟨u, hu, hupath⟩ := hsub j.path
      ⟨j.toTable, List.mem_cons_of_mem _ (List.mem_map_of_mem hmem), rfl⟩
    have hne : u.path ≠ [] := by
      rw [hupath, hpath]
      exact List.concat_ne_nil _ _
    obtain ⟨k, hk, rfl⟩ := h'.isTree.exists_joined hu hne
    cases hj' : final.child? t' name with
    | none =>
      have hnot := List.find?_eq_none.1 hj' k hk
      exact absurd (by rw [hupath, hpath, ht.path] : k.path = t'.path ++ [name]) (by simpa using hnot)
    | some j' =>
      obtain ⟨hmem', hpath'⟩ := child?_eq_some hj'
      exact .found (h.joined_like hsame hm h' hmem hmem' (by rw [hpath, hpath', ht.path]))

end JoinTree

/-! ## Resolving what is asked of the tables of another list -/

namespace JoinTree

variable {names : Names Scope} {depth : Nat} {condition : Option Condition}
  {order : List OrderTerm} {page : Option Page}

/-- The join of a table succeeds if it does in a tree of which all is read. -/
theorem Stands.exists_clause (h : Stands catalog false a ignoreDeleted joins tree n)
    (h' : Stands catalog false a ignoreDeleted joins final k)
    (hsub : ∀ x, tree.Reaches x → final.Reaches x) {clauses : List (JoinClause Predicate)}
    (hrun : (tree.clauses catalog (.ofTree catalog depth)).run p = .ok clauses p') {j : Joined}
    (hj : j ∈ final.joined) (hthere : tree.Reaches j.path) (q : Progress) :
    ∃ clause q', (final.clause catalog (.ofTree catalog depth) j).run q = .ok clause q' := by
  obtain ⟨t, ht, hpath⟩ := hthere
  have hne : t.path ≠ [] := by
    obtain ⟨u, -, hhangs⟩ := h'.isTree.exists_hangsOn hj
    rw [hpath, hhangs.path]
    exact List.concat_ne_nil _ _
  obtain ⟨i, hi, rfl⟩ := h.isTree.exists_joined ht hne
  obtain ⟨clause, -, r, r', hclause⟩ :=
    forall₂_mem_left (run_mapM hrun) (tree.inOrder_perm.symm.subset hi)
  have hlike := h.joined_like (m := .succeeding) id trivial h' hi hj hpath
  have hfound := h.foundIn (m := .succeeding) id trivial h' (fun _ _ => trivial) hsub
  obtain ⟨clause', q', hclause', -⟩ := Matches.exists_run id (clause_matches (.refl catalog)
    (Names.agree_foundIn trivial trivial depth) hlike (fun _ hm => ⟨hfound, hlike.table, rfl, hm⟩)
    (fun _ _ => trivial) fun _ _ => trivial) hclause q
  exact ⟨clause', q', hclause'⟩

section Together

variable (h : Stands catalog false a ignoreDeleted joins tree n)
  (h' : Stands catalog false a ignoreDeleted joins tree' n')
  (hfinal : Stands catalog false a ignoreDeleted joins final k)
  (hreaches : ∀ x, final.Reaches x ↔ tree.Reaches x ∨ tree'.Reaches x) {r r' : Progress}
include h h' hfinal hreaches

/-- All joins succeed if each of them does in one of two trees. -/
theorem Stands.exists_clauses {clauses clauses' : List (JoinClause Predicate)}
    (hrun : (tree.clauses catalog (.ofTree catalog depth)).run p = .ok clauses p')
    (hrun' : (tree'.clauses catalog (.ofTree catalog depth)).run r = .ok clauses' r')
    (q : Progress) :
    ∃ clauses q', (final.clauses catalog (.ofTree catalog depth)).run q = .ok clauses q' := by
  refine exists_run_mapM (fun j hj q => ?_) q
  have hj : j ∈ final.joined := final.inOrder_perm.subset hj
  rcases (hreaches j.path).1 ⟨j.toTable, List.mem_cons_of_mem _ (List.mem_map_of_mem hj), rfl⟩
    with hx | hx
  · exact h.exists_clause hfinal (fun x hx => (hreaches x).2 (.inl hx)) hrun hj hx q
  · exact h'.exists_clause hfinal (fun x hx => (hreaches x).2 (.inr hx)) hrun' hj hx q

/-- What stands behind the columns can be resolved if it can for two other trees, each of which is
read as far as it reaches, and which together reach as far. -/
theorem Stands.exists_tail {tail tail' : Tail}
    (hrun : (tree.tail catalog (.ofTree catalog depth) false condition [] order page).run p =
      .ok tail p')
    (hrun' : (tree'.tail catalog (.ofTree catalog depth) false condition [] order page).run r =
      .ok tail' r')
    (q : Progress) : ∃ tail q',
      (final.tail catalog (.ofTree catalog depth) false condition [] order page).run q =
        .ok tail q' := by
  have hn := @Names.agree_foundIn .succeeding catalog trivial trivial depth
  have hroot : tree.root.Like .succeeding final.root := h.root_like id hfinal
  have hfound : tree.FoundIn .succeeding final :=
    h.foundIn id trivial hfinal (fun _ _ => trivial) fun x hx => (hreaches x).2 (.inl hx)
  have hscope : ∀ checked, Scope.FoundIn .succeeding ⟨tree, tree.root, checked⟩
      ⟨final, final.root, checked⟩ := fun _ => ⟨hfound, hroot, rfl, fun _ => trivial⟩
  obtain ⟨_, _, hclauses, ⟨hnot, -⟩ | ⟨-, hheld⟩, hasked, horder, -⟩ := JoinTree.tail_eq_ok hrun
  · exact absurd hnot Bool.false_ne_true
  obtain ⟨_, _, hclauses', -⟩ := JoinTree.tail_eq_ok hrun'
  -- only the joins need both trees; the rest is read from the root of either
  obtain ⟨clauses, q₁, hclauses⟩ := h.exists_clauses h' hfinal hreaches hclauses hclauses' q
  obtain ⟨held, q₂, hheld, -⟩ := Matches.exists_run id (enforced_matches (.refl catalog) hn hroot
    (hscope false) (.refl _) fun _ _ => trivial) hheld q₁
  obtain ⟨asked, q₃, hasked, -⟩ := Matches.exists_run id (Condition.resolve?_matches hn
    (hscope true) (.refl _) fun _ _ => trivial) hasked q₂
  obtain ⟨keys, hkeys, -⟩ := (orderKeys_matches hn fun _ => hscope true).exists_of_eq_ok horder
  refine ⟨_, q₃, run_bind_eq_ok.2 ⟨clauses, q₁, hclauses, run_bind_eq_ok.2 ⟨⟨held, asked⟩, q₃, ?_,
    run_bind_eq_ok.2 ⟨keys, q₃, run_ofExcept_eq_ok.2 ⟨hkeys, rfl⟩, rfl⟩⟩⟩⟩
  exact run_bind_eq_ok.2 ⟨held, q₂, hheld, run_bind_eq_ok.2 ⟨asked, q₃, hasked, rfl⟩⟩

end Together
end JoinTree

/-! ## What choices show -/

/-- The name of a column, and whether it belongs to a key. -/
def Leaf.mark (l : Leaf) : String × Bool :=
  (l.property, l.isKey)

/-- The marks of the columns of a result. -/
def ResultColumn.marks (cs : List ResultColumn) : List (String × Bool) :=
  (leaves cs).map Leaf.mark

/-- The members of a group that a choice selects. -/
def Choice.Has (choice : Choice) (member : String) : Prop :=
  choice = .whole ∨ ∃ names, choice = .members names ∧ member ∈ names

/-- A choice of a field shows a column of this mark. -/
def Table.Shows (t : Table) (f : Field) (choice : Choice) (mark : String × Bool) : Prop :=
  (f.name = deleteFlag → t.ignoreDeleted = true) ∧
    match f.kind with
    | .basic _ => mark = (columnMark t.path ++ f.name, t.access.model.isKey f.name)
    | .group g => ∃ b ∈ g.fields, choice.Has b.name ∧
      mark = (columnMark t.path ++ f.name ++ "." ++ b.name, false)
    | .relation _ => False

/-- One of the tables shows a column of this mark. -/
def JoinTree.Shows (tree : JoinTree) (mark : String × Bool) : Prop :=
  ∃ t ∈ tree.tables, ∃ f ∈ t.access.model.fields, ∃ choice,
    (f.name, choice) ∈ t.chosen ∧ t.Shows f choice mark

variable {f : Field} {choice : Choice} {mark : String × Bool}

theorem Table.Shows.congr (h : t.Shows f choice mark) (hpath : t.path = t'.path)
    (haccess : t.access = t'.access) (hignore : t.ignoreDeleted = t'.ignoreDeleted) :
    t'.Shows f choice mark := by
  rw [Shows, ← hpath, ← haccess, ← hignore]
  exact h

theorem Table.isMemberChosen_iff {group member : String} :
    t.isMemberChosen group member = true ↔
      ∃ choice, (group, choice) ∈ t.chosen ∧ choice.Has member := by
  rw [isMemberChosen, List.any_eq_true]
  constructor
  · rintro ⟨⟨name, choice⟩, hc, hmember⟩
    obtain ⟨hname, hmember⟩ := Bool.and_eq_true_iff.1 hmember
    obtain rfl := beq_iff_eq.1 hname
    refine ⟨choice, hc, ?_⟩
    cases choice with
    | whole => exact .inl rfl
    | members names => exact .inr ⟨names, rfl, by simpa using hmember⟩
  · rintro ⟨choice, hc, rfl | ⟨names, rfl, hmember⟩⟩
    · exact ⟨_, hc, by simp⟩
    · exact ⟨_, hc, by simpa using hmember⟩

/-- Of a field, a table shows what each of its choices does. -/
theorem Table.mem_fieldMarks : mark ∈ (t.fieldLeaves f).map Leaf.mark ↔
    ∃ choice, (f.name, choice) ∈ t.chosen ∧ t.Shows f choice mark := by
  rw [fieldLeaves]
  split
  case isTrue hhidden =>
    refine iff_of_false List.not_mem_nil ?_
    rintro ⟨choice, hc, hflag, -⟩
    rw [isChosen_iff.2 ⟨choice, hc⟩] at hhidden
    simp only [Bool.not_true, Bool.false_or, Bool.and_eq_true, beq_iff_eq] at hhidden
    rw [hflag hhidden.1] at hhidden
    exact absurd hhidden.2 Bool.false_ne_true
  case isFalse hshown =>
    simp only [Bool.or_eq_true, Bool.not_eq_true', Bool.and_eq_true, beq_iff_eq, not_or,
      not_and, Bool.not_eq_false] at hshown
    obtain ⟨hchosen, hflag⟩ := hshown
    cases hk : f.kind with
    | basic b =>
      simp only [List.map_singleton, List.mem_singleton, Shows, hk]
      obtain ⟨choice, hc⟩ := isChosen_iff.1 hchosen
      exact ⟨fun hmark => ⟨choice, hc, hflag, hmark⟩, fun ⟨_, _, _, hmark⟩ => hmark⟩
    | group g =>
      simp only [List.map_map, List.mem_map, List.mem_filter, isMemberChosen_iff, Shows, hk]
      constructor
      · rintro ⟨b, ⟨hb, choice, hc, hhas⟩, rfl⟩
        exact ⟨choice, hc, hflag, b, hb, hhas, rfl⟩
      · rintro ⟨choice, hc, -, b, hb, hhas, rfl⟩
        exact ⟨b, ⟨hb, choice, hc, hhas⟩, rfl⟩
    | relation r => simp [Shows, hk]

namespace JoinTree

variable {names : Names Scope} {columns : List ResultColumn} {bindings : List Binding}

/-- What a choice shows, it shows in every tree in which it is made. -/
theorem Stands.shows (h : Stands catalog false a ignoreDeleted joins tree n)
    (h' : Stands catalog false a ignoreDeleted joins tree' n') (ht : t ∈ tree.tables)
    (hf : f ∈ t.access.model.fields) (hshows : t.Shows f choice mark)
    (hchooses : tree'.ChoosesAt t.path (f.name, choice)) : tree'.Shows mark := by
  obtain ⟨t', ht', hpath, hc⟩ := hchooses
  have haccess : t.access = t'.access :=
    h.access_eq h' (List.mem_map_of_mem ht) (List.mem_map_of_mem ht') hpath.symm
  exact ⟨t', ht', f, haccess ▸ hf, choice, hc,
    hshows.congr hpath.symm haccess (h.ignoreDeleted_eq h' ht ht' hpath.symm)⟩

/-- If the choices of one tree are those of two others, it shows what these do. -/
theorem Stands.shows_union (h : Stands catalog false a ignoreDeleted joins tree n)
    (h' : Stands catalog false a ignoreDeleted joins tree' n')
    (hfinal : Stands catalog false a ignoreDeleted joins final k)
    (hchooses : ∀ x c, final.ChoosesAt x c ↔ tree.ChoosesAt x c ∨ tree'.ChoosesAt x c) :
    final.Shows mark ↔ tree.Shows mark ∨ tree'.Shows mark := by
  constructor
  · rintro ⟨t, ht, f, hf, choice, hc, hshows⟩
    exact ((hchooses _ _).1 ⟨t, ht, rfl, hc⟩).imp (hfinal.shows h ht hf hshows)
      (hfinal.shows h' ht hf hshows)
  · rintro (⟨t, ht, f, hf, choice, hc, hshows⟩ | ⟨t, ht, f, hf, choice, hc, hshows⟩)
    · exact h.shows hfinal ht hf hshows ((hchooses _ _).2 (.inl ⟨t, ht, rfl, hc⟩))
    · exact h'.shows hfinal ht hf hshows ((hchooses _ _).2 (.inr ⟨t, ht, rfl, hc⟩))

theorem mem_marks_columns {nested : Bool} :
    mark ∈ ResultColumn.marks (tree.columns nested) ↔ tree.Shows mark := by
  rw [ResultColumn.marks, leaves_columns, List.map_flatMap, List.mem_flatMap]
  simp only [Table.leaves, List.map_flatMap, List.mem_flatMap, Table.mem_fieldMarks, Shows,
    tree.listed_perm.mem_iff]

theorem computedColumns_marks {computed : List ComputedColumn}
    (h : tree.computedColumns names computed = .ok (columns, bindings)) :
    ResultColumn.marks columns = computed.map fun c => (c.name, false) := by
  have hleaves := ResultColumn.leaves_forall₂ (R := fun e l => (e.1.name, false) = Leaf.mark l)
    ((computedColumns_eq_ok h).1.imp fun _ _ ⟨_, _, hcolumn⟩ => ⟨_, hcolumn, rfl⟩)
  have hmarks : computed.zipIdx.map (fun e => (e.1.name, false)) = ResultColumn.marks columns :=
    List.forall₂_eq_eq_eq ▸ List.forall₂_map_left_iff.2 (List.forall₂_map_right_iff.2 hleaves)
  rw [← hmarks]
  conv_rhs => rw [← List.zipIdx_map_fst 0 computed, List.map_map]
  rfl

end JoinTree

/-! ## Queries -/

namespace Query

variable {q : Query} {model : String} {paths more both : List String}

/-- A query shows what its tables do, and its computed columns. -/
theorem mem_marks {names : Names Scope} {columns : List ResultColumn} {bindings : List Binding}
    (h : q.columns catalog names tree = .ok (columns, bindings)) :
    mark ∈ ResultColumn.marks columns ↔
      tree.Shows mark ∨ mark ∈ q.computed.map fun c => (c.name, false) := by
  obtain ⟨⟨computed, _⟩, hcomputed, h⟩ := except_bind_eq_ok.1 h
  obtain ⟨rfl, -⟩ := Prod.mk.inj (Except.ok.inj h)
  rw [ResultColumn.marks, ResultColumn.leaves_append, List.map_append, List.mem_append]
  exact or_congr JoinTree.mem_marks_columns (JoinTree.computedColumns_marks hcomputed ▸ Iff.rfl)

/-- The columns of a query can be resolved over the tables of a further list. -/
theorem exists_columns (h : JoinTree.Stands catalog false a ignoreDeleted joins tree n)
    (h' : JoinTree.Stands catalog false a ignoreDeleted joins final k)
    (hsub : ∀ x, tree.Reaches x → final.Reaches x) {depth : Nat}
    {result : List ResultColumn × List Binding}
    (hcolumns : q.columns catalog (.ofTree catalog depth) tree = .ok result) :
    ∃ columns bindings, q.columns catalog (.ofTree catalog depth) final = .ok (columns, bindings) := by
  obtain ⟨computed, hrun, -⟩ := except_bind_eq_ok.1 hcolumns
  have hscope : tree.callerScope.FoundIn .succeeding final.callerScope :=
    ⟨h.foundIn id trivial h' (fun _ _ => trivial) hsub, h.root_like id h', rfl, fun _ => trivial⟩
  obtain ⟨computed', hrun', -⟩ := (JoinTree.computedColumns_matches
    (Names.agree_foundIn trivial trivial depth) hscope q.computed).exists_of_eq_ok hrun
  exact ⟨_, _, except_bind_eq_ok.2 ⟨computed', hrun', rfl⟩⟩

/-- If a query can be compiled with two select lists, it can with a list of all their paths, and shows
what it shows with one or the other. -/
theorem exists_compile_union {depth : Nat}
    (hboth : ∀ path, path ∈ both ↔ path ∈ paths ∨ path ∈ more) {s s' : Select} {r r' : Progress}
    (h : (({ q with select := some paths } : Query).compile catalog (.ofTree catalog depth) model
      none).run p = .ok s r)
    (h' : (({ q with select := some more } : Query).compile catalog (.ofTree catalog depth) model
      none).run p = .ok s' r') :
    ∃ s'' r'', (({ q with select := some both } : Query).compile catalog (.ofTree catalog depth) model
        none).run p = .ok s'' r'' ∧
      ∀ mark, mark ∈ ResultColumn.marks (Command.select s'').columns ↔
        mark ∈ ResultColumn.marks (Command.select s).columns ∨
          mark ∈ ResultColumn.marks (Command.select s').columns := by
  obtain ⟨tree, q₁, columns, htree, hcolumns, hlist, -, htail⟩ := compile_run.1 h
  obtain ⟨tree', q₂, columns', htree', hcolumns', hlist', -, htail'⟩ := compile_run.1 h'
  obtain ⟨a, final, q₃, hfinal, ⟨_, hstands⟩, ⟨_, hstands'⟩, ⟨_, hunion⟩, hreaches, hchooses⟩ :=
    JoinTree.ofDemand_union (d := q.demand) hboth htree htree'
  -- the columns are those of the tables, whatever list these are made for
  obtain ⟨columns'', bindings, hcolumns''⟩ := exists_columns (q := q) hstands hunion
    (fun x hx => (hreaches x).2 (.inl hx)) hcolumns
  obtain ⟨tail, r'', htail''⟩ := hstands.exists_tail hstands' hunion hreaches htail htail' q₃
  refine ⟨⟨none, .columns columns'', bindings, tail⟩, r'',
    compile_run.2 ⟨final, q₃, columns'', hfinal, hcolumns'', rfl, rfl, htail''⟩, fun mark => ?_⟩
  rw [Command.columns_of_list hlist, Command.columns_of_list hlist', mem_marks hcolumns,
    mem_marks hcolumns', ← or_or_distrib_right]
  refine (mem_marks hcolumns'').trans (or_congr_left ?_)
  exact hstands.shows_union hstands' hunion hchooses

end Query

/-! ## Requests -/

namespace Request

/-- The columns of the result of a request that can be compiled, as the set of their marks. -/
def shown (catalog : Catalog) (r : Request) : Option (Finset (String × Bool)) :=
  match r.compile catalog with
  | (.ok statement, _) => some (ResultColumn.marks statement.columns).toFinset
  | (.error _, _) => none

theorem shown_eq_some {r : Request} {marks : Finset (String × Bool)} :
    r.shown catalog = some marks ↔ ∃ statement events, r.compile catalog = (.ok statement, events) ∧
      (ResultColumn.marks statement.columns).toFinset = marks := by
  rw [shown]
  split
  case h_1 statement events hcompile =>
    simp [hcompile]
  case h_2 hcompile =>
    simp [hcompile]

variable {model : String} {q : Query} {paths more both : List String}
  {marks marks' : Finset (String × Bool)}

theorem shown_union (hboth : ∀ path, path ∈ both ↔ path ∈ paths ∨ path ∈ more)
    (h : shown catalog (.query model { q with select := some paths }) = some marks)
    (h' : shown catalog (.query model { q with select := some more }) = some marks') :
    shown catalog (.query model { q with select := some both }) = some (marks ∪ marks') := by
  obtain ⟨_, events, hcompile, rfl⟩ := shown_eq_some.1 h
  obtain ⟨_, events', hcompile', rfl⟩ := shown_eq_some.1 h'
  obtain ⟨_, p, hbuild, rfl, -⟩ := compileWithin_eq_ok.1 hcompile
  obtain ⟨_, p', hbuild', rfl, -⟩ := compileWithin_eq_ok.1 hcompile'
  obtain ⟨s, hs, rfl⟩ := run_map_eq_ok.1 hbuild
  obtain ⟨s', hs', rfl⟩ := run_map_eq_ok.1 hbuild'
  obtain ⟨s'', p'', hs'', hmarks⟩ := Query.exists_compile_union hboth hs hs'
  refine shown_eq_some.2 ⟨_, _, compileWithin_eq_ok.2 ⟨_, p'', run_map_eq_ok.2 ⟨s'', hs'', rfl⟩,
    rfl, rfl⟩, ?_⟩
  ext mark
  simp only [Finset.mem_union, List.mem_toFinset]
  exact hmarks mark

/-- Select lists are sets. Lists of the same paths are compiled alike and show the same, and what is
shown for two lists that can be compiled is shown for both of them together. -/
theorem shown_select (catalog : Catalog) (model : String) (q : Query) (paths more : List String) :
    ((∀ path, path ∈ paths ↔ path ∈ more) →
      shown catalog (.query model { q with select := some paths }) =
        shown catalog (.query model { q with select := some more })) ∧
    ∀ marks marks', shown catalog (.query model { q with select := some paths }) = some marks →
      shown catalog (.query model { q with select := some more }) = some marks' →
      shown catalog (.query model { q with select := some (paths ++ more) }) =
        some (marks ∪ marks') := by
  refine ⟨fun hsame => Option.ext fun marks => ⟨fun h => ?_, fun h => ?_⟩, fun _ _ h h' =>
    shown_union (fun _ => List.mem_append) h h'⟩
  · rw [← Finset.union_self marks]
    exact shown_union (fun path => by rw [or_self, hsame]) h h
  · rw [← Finset.union_self marks]
    exact shown_union (fun path => by rw [or_self, hsame]) h h

end Request

/-- Rooms with their addresses and sites. -/
def rooms : Catalog where
  models := [
    ("Room",
      { name := "Room", table := "room"
        fields := [⟨"id", .basic ⟨"id", "id", true⟩⟩, ⟨"name", .basic ⟨"name", "name", true⟩⟩,
          ⟨"address", .group ⟨[⟨"street", "street", true⟩, ⟨"city", "city", true⟩], true⟩⟩,
          ⟨"site", .relation ⟨.one, "Site", ["siteId"]⟩⟩,
          ⟨"siteId", .basic ⟨"siteId", "site_id", false⟩⟩] }),
    ("Site",
      { name := "Site", table := "site"
        fields := [⟨"id", .basic ⟨"id", "id", false⟩⟩,
          ⟨"title", .basic ⟨"title", "title", true⟩⟩] })]

/-- The rooms with these paths selected. -/
def listRooms (paths : List String) : Request :=
  .query "Room" { select := some paths }

/-- However its list is written, a query for the city and for the title of the site shows these two with
the keys of both tables. What a second list shows is added to it. -/
theorem listRooms_shown :
    (∀ path, path ∈ ["site.title", "address.city"] ↔
      path ∈ ["address.city", "site.title", "address.city"]) ∧
    (listRooms ["address.city", "site.title", "address.city"]).shown rooms =
      some {("id", true), ("address.city", false), ("site.id", true), ("site.title", false)} ∧
    (listRooms ["*", "address.street"]).shown rooms =
      some {("id", true), ("name", false), ("address.street", false), ("address.city", false)} ∧
    (listRooms (["site.title", "address.city"] ++ ["*", "address.street"])).shown rooms =
      some ({("id", true), ("address.city", false), ("site.id", true), ("site.title", false)} ∪
        {("id", true), ("name", false), ("address.street", false), ("address.city", false)}) := by
  have hsame : ∀ path, path ∈ ["site.title", "address.city"] ↔
      path ∈ ["address.city", "site.title", "address.city"] := by
    simp only [List.mem_cons, List.not_mem_nil, or_false]
    exact fun _ => ⟨fun h => .inr h, fun h => h.elim .inr id⟩
  have hlist : (listRooms ["site.title", "address.city"]).shown rooms =
      some {("id", true), ("address.city", false), ("site.id", true), ("site.title", false)} := by
    decide +kernel
  have hmore : (listRooms ["*", "address.street"]).shown rooms =
      some {("id", true), ("name", false), ("address.street", false), ("address.city", false)} := by
    decide +kernel
  have hperm := (Request.shown_select rooms "Room" {} _ _).1 hsame
  exact ⟨hsame, hperm.symm.trans hlist, hmore,
    (Request.shown_select rooms "Room" {} _ _).2 _ _ hlist hmore⟩

end QueryCompiler
