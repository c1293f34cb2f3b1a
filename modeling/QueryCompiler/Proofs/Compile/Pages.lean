import QueryCompiler.Proofs.Compile.Outcome
import QueryCompiler.Proofs.Compile.SameRows
import QueryCompiler.Proofs.Parameters.Apart
import QueryCompiler.Proofs.Parameters.Commands
import Mathlib.Algebra.Group.Nat.Defs

/-!
# Pages

A page is a number of rows and an offset, and both fit their words: two factors of 32 bits make a
product of 64 bits. The bound on page sizes is applied before the offset is computed, so each page
begins where the one before it ends. Paging adds its clause to the end of a statement, with the two
values that the clause names, and changes nothing else.
-/

namespace QueryCompiler

open Build

variable {catalog : Catalog} {names : Names Scope} {model : String}

/-! ## Rows and offsets -/

/-- How many rows are on a full page for which `size` rows are requested. -/
def Settings.rowsOf (s : Settings) (size : Nat) : Nat :=
  match s.maxPageSize with
  | some bound => if bound = 0 then size else min size bound.toNat
  | none => size

theorem Settings.toNat_pageSize (s : Settings) (size : UInt32) :
    (s.pageSize size).toNat = s.rowsOf size.toNat := by
  rw [pageSize, rowsOf]
  cases s.maxPageSize with
  | none => rfl
  | some bound =>
    by_cases hzero : bound = 0
    · simp [hzero]
    · have hpos : 0 < bound := UInt32.pos_iff_ne_zero.2 hzero
      simp only [hpos, hzero, decide_true, Bool.true_and, decide_eq_true_eq, if_false]
      split <;> rename_i hlt <;> rw [UInt32.lt_iff_toNat_lt] at hlt <;> omega

theorem Settings.rowsOf_pos (s : Settings) {size : Nat} (hsize : 0 < size) : 0 < s.rowsOf size := by
  rw [rowsOf]
  split
  · split
    case isTrue => exact hsize
    case isFalse hzero =>
      exact lt_min hsize (UInt32.lt_iff_toNat_lt.1 (UInt32.pos_iff_ne_zero.2 hzero))
  · exact hsize

/-- The product of two words of 32 bits fits a word of 64 bits. -/
theorem toNat_mul_toUInt64 (a b : UInt32) :
    (a.toUInt64 * b.toUInt64).toNat = a.toNat * b.toNat := by
  rw [UInt64.toNat_mul, UInt32.toNat_toUInt64, UInt32.toNat_toUInt64]
  refine Nat.mod_eq_of_lt ?_
  calc a.toNat * b.toNat < 2 ^ 32 * 2 ^ 32 :=
        Nat.mul_lt_mul_of_lt_of_lt a.toNat_lt b.toNat_lt
    _ = 2 ^ 64 := rfl

theorem Page.toNat_offset (p : Page) :
    p.offset.toNat = p.size.toNat * (max p.current.toNat 1 - 1) := by
  have hpages : (if p.current == 0 then 0 else p.current - 1).toNat = max p.current.toNat 1 - 1 := by
    by_cases hzero : p.current = 0
    · simp [hzero]
    · have hpos : 1 ≤ p.current.toNat := UInt32.lt_iff_toNat_lt.1 (UInt32.pos_iff_ne_zero.2 hzero)
      have hle : 1 ≤ p.current := UInt32.le_iff_toNat_le.2 hpos
      rw [beq_false_of_ne hzero, if_neg Bool.false_ne_true, UInt32.toNat_sub_of_le _ _ hle,
        max_eq_left hpos]
      rfl
  rw [offset, toNat_mul_toUInt64, hpages]

theorem Settings.limit?_of_pos (s : Settings) (current : UInt32) {size : UInt32}
    (hsize : 0 < size) : ∃ l, s.limit? (some ⟨current, size⟩) = some l ∧
      l.rows.toNat = s.rowsOf size.toNat ∧
      l.offset.toNat = l.rows.toNat * (max current.toNat 1 - 1) := by
  have hbounded : Page.isUnbounded ⟨current, size⟩ = false :=
    beq_false_of_ne (UInt32.pos_iff_ne_zero.1 hsize)
  refine ⟨⟨s.pageSize size, Page.offset ⟨current, s.pageSize size⟩⟩, ?_, s.toNat_pageSize size,
    Page.toNat_offset _⟩
  rw [limit?, hbounded]
  rfl

/-! ## The clause -/

/-- Whether the clause names a path. -/
def Limit.Mentions (l : Limit) (d : Dialect) (path : String) : Prop :=
  .placeholder path.toList ∈ Piece.scan none (l.text d).toList

theorem Limit.mentions_iff (l : Limit) (d : Dialect) (path : String) :
    l.Mentions d path ↔ path ∈ l.bindings.map Binding.path := by
  obtain ⟨paths, hmarks, hpaths⟩ := l.accounts (d := d)
  rw [Mentions, ← List.count_pos_iff, Piece.Marked.count hmarks, List.count_pos_iff]
  exact hpaths.mem_iff

theorem Limit.mentions_rows (l : Limit) (d : Dialect) : l.Mentions d rowsParam :=
  (l.mentions_iff d _).2 List.mem_cons_self

theorem Limit.offset_mem_paths_iff (l : Limit) :
    offsetParam ∈ l.bindings.map Binding.path ↔ 0 < l.offset := by
  have hother : offsetParam ≠ rowsParam := by decide
  rw [bindings]
  split
  case isTrue h => exact iff_of_true (by simp) h
  case isFalse h => exact iff_of_false (by simpa using hother) h

/-! ## Queries -/

/-- A query whose result is cut down to a part. -/
def Select.limited (limit : Option Limit) (s : Select) : Select :=
  { s with tail := { s.tail with limit } }

theorem JoinTree.tail_page {tree : JoinTree} {hierarchy : Bool} {condition : Option Condition}
    {keys : List Expression} {order : List OrderTerm} {page : Option Page} :
    tree.tail catalog names hierarchy condition keys order page =
      (fun t => { t with limit := catalog.settings.limit? page }) <$>
        tree.tail catalog names hierarchy condition keys order none := by
  cases hierarchy <;> simp [JoinTree.tail]

theorem Query.compile_page (q : Query) (page : Option Page) (hierarchy : Option Hierarchy) :
    Query.compile catalog names model { q with page } hierarchy =
      Select.limited (catalog.settings.limit? page) <$>
        Query.compile catalog names model { q with page := none } hierarchy := by
  simp only [Query.compile, map_bind, map_pure]
  refine bind_congr fun tree => bind_congr fun columns => ?_
  rw [JoinTree.tail_page, bind_map_left]
  rfl

theorem AggregateQuery.compile_page (q : AggregateQuery) (page : Option Page) :
    AggregateQuery.compile catalog names model { q with page } =
      Select.limited (catalog.settings.limit? page) <$>
        AggregateQuery.compile catalog names model { q with page := none } := by
  simp only [AggregateQuery.compile, map_bind, map_pure]
  refine bind_congr fun tree => bind_congr fun columns => ?_
  rw [JoinTree.tail_page, bind_map_left]
  rfl

/-- The growing table does not depend on the page. -/
theorem HierarchyQuery.rows_page (q : HierarchyQuery) (page : Option Page) :
    HierarchyQuery.rows catalog names model { q with query := { q.query with page } } =
      Select.limited (catalog.settings.limit? page) <$>
        HierarchyQuery.rows catalog names model
          { q with query := { q.query with page := none } } := by
  simp only [HierarchyQuery.rows, map_bind]
  refine bind_congr fun access => bind_congr fun start => ?_
  split
  · exact Query.compile_page q.query page none
  · rw [map_bind]
    exact bind_congr fun table => Query.compile_page q.query page (some table)

theorem Select.text_limited (s : Select) (l : Limit) (d : Dialect) :
    (s.limited (some l)).text d = (s.limited none).text d ++ l.text d := by
  simp [Select.limited, Select.text, Tail.text, String.append_assoc]
  rfl

theorem Select.bindings_limited (s : Select) (l : Limit) :
    (s.limited (some l)).bindings = (s.limited none).bindings ++ l.bindings := by
  simp [Select.limited, Select.bindings, Tail.bindings]

/-! ## Requests -/

namespace Request

/-- Whether a request says which page of its result it wants. -/
def isPaged : Request → Bool
  | .query _ _ | .aggregate _ _ | .recursive _ _ => true
  | _ => false

/-- A request for another page of the result, or for the whole. -/
def withPage (page : Option Page) : Request → Request
  | .query model q => .query model { q with page }
  | .aggregate model q => .aggregate model { q with page }
  | .recursive model q => .recursive model { q with query := { q.query with page } }
  | r => r

/-- The page asked for has no part in whether a request is compiled. -/
theorem build_withPage (catalog : Catalog) {r : Request} (hr : r.isPaged = true)
    (names : Names Scope) :
    ∃ build : Build Select, ∀ page, (r.withPage page).build catalog names =
      .select <$> Select.limited (catalog.settings.limit? page) <$> build := by
  cases r with
  | query model q =>
    exact ⟨_, fun page => congrArg (Command.select <$> ·) (q.compile_page page none)⟩
  | aggregate model q =>
    exact ⟨_, fun page => congrArg (Command.select <$> ·) (q.compile_page page)⟩
  | recursive model q =>
    exact ⟨_, fun page => congrArg (Command.select <$> ·) (q.rows_page page)⟩
  | count | existence | deleteWhere | recursiveCount | vectorSearch => exact absurd hr nofun

theorem depthBound_withPage (r : Request) (page : Option Page) :
    (r.withPage page).depthBound catalog = r.depthBound catalog := by
  cases r <;> rfl

/-- All pages of one result are compiled, if one of them is, and differ in their limits only. -/
theorem compile_withPage {r : Request} (hr : r.isPaged = true) {page : Option Page}
    {statement : Statement} {events : List Event}
    (h : (r.withPage page).compile catalog = (.ok statement, events)) :
    ∃ s : Select, ∀ page, (r.withPage page).compile catalog =
      (.ok ⟨r.kind, r.model, catalog.dialect, .select (s.limited (catalog.settings.limit? page))⟩,
        events) := by
  obtain ⟨build, hbuild⟩ := build_withPage catalog hr
    (.ofTree catalog (r.depthBound catalog))
  have hkind : ∀ page, (r.withPage page).kind = r.kind := fun page => by cases r <;> rfl
  have hmodel : ∀ page, (r.withPage page).model = r.model := fun page => by cases r <;> rfl
  rw [compile, depthBound_withPage, compileWithin_eq_ok] at h
  obtain ⟨command, p, hrun, -, rfl⟩ := h
  rw [hbuild] at hrun
  obtain ⟨_, hrun, -⟩ := run_map_eq_ok.1 hrun
  obtain ⟨s, hs, -⟩ := run_map_eq_ok.1 hrun
  refine ⟨s, fun page' => ?_⟩
  rw [compile, depthBound_withPage, compileWithin_eq_ok, hbuild, hkind, hkind, hmodel, hmodel]
  exact ⟨_, p, run_map_eq_ok.2 ⟨_, run_map_eq_ok.2 ⟨s, hs, rfl⟩, rfl⟩, rfl, rfl⟩

end Request

/-- A statement for a part of the result of another one: a paging clause is added at the end, and the
values that it names are bound besides. -/
structure Statement.IsPart (whole s : Statement) (l : Limit) : Prop where
  sql : s.sql = whole.sql ++ l.text s.dialect
  rows : s.params.get? rowsParam = some (.uint l.rows.toUInt64)
  offset : s.params.get? offsetParam = if 0 < l.offset then some (.uint l.offset) else none
  others : ∀ path, path ≠ rowsParam → path ≠ offsetParam →
    s.params.get? path = whole.params.get? path

theorem Params.get?_ofBindings_append {bs more : List Binding} {path : String}
    (h : path ∉ more.map Binding.path) :
    (ofBindings (bs ++ more)).get? path = (ofBindings bs).get? path := by
  induction more using List.reverseRecOn with
  | nil => rw [List.append_nil]
  | append_singleton more b ih =>
    rw [List.map_append, List.mem_append, not_or] at h
    have hne : path ≠ b.path := fun heq => h.2 (heq ▸ List.mem_cons_self)
    rw [← ih h.1, ← List.append_assoc, ofBindings, List.foldl_append]
    exact Keyed.get?_insert_of_ne _ _ hne

namespace Request

variable {r : Request} {whole : Statement} {events : List Event}

/-- The paths of the paging clause are bound by nothing else: the second page binds both of them,
and no statement binds a path twice. -/
theorem not_mem_of_whole (hr : r.isPaged = true)
    (hwhole : (r.withPage none).compile catalog = (.ok whole, events)) :
    rowsParam ∉ whole.command.bindings.map Binding.path ∧
      offsetParam ∉ whole.command.bindings.map Binding.path := by
  obtain ⟨s, hs⟩ := compile_withPage hr hwhole
  obtain ⟨l, hlimit, hrows, hoffset⟩ :=
    catalog.settings.limit?_of_pos 2 (show (0 : UInt32) < 1 by decide)
  have hpositive : 0 < l.offset := by
    have hrow := catalog.settings.rowsOf_pos (show 0 < (1 : UInt32).toNat by decide)
    rw [UInt64.lt_iff_toNat_lt, hoffset, hrows]
    simpa using hrow
  have hsecond := hs (some ⟨2, 1⟩)
  have hnodup := (Request.paths_nodup hsecond).1
  have hbindings : l.bindings.map Binding.path = [rowsParam, offsetParam] := by
    rw [Limit.bindings, if_pos hpositive]
    rfl
  rw [Command.bindings, hlimit, Select.bindings_limited, List.map_append, hbindings] at hnodup
  obtain ⟨hstatement, -⟩ := Prod.mk.inj (hwhole.symm.trans (hs none))
  obtain rfl := Except.ok.inj hstatement
  have hdisjoint := List.disjoint_of_nodup_append hnodup
  exact ⟨fun h => hdisjoint h List.mem_cons_self,
    fun h => hdisjoint h (List.mem_cons_of_mem _ List.mem_cons_self)⟩

/-- A request for a page is compiled to a part of what the request for the whole is compiled to. -/
theorem isPart_of_whole (hr : r.isPaged = true)
    (hwhole : (r.withPage none).compile catalog = (.ok whole, events)) {page : Option Page}
    {l : Limit} (hlimit : catalog.settings.limit? page = some l) :
    ∃ s, (r.withPage page).compile catalog = (.ok s, events) ∧ whole.IsPart s l := by
  have hunbound := not_mem_of_whole hr hwhole
  obtain ⟨s, hs⟩ := compile_withPage hr hwhole
  have hpage := hs page
  rw [hlimit] at hpage
  have hnodup := (Request.paths_nodup hpage).1
  obtain ⟨hstatement, -⟩ := Prod.mk.inj (hwhole.symm.trans (hs none))
  obtain rfl := Except.ok.inj hstatement
  refine ⟨_, hpage, ⟨Select.text_limited s l catalog.dialect, ?_, ?_, fun path hrows hoffset => ?_⟩⟩
  · refine Params.get?_ofBindings hnodup (b := ⟨rowsParam, _⟩) ?_
    rw [Command.bindings, Select.bindings_limited]
    exact List.mem_append_right _ List.mem_cons_self
  · split
    case isTrue hpositive =>
      refine Params.get?_ofBindings hnodup (b := ⟨offsetParam, _⟩) ?_
      rw [Command.bindings, Select.bindings_limited, Limit.bindings, if_pos hpositive]
      exact List.mem_append_right _ (List.mem_cons_of_mem _ List.mem_cons_self)
    case isFalse hzero =>
      refine Params.get?_ofBindings_eq_none hnodup ?_
      rw [Command.bindings, Select.bindings_limited, List.map_append, List.mem_append, not_or]
      exact ⟨hunbound.2, mt l.offset_mem_paths_iff.1 hzero⟩
  · have hother : path ∉ l.bindings.map Binding.path := by
      rw [Limit.bindings]
      split <;> simp [hrows, hoffset]
    rw [Statement.params, Command.bindings, Select.bindings_limited]
    exact Params.get?_ofBindings_append hother

end Request

/-- Pages tile the result. A page has as many rows as are asked for, within the bound of the settings,
and begins behind all rows of the pages before it; the page after it begins where it ends. Of every
request that is compiled for its whole result, the page is a part of that result: the number of rows
is named and bound, and the offset exactly if rows are passed over. -/
theorem Catalog.pages_tile (catalog : Catalog) (current : UInt32) {size : UInt32}
    (hsize : 0 < size) :
    ∃ l, catalog.settings.limit? (some ⟨current, size⟩) = some l ∧
      l.rows.toNat = catalog.settings.rowsOf size.toNat ∧
      l.offset.toNat = l.rows.toNat * (max current.toNat 1 - 1) ∧
      (1 ≤ current.toNat → current.toNat ≤ 2 ^ 32 - 2 →
        ∃ next, catalog.settings.limit? (some ⟨current + 1, size⟩) = some next ∧
          next.rows = l.rows ∧ next.offset.toNat = l.offset.toNat + l.rows.toNat) ∧
      (∀ d, l.Mentions d rowsParam ∧ (l.Mentions d offsetParam ↔ 0 < l.offset)) ∧
      ∀ (r : Request) (whole : Statement) (events : List Event), r.isPaged = true →
        (r.withPage none).compile catalog = (.ok whole, events) →
        ∃ s, (r.withPage (some ⟨current, size⟩)).compile catalog = (.ok s, events) ∧
          whole.IsPart s l := by
  obtain ⟨l, hlimit, hrows, hoffset⟩ := catalog.settings.limit?_of_pos current hsize
  refine ⟨l, hlimit, hrows, hoffset, fun hfirst hlast => ?_,
    fun d => ⟨l.mentions_rows d, (l.mentions_iff d _).trans l.offset_mem_paths_iff⟩,
    fun r whole events hr hwhole => Request.isPart_of_whole hr hwhole hlimit⟩
  obtain ⟨next, hnext, hrows', hoffset'⟩ := catalog.settings.limit?_of_pos (current + 1) hsize
  have hsucc : (current + 1).toNat = current.toNat + 1 := by
    rw [UInt32.toNat_add]
    exact Nat.mod_eq_of_lt (by simp; omega)
  have hsame : next.rows.toNat = l.rows.toNat := hrows'.trans hrows.symm
  refine ⟨next, hnext, UInt32.toNat_inj.1 hsame, ?_⟩
  calc next.offset.toNat = l.rows.toNat * current.toNat := by
        rw [hoffset', hsame, hsucc, max_eq_left (Nat.le_add_left 1 _), Nat.add_sub_cancel]
    _ = l.rows.toNat * (current.toNat - 1 + 1) := by rw [Nat.sub_add_cancel hfirst]
    _ = l.offset.toNat + l.rows.toNat := by rw [hoffset, max_eq_left hfirst, Nat.mul_succ]

/-- The third page of departments, if pages have ten rows at most. -/
theorem rosters_pages_tile : ∃ whole s events,
    let paged : Catalog := { rosters with settings.maxPageSize := some 10 }
    (Request.query "Department" {}).compile paged = (.ok whole, events) ∧
    (Request.query "Department" { page := some ⟨3, 25⟩ }).compile paged = (.ok s, events) ∧
    s.sql = whole.sql ++ " LIMIT #\x7b_rows\x7d OFFSET #\x7b_offset\x7d" ∧
    s.params.get? rowsParam = some (.uint 10) ∧ s.params.get? offsetParam = some (.uint 20) := by
  obtain ⟨l, hlimit, -, -, -, -, hpages⟩ := Catalog.pages_tile
    { rosters with settings.maxPageSize := some 10 } 3 (show (0 : UInt32) < 25 by decide)
  obtain rfl : ⟨10, 20⟩ = l := Option.some.inj (Eq.trans (by decide) hlimit)
  obtain ⟨whole, events, hwhole⟩ : ∃ whole events, (Request.query "Department" {}).compile
      { rosters with settings.maxPageSize := some 10 } = (.ok whole, events) := ⟨_, _, rfl⟩
  obtain ⟨s, hs, hpart⟩ := hpages (.query "Department" {}) whole events rfl hwhole
  have hdialect : s.dialect = .mysql := by
    cases hs
    rfl
  refine ⟨whole, s, events, hwhole, hs, ?_, hpart.rows, hpart.offset⟩
  rw [hpart.sql, hdialect]
  rfl

end QueryCompiler
