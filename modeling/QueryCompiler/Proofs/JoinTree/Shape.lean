import QueryCompiler.Proofs.JoinTree.Demand
import Mathlib.Data.List.Nodup

/-!
# The tables of a query form a tree

Every joined table hangs on a table that was there before it (`HangInOrder`), no two tables have one
path, and numbers grow with the order of joining. All that is done to a join tree joins a missing
table or leaves the tables, their numbers and their links as they are (`Grows`). The order in which a
query lists its joined tables has each of them once, behind the one it hangs on.
-/

namespace QueryCompiler

/-- A joined table hangs on another one by its relationship. -/
structure Joined.HangsOn (j : Joined) (t : Table) : Prop where
  path : j.path = t.path ++ [j.link.name]
  parentNumber : j.link.parentNumber = t.number
  parentModel : j.link.parentModel = t.access.model

/-- Each of the tables hangs on one of `before` or on one in front of it. -/
def HangInOrder (before : List Table) : List Joined → Prop
  | [] => True
  | j :: js => (∃ t ∈ before, j.HangsOn t) ∧ HangInOrder (j.toTable :: before) js

theorem Joined.HangsOn.dropLast_path {j : Joined} {t : Table} (h : j.HangsOn t) :
    j.path.dropLast = t.path := by
  rw [h.path, List.dropLast_concat]

namespace HangInOrder

variable {before more : List Table} {j : Joined} {js ks : List Joined}

theorem mono (h : HangInOrder before js) (hsub : ∀ t ∈ before, t ∈ more) :
    HangInOrder more js := by
  induction js generalizing before more with
  | nil => trivial
  | cons j js ih =>
    obtain ⟨⟨t, ht, hj⟩, h⟩ := h
    refine ⟨⟨t, hsub t ht, hj⟩, ih h fun s hs => ?_⟩
    rcases List.mem_cons.1 hs with rfl | hs
    · exact List.mem_cons_self
    · exact List.mem_cons_of_mem _ (hsub s hs)

/-- A table may be put in behind the one it hangs on. -/
theorem insert (h : HangInOrder before (js ++ ks))
    (hj : ∃ t, (t ∈ before ∨ t ∈ js.map Joined.toTable) ∧ j.HangsOn t) :
    HangInOrder before (js ++ j :: ks) := by
  induction js generalizing before with
  | nil =>
    obtain ⟨t, ht, hj⟩ := hj
    have ht : t ∈ before := ht.resolve_right List.not_mem_nil
    exact ⟨⟨t, ht, hj⟩, h.mono fun s hs => List.mem_cons_of_mem _ hs⟩
  | cons i js ih =>
    obtain ⟨t, ht, hj⟩ := hj
    refine ⟨h.1, ih h.2 ⟨t, ?_, hj⟩⟩
    rcases ht with ht | ht
    · exact .inl (List.mem_cons_of_mem _ ht)
    · rcases List.mem_cons.1 ht with rfl | ht
      · exact .inl List.mem_cons_self
      · exact .inr ht

/-- What a table in the list hangs on. -/
theorem exists_parent (h : HangInOrder before (js ++ j :: ks)) :
    ∃ t, (t ∈ before ∨ t ∈ js.map Joined.toTable) ∧ j.HangsOn t := by
  induction js generalizing before with
  | nil =>
    obtain ⟨⟨t, ht, hj⟩, -⟩ := h
    exact ⟨t, .inl ht, hj⟩
  | cons i js ih =>
    obtain ⟨t, ht, hj⟩ := ih h.2
    refine ⟨t, ?_, hj⟩
    rcases ht with ht | ht
    · rcases List.mem_cons.1 ht with rfl | ht
      · exact .inr List.mem_cons_self
      · exact .inl ht
    · exact .inr (List.mem_cons_of_mem _ ht)

/-- All tables on the way to a table stand in front of it. -/
theorem prefixes (h : HangInOrder before js)
    (hbefore : ∀ t ∈ before, ∀ path, path <+: t.path → ∃ s ∈ before, s.path = path) :
    ∀ t ∈ before ++ js.map Joined.toTable, ∀ path, path <+: t.path →
      ∃ s ∈ before ++ js.map Joined.toTable, s.path = path := by
  induction js generalizing before with
  | nil => simpa using hbefore
  | cons j js ih =>
    obtain ⟨⟨parent, hparent, hangs⟩, h⟩ := h
    have hall := ih h fun t ht path hpath => by
      rcases List.mem_cons.1 ht with rfl | ht
      · rcases List.prefix_concat_iff.1 (hangs.path ▸ hpath) with rfl | hpath
        · exact ⟨j.toTable, List.mem_cons_self, hangs.path⟩
        · obtain ⟨s, hs, hspath⟩ := hbefore parent hparent path hpath
          exact ⟨s, List.mem_cons_of_mem _ hs, hspath⟩
      · obtain ⟨s, hs, hspath⟩ := hbefore t ht path hpath
        exact ⟨s, List.mem_cons_of_mem _ hs, hspath⟩
    have hmem : ∀ t, t ∈ before ++ (j :: js).map Joined.toTable ↔
        t ∈ (j.toTable :: before) ++ js.map Joined.toTable := by
      intro t
      simp only [List.map_cons, List.mem_append, List.mem_cons]
      tauto
    intro t ht path hpath
    obtain ⟨s, hs, hspath⟩ := hall t ((hmem t).1 ht) path hpath
    exact ⟨s, (hmem s).2 hs, hspath⟩

end HangInOrder

/-- What of a joined table is never changed once it is joined. -/
def Joined.place (j : Joined) : (TablePath × Nat × Access) × Link :=
  (j.toTable.core, j.link)

theorem Joined.HangsOn.congr {j j' : Joined} {t t' : Table} (h : j.HangsOn t)
    (hj : j'.place = j.place) (ht : t'.core = t.core) : j'.HangsOn t' := by
  have hpath : j'.path = j.path := congrArg (fun c => c.1.1) hj
  have hlink : j'.link = j.link := congrArg (fun c => c.2) hj
  have htpath : t'.path = t.path := congrArg (fun c => c.1) ht
  have htnumber : t'.number = t.number := congrArg (fun c => c.2.1) ht
  have htaccess : t'.access = t.access := congrArg (fun c => c.2.2) ht
  constructor
  · rw [hpath, hlink, htpath]; exact h.path
  · rw [hlink, htnumber]; exact h.parentNumber
  · rw [hlink, htaccess]; exact h.parentModel

theorem HangInOrder.congr {before before' : List Table} {js js' : List Joined}
    (h : HangInOrder before js) (hbefore : before'.map Table.core = before.map Table.core)
    (hjs : js'.map Joined.place = js.map Joined.place) : HangInOrder before' js' := by
  induction js generalizing before before' js' with
  | nil =>
    obtain rfl := List.map_eq_nil_iff.1 (hjs.trans List.map_nil)
    trivial
  | cons j js ih =>
    obtain ⟨j', js', rfl, hj, hjs⟩ := List.map_eq_cons_iff.1 hjs
    obtain ⟨⟨t, ht, hhangs⟩, h⟩ := h
    have hmem : t.core ∈ before'.map Table.core := hbefore ▸ List.mem_map_of_mem ht
    obtain ⟨t', ht', hcore⟩ := List.mem_map.1 hmem
    refine ⟨⟨t', ht', hhangs.congr hj hcore⟩, ih h ?_ hjs⟩
    have hj' : j'.toTable.core = j.toTable.core := congrArg (fun c => c.1) hj
    rw [List.map_cons, List.map_cons, hj', hbefore]

namespace JoinTree

/-- The tables that hang on a table, in the order in which they were joined. -/
def children (tree : JoinTree) (t : Table) : List Joined :=
  tree.joined.filter fun j => j.path.dropLast == t.path

/-- The tables of a query form a tree with the root first. -/
structure IsTree (tree : JoinTree) : Prop where
  root : tree.root.path = []
  hang : HangInOrder [tree.root] tree.joined
  /-- There is one table a path. -/
  paths : (tree.tables.map Table.path).Nodup
  /-- Numbers grow with the order of joining. -/
  numbers : tree.numbers.Pairwise (· < ·)

variable {catalog : Catalog} {checked : Bool} {x y : JoinTree × Nat} {tree tree' : JoinTree}
  {p p' : Progress}

namespace IsTree

/-- Only the root stands where it stands. -/
theorem eq_root (h : tree.IsTree) {t : Table} (ht : t ∈ tree.tables) (hpath : t.path = tree.root.path) :
    t = tree.root :=
  List.inj_on_of_nodup_map h.paths ht List.mem_cons_self hpath

theorem numbers_nodup (h : tree.IsTree) : tree.numbers.Nodup :=
  h.numbers.imp fun hlt => Nat.ne_of_lt hlt

/-- No two tables that a query lists have one number. -/
theorem listed_numbers (h : tree.IsTree) :
    (tree.root.number :: tree.inOrder.map fun j => j.number).Nodup := by
  have hperm := (tree.listed_perm.map Table.core).map fun c => c.2.1
  have hnodup : ((tree.listed.map Table.core).map fun c => c.2.1).Nodup :=
    hperm.nodup_iff.2 h.numbers_nodup
  simpa [listed, Table.core, Function.comp_def] using hnodup

/-- Each joined table is one child of the table it hangs on, and of no other. -/
theorem count_children (h : tree.IsTree) {j : Joined} (hj : j ∈ tree.joined) (t : Table) :
    ((tree.children t).map fun k => k.path).count j.path =
      if j.path.dropLast = t.path then 1 else 0 := by
  have hnodup : (tree.joined.map fun k => k.path).Nodup := by
    have hpaths := h.paths
    rw [tables, List.map_cons, List.nodup_cons, List.map_map] at hpaths
    exact hpaths.2
  have hsub : ((tree.children t).map fun k => k.path).Sublist (tree.joined.map fun k => k.path) :=
    List.filter_sublist.map _
  split
  case isTrue hparent =>
    have hmem : j.path ∈ (tree.children t).map fun k => k.path :=
      List.mem_map_of_mem (List.mem_filter.2 ⟨hj, by simpa using hparent⟩)
    exact List.count_eq_one_of_mem (hnodup.sublist hsub) hmem
  case isFalse hparent =>
    refine List.count_eq_zero_of_not_mem fun hmem => hparent ?_
    obtain ⟨k, hk, hpath⟩ := List.mem_map.1 hmem
    have hkparent := (List.mem_filter.1 hk).2
    rw [← hpath]
    simpa using hkparent

theorem exists_hangsOn (h : tree.IsTree) {j : Joined} (hj : j ∈ tree.joined) :
    ∃ t ∈ tree.tables, j.HangsOn t := by
  obtain ⟨front, back, hsplit⟩ := List.append_of_mem hj
  have hhang := h.hang
  rw [hsplit] at hhang
  obtain ⟨t, ht, hj⟩ := hhang.exists_parent
  refine ⟨t, ?_, hj⟩
  rcases ht with ht | ht
  · exact List.mem_singleton.1 ht ▸ List.mem_cons_self
  · rw [tables, hsplit, List.map_append]
    exact List.mem_cons_of_mem _ (List.mem_append_left _ ht)

/-- All tables on the way to a table are there. -/
theorem exists_has (h : tree.IsTree) {t : Table} (ht : tree.Has t) {path : TablePath}
    (hpath : path <+: t.path) : ∃ s, tree.Has s ∧ s.path = path := by
  obtain ⟨u, hu, hcore⟩ := List.mem_map.1 ht
  have hupath : u.path = t.path := congrArg (fun c => c.1) hcore
  have hroot : ∀ s ∈ [tree.root], ∀ q, q <+: s.path → ∃ s ∈ [tree.root], s.path = q := by
    intro s hs q hq
    rw [List.mem_singleton.1 hs, h.root, List.prefix_nil] at hq
    exact ⟨tree.root, List.mem_cons_self, h.root.trans hq.symm⟩
  obtain ⟨s, hs, hspath⟩ := h.hang.prefixes hroot u hu path (hupath ▸ hpath)
  exact ⟨s, List.mem_map_of_mem hs, hspath⟩

/-- Tables that hang on one table do so by relationships of different names. -/
theorem names_nodup (h : tree.IsTree) (t : Table) :
    ((tree.children t).map fun j => j.link.name).Nodup := by
  have hpaths : ((tree.children t).map fun j => j.path).Nodup := by
    have hall := h.paths
    rw [tables, List.map_cons, List.nodup_cons, List.map_map] at hall
    exact hall.2.sublist (List.filter_sublist.map _)
  refine List.Nodup.of_map (fun name => t.path ++ [name]) ?_
  rw [List.map_map]
  refine (List.map_congr_left fun j hj => ?_) ▸ hpaths
  obtain ⟨hj, hparent⟩ := List.mem_filter.1 hj
  obtain ⟨s, -, hhangs⟩ := h.exists_hangsOn hj
  have hparent : j.path.dropLast = t.path := by simpa using hparent
  rw [Function.comp_apply, ← hparent, hhangs.dropLast_path]
  exact hhangs.path

end IsTree

/-! ## Growing -/

/-- A missing table is joined, or the tables stay what they are but for what is asked of them. -/
inductive Grows (catalog : Catalog) : JoinTree × Nat → JoinTree × Nat → Prop where
  | join {x y : JoinTree × Nat} : Joins catalog false x y → Grows catalog x y
  | dress {tree tree' : JoinTree} {n : Nat} : tree'.root.core = tree.root.core →
      tree'.joined.map Joined.place = tree.joined.map Joined.place →
      Grows catalog (tree, n) (tree', n)

/-- Tables are joined and dressed one after the other. -/
abbrev GrowsTo (catalog : Catalog) : JoinTree × Nat → JoinTree × Nat → Prop :=
  Relation.ReflTransGen (Grows catalog)

theorem cores_eq_of_place (hroot : tree'.root.core = tree.root.core)
    (hjoined : tree'.joined.map Joined.place = tree.joined.map Joined.place) :
    tree'.cores = tree.cores := by
  have hcores := congrArg (List.map Prod.fst) hjoined
  rw [List.map_map, List.map_map] at hcores
  rw [cores, cores, tables, tables, List.map_cons, List.map_cons, hroot, List.map_map, List.map_map]
  exact congrArg _ hcores

theorem Grows.walked (h : Grows catalog x y) (hw : x.1.Walked catalog false) :
    y.1.Walked catalog false := by
  cases h with
  | join h => exact h.walked hw
  | @dress tree tree' n hroot hjoined =>
    exact Walked.of_cores_eq (x := (tree, n)) (y := (tree', n))
      (cores_eq_of_place hroot hjoined).symm hw

theorem GrowsTo.walked (h : GrowsTo catalog x y) (hw : x.1.Walked catalog false) :
    y.1.Walked catalog false := by
  induction h with
  | refl => exact hw
  | tail _ h ih => exact h.walked ih

theorem Extends.growsTo (h : Extends catalog checked x y) : GrowsTo catalog x y :=
  Relation.ReflTransGen.mono (fun _ _ => Grows.join) _ _ h.unchecked

theorem mapTables_grows (f : Table → Table) (hf : ∀ t, (f t).core = t.core) (n : Nat) :
    Grows catalog (tree, n) (tree.mapTables f, n) := by
  refine .dress (hf _) ?_
  rw [mapTables, List.map_map]
  exact List.map_congr_left fun j _ => by rw [Function.comp_apply, Joined.place, hf]; rfl

theorem applyJoin_grows (path : TablePath) (join : Join) (n : Nat) :
    Grows catalog (tree, n) (tree.applyJoin path join, n) := by
  refine .dress rfl ?_
  rw [applyJoin, List.map_map]
  refine List.map_congr_left fun j _ => ?_
  rw [Function.comp_apply]
  split <;> rfl

theorem Step.grows {joins : List Join} (h : Step catalog joins x y) : Grows catalog x y := by
  cases h with
  | join h => exact .join h.unchecked
  | choose choices _ => exact mapTables_grows (fun t => t.choose (choices t)) (fun _ => rfl) _
  | apply _ _ _ => exact applyJoin_grows _ _ _

theorem Made.growsTo {access : Access} {joins : List Join} {n n' : Nat}
    (h : Made catalog checked access joins n tree n') :
    ∃ start, Starts access n start ∧ GrowsTo catalog (start, n + 1) (tree, n') := by
  obtain ⟨start, mid, m, hstart, hsteps, hext, -, -⟩ := h
  refine ⟨start, hstart, .trans ?_ hext.growsTo⟩
  exact Relation.ReflTransGen.mono (fun _ _ => Step.grows) _ _ hsteps

/-! ## What growing keeps -/

theorem numbers_extend (t : Table) (name : String) (r : Relation) (access : Access) (n : Nat) :
    (tree.extend t name r access n).numbers = tree.numbers ++ [n] := by
  rw [numbers, cores_extend, List.map_append]
  rfl

/-- New tables have the numbers that are drawn for them. -/
theorem Grows.numbers (h : Grows catalog x y) : x.2 ≤ y.2 ∧ ∃ new,
    y.1.numbers = x.1.numbers ++ new ∧ new.Pairwise (· < ·) ∧ ∀ n ∈ new, x.2 ≤ n ∧ n < y.2 := by
  cases h with
  | join h =>
    cases h with
    | @join tree n t name f r access =>
      refine ⟨Nat.le_succ n, [n], numbers_extend t name r access n, List.pairwise_singleton _ n, ?_⟩
      intro m hm
      obtain rfl := List.mem_singleton.1 hm
      exact ⟨le_rfl, Nat.lt_succ_self m⟩
  | @dress tree tree' n hroot hjoined =>
    refine ⟨le_rfl, [], ?_, .nil, nofun⟩
    rw [List.append_nil, JoinTree.numbers, JoinTree.numbers, cores_eq_of_place hroot hjoined]

theorem GrowsTo.numbers (h : GrowsTo catalog x y) : x.2 ≤ y.2 ∧ ∃ new,
    y.1.numbers = x.1.numbers ++ new ∧ new.Pairwise (· < ·) ∧ ∀ n ∈ new, x.2 ≤ n ∧ n < y.2 := by
  induction h with
  | refl => exact ⟨le_rfl, [], (List.append_nil _).symm, .nil, nofun⟩
  | tail _ h ih =>
    obtain ⟨hle, new, hnew, hsorted, hrange⟩ := ih
    obtain ⟨hle', more, hmore, hsorted', hrange'⟩ := h.numbers
    refine ⟨hle.trans hle', new ++ more, by rw [hmore, hnew, List.append_assoc], ?_, ?_⟩
    · refine List.pairwise_append.2 ⟨hsorted, hsorted', fun m hm n hn => ?_⟩
      exact (hrange m hm).2.trans_le (hrange' n hn).1
    · intro n hn
      rcases List.mem_append.1 hn with hn | hn
      · exact ⟨(hrange n hn).1, (hrange n hn).2.trans_le hle'⟩
      · exact ⟨hle.trans (hrange' n hn).1, (hrange' n hn).2⟩

theorem Grows.isTree (h : Grows catalog x y) (hbound : ∀ n ∈ x.1.numbers, n < x.2)
    (hx : x.1.IsTree) : y.1.IsTree := by
  obtain ⟨-, new, hnumbers, hsorted, hrange⟩ := h.numbers
  have hall : y.1.numbers.Pairwise (· < ·) := by
    rw [hnumbers]
    refine List.pairwise_append.2 ⟨hx.numbers, hsorted, fun m hm n hn => ?_⟩
    exact (hbound m hm).trans_le (hrange n hn).1
  cases h with
  | join h =>
    cases h with
    | @join tree n t name f r access ht _ _ hchild _ =>
      obtain ⟨s, hs, hcore⟩ := List.mem_map.1 ht
      have hpath : s.path = t.path := congrArg (fun c => c.1) hcore
      have hnumber : s.number = t.number := congrArg (fun c => c.2.1) hcore
      have haccess : s.access = t.access := congrArg (fun c => c.2.2) hcore
      refine ⟨hx.root, ?_, ?_, hall⟩
      · have hhang : HangInOrder [tree.root] (tree.joined ++ []) := by
          rw [List.append_nil]; exact hx.hang
        refine hhang.insert ⟨s, ?_, ?_⟩
        · exact (List.mem_cons.1 hs).imp_left fun hs => List.mem_singleton.2 hs
        · exact ⟨by rw [hpath], hnumber.symm, congrArg Access.model haccess.symm⟩
      · have htables : (tree.extend t name r access n).tables.map Table.path =
            tree.tables.map Table.path ++ [t.path ++ [name]] := by simp [tables, extend]
        rw [htables, List.nodup_append']
        refine ⟨hx.paths, List.nodup_singleton _, fun path hpath hmem => ?_⟩
        obtain rfl := List.mem_singleton.1 hmem
        obtain ⟨u, hu, hupath⟩ := List.mem_map.1 hpath
        rcases List.mem_cons.1 hu with rfl | hu
        · exact absurd (hupath.symm.trans hx.root) (by simp)
        · obtain ⟨j, hj, rfl⟩ := List.mem_map.1 hu
          have hnone := List.find?_eq_none.1 hchild j hj
          exact hnone (by simpa using hupath)
  | @dress tree tree' n hroot hjoined =>
    have hpaths : tree'.tables.map Table.path = tree.tables.map Table.path := by
      have hcores := congrArg (List.map fun c => c.1) (cores_eq_of_place hroot hjoined)
      rw [cores, cores, List.map_map, List.map_map] at hcores
      exact hcores
    refine ⟨?_, hx.hang.congr ?_ hjoined, hpaths ▸ hx.paths, hall⟩
    · exact (congrArg (fun c => c.1) hroot).trans hx.root
    · rw [List.map_singleton, List.map_singleton, hroot]

theorem GrowsTo.isTree (h : GrowsTo catalog x y) (hbound : ∀ n ∈ x.1.numbers, n < x.2)
    (hx : x.1.IsTree) : y.1.IsTree := by
  induction h with
  | refl => exact hx
  | @tail mid y hmid h ih =>
    refine h.isTree (fun n hn => ?_) ih
    obtain ⟨hle, new, hnew, -, hrange⟩ := GrowsTo.numbers hmid
    rw [hnew, List.mem_append] at hn
    rcases hn with hn | hn
    · exact (hbound n hn).trans_le hle
    · exact (hrange n hn).2

theorem Starts.numbers_eq {access : Access} {n : Nat} (h : Starts access n tree) :
    tree.numbers = [n] := by
  rw [JoinTree.numbers, cores, tables, h.alone]
  exact congrArg (fun m => [m]) h.number

theorem Starts.isTree {access : Access} {n : Nat} (h : Starts access n tree) : tree.IsTree where
  root := h.path
  hang := by rw [h.alone]; trivial
  paths := by rw [tables, h.alone]; exact List.nodup_singleton _
  numbers := by rw [h.numbers_eq]; exact List.pairwise_singleton _ n

theorem Made.isTree {access : Access} {joins : List Join} {n n' : Nat}
    (h : Made catalog checked access joins n tree n') : tree.IsTree := by
  obtain ⟨start, hstart, hgrows⟩ := h.growsTo
  refine hgrows.isTree (fun m hm => ?_) hstart.isTree
  have hm : m ∈ start.numbers := hm
  rw [hstart.numbers_eq, List.mem_singleton] at hm
  exact hm ▸ Nat.lt_succ_self n

/-! ## The order in which tables are listed -/

theorem placeBelow_eq (parent : TablePath) (j : Joined) (ks : List Joined) :
    ∃ front back, ks = front ++ back ∧ placeBelow parent j ks = front ++ j :: back ∧
      ∀ k ∈ back, ¬ parent <+: k.path := by
  induction ks with
  | nil => exact ⟨[], [], rfl, rfl, fun k hk => absurd hk List.not_mem_nil⟩
  | cons k ks ih =>
    obtain ⟨front, back, hks, hplace, hback⟩ := ih
    rw [placeBelow]
    split
    case isTrue =>
      exact ⟨k :: front, back, by rw [hks, List.cons_append], by rw [hplace, List.cons_append], hback⟩
    case isFalse hany =>
      refine ⟨[], k :: ks, rfl, rfl, fun x hx hprefix => hany ?_⟩
      exact List.any_eq_true.2 ⟨x, hx, List.isPrefixOf_iff_prefix.2 hprefix⟩

/-- A query lists its joined tables so that each stands behind the one it hangs on. -/
theorem IsTree.hang_inOrder (h : tree.IsTree) : HangInOrder [tree.root] tree.inOrder := by
  -- the joined tables are placed one by one; each hangs on a table that is placed already
  have hfold : ∀ (js order : List Joined) (before : List Table), HangInOrder before js →
      (∀ t ∈ before, t = tree.root ∨ t ∈ order.map Joined.toTable) →
      HangInOrder [tree.root] order →
      HangInOrder [tree.root]
        (js.foldl (fun order j => placeBelow j.path.dropLast j order) order) := by
    intro js
    induction js with
    | nil => exact fun order _ _ _ horder => horder
    | cons j js ih =>
      intro order before hjs hbefore horder
      obtain ⟨⟨t, ht, hhangs⟩, hjs⟩ := hjs
      obtain ⟨front, back, hsplit, hplace, hback⟩ := placeBelow_eq j.path.dropLast j order
      rw [List.foldl_cons, hplace]
      refine ih _ _ hjs (fun s hs => ?_) ?_
      · rw [List.map_append, List.map_cons, List.mem_append, List.mem_cons]
        rcases List.mem_cons.1 hs with rfl | hs
        · exact .inr (.inr (.inl rfl))
        · refine (hbefore s hs).imp_right fun hs => ?_
          rw [hsplit, List.map_append, List.mem_append] at hs
          exact hs.imp_right .inr
      · rw [hsplit] at horder
        refine horder.insert ⟨t, ?_, hhangs⟩
        rcases hbefore t ht with rfl | hmem
        · exact .inl List.mem_cons_self
        · rw [hsplit, List.map_append, List.mem_append] at hmem
          refine .inr (hmem.resolve_right fun hmem => ?_)
          obtain ⟨k, hk, rfl⟩ := List.mem_map.1 hmem
          exact hback k hk (hhangs.dropLast_path ▸ List.prefix_refl _)
  exact hfold tree.joined [] [tree.root] h.hang
    (fun t ht => .inl (List.mem_singleton.1 ht)) trivial

end JoinTree
end QueryCompiler
