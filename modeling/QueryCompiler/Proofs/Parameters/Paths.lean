import QueryCompiler.Condition.Resolve
import QueryCompiler.Proofs.Parameters.Marks
import Mathlib.Data.List.Nodup

/-!
# Where the values of a request are bound

A part of a request binds its values under the path of the part. What subqueries and joins hold rows
to is bound under the numbers of their tables, which are drawn one after the other. So the paths of a
condition lie under its own path or under numbers drawn while it was resolved, and those of two
parts that are resolved one after the other differ.
-/

namespace QueryCompiler.Params

variable {path base base' : String}

/-! ## Paths under a path -/

/-- The path goes on behind `base` and a dot. -/
def Under (base path : String) : Prop :=
  ∃ rest, path.toList = base.toList ++ '.' :: rest

theorem append_sep_inj {x : Char} {a b s t : List Char} (ha : x ∉ a) (hb : x ∉ b)
    (h : a ++ x :: s = b ++ x :: t) : a = b := by
  induction a generalizing b with
  | nil =>
    cases b with
    | nil => rfl
    | cons d b =>
      obtain ⟨rfl, -⟩ := List.cons.inj h
      exact absurd List.mem_cons_self hb
  | cons c a ih =>
    cases b with
    | nil =>
      obtain ⟨rfl, -⟩ := List.cons.inj h
      exact absurd List.mem_cons_self ha
    | cons d b =>
      obtain ⟨rfl, htail⟩ := List.cons.inj h
      rw [List.mem_cons, not_or] at ha hb
      rw [ih ha.2 hb.2 htail]

/-- A path lies under one first segment only. -/
theorem under_inj (hb : '.' ∉ base.toList) (hb' : '.' ∉ base'.toList) (h : Under base path)
    (h' : Under base' path) : base = base' := by
  obtain ⟨rest, h⟩ := h
  obtain ⟨rest', h'⟩ := h'
  exact String.toList_inj.1 (append_sep_inj hb hb' (h.symm.trans h'))

theorem childPath_of_ne {child : String} (h : base ≠ "") :
    childPath base child = base ++ "." ++ child := by
  have hempty : base.isEmpty = false := by simpa using h
  rw [childPath, hempty]
  rfl

theorem under_childPath {child : String} (h : base ≠ "") : Under base (childPath base child) :=
  ⟨child.toList, by simp [childPath_of_ne h]⟩

theorem Under.of_childPath {child : String} (hbase : base ≠ "")
    (h : Under (childPath base child) path) : Under base path := by
  obtain ⟨rest, h⟩ := h
  exact ⟨child.toList ++ '.' :: rest, by simp [h, childPath_of_ne hbase]⟩

theorem under_itemPath {i : Nat} (h : Under base path) : Under base (itemPath path i) := by
  obtain ⟨rest, h⟩ := h
  exact ⟨rest ++ ("[" ++ Nat.repr i ++ "]").toList, by simp [itemPath, h]⟩

/-! ## Numbers in paths -/

theorem repr_inj {m n : Nat} (h : (Nat.repr m).toList = (Nat.repr n).toList) : m = n := by
  rw [Nat.toList_repr, Nat.toList_repr] at h
  have hm := Nat.ofDigitChars_toDigits (b := 10) (n := m) (by decide) (by decide)
  rw [h, Nat.ofDigitChars_toDigits (by decide) (by decide)] at hm
  exact hm.symm

theorem not_mem_repr {c : Char} (hc : c.isDigit = false) (n : Nat) : c ∉ (Nat.repr n).toList := by
  intro hmem
  rw [Nat.toList_repr] at hmem
  rw [Nat.isDigit_of_mem_toDigits (by decide) (by decide) hmem] at hc
  exact Bool.false_ne_true hc.symm

theorem repr_append_inj {m n : Nat} {c : Char} {s t : List Char} (hc : c.isDigit = false)
    (h : (Nat.repr m).toList ++ c :: s = (Nat.repr n).toList ++ c :: t) : m = n :=
  repr_inj (append_sep_inj (not_mem_repr hc m) (not_mem_repr hc n) h)

theorem itemPath_inj {i j : Nat} (h : itemPath path i = itemPath path j) : i = j := by
  have h := congrArg String.toList h
  simp only [itemPath, String.toList_append, List.append_assoc, List.append_cancel_left_eq] at h
  exact repr_append_inj (c := ']') (s := []) (t := []) (by decide) h

/-- Two members of a group have no path in common. -/
theorem memberPath_inj {i j : Nat} (hbase : base ≠ "")
    (h : Under (Condition.memberPath base i) path) (h' : Under (Condition.memberPath base j) path) :
    i = j := by
  obtain ⟨rest, h⟩ := h
  obtain ⟨rest', h'⟩ := h'
  rw [h, Condition.memberPath, Condition.memberPath, childPath_of_ne hbase,
    childPath_of_ne hbase] at h'
  simp only [String.toList_append, List.append_assoc, List.append_cancel_left_eq] at h'
  exact repr_append_inj (c := ']') (by decide) h'

/-! ## Paths under the numbers of tables -/

/-- The path of what the rows of a joined table are held to (`0`) or are asked to meet (`1`). -/
def joinBase (n : Nat) (asked : Bool) : String :=
  "j" ++ Nat.repr n ++ if asked then "1" else "0"

/-- The path lies in the join of the table with this number. -/
def Numbered (n : Nat) (path : String) : Prop :=
  ∃ asked, Under (joinBase n asked) path

theorem dot_not_mem_joinBase (n : Nat) (asked : Bool) : '.' ∉ (joinBase n asked).toList := by
  have hrepr := not_mem_repr (c := '.') (by decide) n
  rw [Nat.toList_repr] at hrepr
  cases asked <;> simp [joinBase, hrepr]

theorem joinBase_inj {m n : Nat} {asked asked' : Bool} (h : joinBase m asked = joinBase n asked') :
    m = n ∧ asked = asked' := by
  have h := congrArg String.toList h
  simp only [joinBase, String.toList_append, List.append_assoc, List.append_cancel_left_eq] at h
  have hlength : (if asked then "1" else "0").toList.length =
      (if asked' then "1" else "0").toList.length := by cases asked <;> cases asked' <;> rfl
  obtain ⟨hnumber, hasked⟩ := List.append_inj' h hlength
  refine ⟨repr_inj hnumber, ?_⟩
  cases asked <;> cases asked' <;> first | rfl | exact absurd hasked (by decide)

theorem Numbered.inj {m n : Nat} (h : Numbered m path) (h' : Numbered n path) : m = n := by
  obtain ⟨asked, h⟩ := h
  obtain ⟨asked', h'⟩ := h'
  have heq := under_inj (dot_not_mem_joinBase m asked) (dot_not_mem_joinBase n asked') h h'
  exact (joinBase_inj heq).1

/-! ## The path of a part -/

/-- A path under which a part binds its values, before the number `n` is drawn: none of the numbers
from `n` on is met under it. -/
structure IsBase (base : String) (n : Nat) : Prop where
  nonempty : base ≠ ""
  isPath : IsPath base
  fresh : ∀ m, n ≤ m → ∀ path, Under base path → ¬ Numbered m path

variable {lo mid hi n : Nat} {paths more : List String}

theorem IsBase.mono (h : IsBase base lo) (hle : lo ≤ hi) : IsBase base hi :=
  ⟨h.nonempty, h.isPath, fun m hm => h.fresh m (hle.trans hm)⟩

theorem isPath_childPath {child : String} (hbase : base ≠ "") (h : IsPath base)
    (hchild : IsPath child) : IsPath (childPath base child) := by
  have hdot : IsPath "." := isPath_of_all (by decide)
  rw [childPath_of_ne hbase]
  exact (h.append hdot).append hchild

theorem IsBase.child {child : String} (h : IsBase base n) (hchild : IsPath child) :
    IsBase (childPath base child) n where
  nonempty := by simp [childPath_of_ne h.nonempty]
  isPath := isPath_childPath h.nonempty h.isPath hchild
  fresh m hm path hpath := h.fresh m hm path (hpath.of_childPath h.nonempty)

theorem IsBase.member (h : IsBase base n) (i : Nat) : IsBase (Condition.memberPath base i) n := by
  have hopen : IsPath "c[" := isPath_of_all (by decide)
  have hclose : IsPath "]" := isPath_of_all (by decide)
  exact h.child ((hopen.append (isPath_repr i)).append hclose)

theorem IsBase.inner (h : IsBase base n) : IsBase (Condition.innerPath base) n :=
  h.child (isPath_of_all (by decide))

theorem IsBase.isPath_valuePath (h : IsBase base n) : IsPath (valuePath base) :=
  isPath_childPath h.nonempty h.isPath (isPath_of_all (by decide))

theorem isPath_itemPath (h : IsPath path) (i : Nat) : IsPath (itemPath path i) := by
  have hopen : IsPath "[" := isPath_of_all (by decide)
  have hclose : IsPath "]" := isPath_of_all (by decide)
  exact ((h.append hopen).append (isPath_repr i)).append hclose

theorem isBase_joinBase (asked : Bool) (h : n < lo) : IsBase (joinBase n asked) lo where
  nonempty := by simp [joinBase]
  isPath := by
    have hmark : IsPath "j" := isPath_of_all (by decide)
    have hlast : IsPath (if asked then "1" else "0") := by
      cases asked <;> exact isPath_of_all (by decide)
    exact (hmark.append (isPath_repr n)).append hlast
  fresh m hm path hpath hnumbered := by
    have := Numbered.inj ⟨asked, hpath⟩ hnumbered
    omega

/-! ## The paths of a part -/

/-- The path lies under `base`, or in the join of a table with a number from `lo` up to `hi`. -/
def Within (base : String) (lo hi : Nat) (path : String) : Prop :=
  Under base path ∨ ∃ n, lo ≤ n ∧ n < hi ∧ Numbered n path

/-- The paths of a part that is bound under `base` and was resolved while the numbers from `lo` up to
`hi` were drawn. -/
structure Scoped (base : String) (lo hi : Nat) (paths : List String) : Prop where
  le : lo ≤ hi
  nodup : paths.Nodup
  within : ∀ path ∈ paths, Within base lo hi path

/-- The paths of the members of a group from place `i` on. -/
structure ScopedFrom (base : String) (i lo hi : Nat) (paths : List String) : Prop where
  le : lo ≤ hi
  nodup : paths.Nodup
  within : ∀ path ∈ paths, ∃ j, i ≤ j ∧ Within (Condition.memberPath base j) lo hi path

/-- The paths of joins of the tables with certain numbers. -/
structure Ranged (own : Nat → Prop) (paths : List String) : Prop where
  nodup : paths.Nodup
  within : ∀ path ∈ paths, ∃ n, own n ∧ Numbered n path

theorem scoped_nil (base : String) (n : Nat) : Scoped base n n [] :=
  ⟨le_rfl, .nil, List.forall_mem_nil _⟩

theorem scoped_singleton (n : Nat) (h : Under base path) : Scoped base n n [path] :=
  ⟨le_rfl, List.nodup_singleton _, fun _ hmem => .inl (List.mem_singleton.1 hmem ▸ h)⟩

theorem scoped_ofItems (n : Nat) (h : Under base path) (items : List Value) :
    Scoped base n n ((Binding.ofItems path items).map Binding.path) := by
  have hpaths : (Binding.ofItems path items).map Binding.path =
      (List.range items.length).map (itemPath path) := by
    rw [List.range_eq_range', ← List.zipIdx_map_snd 0 items, Binding.ofItems, List.map_map,
      List.map_map]
    rfl
  rw [hpaths]
  refine ⟨le_rfl, List.Nodup.map (fun _ _ => itemPath_inj) List.nodup_range, fun p hp => ?_⟩
  obtain ⟨i, -, rfl⟩ := List.mem_map.1 hp
  exact .inl (under_itemPath h)

theorem Scoped.inner (hbase : IsBase base n)
    (h : Scoped (Condition.innerPath base) lo hi paths) : Scoped base lo hi paths :=
  ⟨h.le, h.nodup, fun path hpath =>
    (h.within path hpath).imp_left fun hunder => hunder.of_childPath hbase.nonempty⟩

theorem ScopedFrom.group {i : Nat} (hbase : IsBase base n) (h : ScopedFrom base i lo hi paths) :
    Scoped base lo hi paths := by
  refine ⟨h.le, h.nodup, fun path hpath => ?_⟩
  obtain ⟨j, -, hwithin⟩ := h.within path hpath
  exact hwithin.imp_left fun hunder => hunder.of_childPath hbase.nonempty

/-- Two parts that are resolved one after the other have no path in common if nothing lies under
both. -/
theorem Within.disjoint (hbase : IsBase base lo) (hbase' : IsBase base' lo)
    (hapart : ∀ path, Under base path → ¬ Under base' path) (h : Within base lo mid path)
    (h' : Within base' mid hi path) (hle : lo ≤ mid) : False := by
  rcases h with h | ⟨m, hm, hmid, h⟩
  · rcases h' with h' | ⟨n, hn, -, h'⟩
    · exact hapart path h h'
    · exact hbase.fresh n (hle.trans hn) path h h'
  · rcases h' with h' | ⟨n, hn, -, h'⟩
    · exact hbase'.fresh m hm path h' h
    · have := h.inj h'
      omega

theorem Scoped.disjoint (hbase : IsBase base lo) (hbase' : IsBase base' lo)
    (hapart : ∀ path, Under base path → ¬ Under base' path) (h : Scoped base lo mid paths)
    (h' : Scoped base' mid hi more) : paths.Disjoint more :=
  fun path hpath hmore =>
    (h.within path hpath).disjoint hbase hbase' hapart (h'.within path hmore) h.le

theorem scopedFrom_nil (base : String) (i n : Nat) : ScopedFrom base i n n [] :=
  ⟨le_rfl, .nil, List.forall_mem_nil _⟩

theorem ScopedFrom.cons {i : Nat} (hbase : IsBase base lo)
    (h : Scoped (Condition.memberPath base i) lo mid paths)
    (h' : ScopedFrom base (i + 1) mid hi more) : ScopedFrom base i lo hi (paths ++ more) := by
  have hdisjoint : paths.Disjoint more := by
    intro path hpath hmore
    obtain ⟨j, hj, hwithin⟩ := h'.within path hmore
    refine (h.within path hpath).disjoint (hbase.member i) (hbase.member j) ?_ hwithin h.le
    intro path hi hj'
    have := memberPath_inj hbase.nonempty hi hj'
    omega
  refine ⟨h.le.trans h'.le, List.nodup_append'.2 ⟨h.nodup, h'.nodup, hdisjoint⟩, fun path hmem => ?_⟩
  rcases List.mem_append.1 hmem with hpath | hpath
  · refine ⟨i, le_rfl, (h.within path hpath).imp_right ?_⟩
    rintro ⟨n, hn, hn', hnumbered⟩
    exact ⟨n, hn, hn'.trans_le h'.le, hnumbered⟩
  · obtain ⟨j, hj, hwithin⟩ := h'.within path hpath
    refine ⟨j, by omega, hwithin.imp_right ?_⟩
    rintro ⟨n, hn, hn', hnumbered⟩
    exact ⟨n, h.le.trans hn, hn', hnumbered⟩

/-- The paths of a subquery, and behind them those of its inner condition. -/
theorem Ranged.append_inner (hbase : IsBase base lo) (hle : lo ≤ mid)
    (h : Ranged (fun n => lo ≤ n ∧ n < mid) paths)
    (h' : Scoped (Condition.innerPath base) mid hi more) : Scoped base lo hi (paths ++ more) := by
  have hdisjoint : paths.Disjoint more := by
    intro path hpath hmore
    obtain ⟨m, ⟨hm, hmid⟩, hnumbered⟩ := h.within path hpath
    rcases h'.within path hmore with hunder | ⟨n, hn, -, hnumbered'⟩
    · exact hbase.inner.fresh m hm path hunder hnumbered
    · have := hnumbered.inj hnumbered'
      omega
  refine ⟨hle.trans h'.le, List.nodup_append'.2 ⟨h.nodup, h'.nodup, hdisjoint⟩, fun path hmem => ?_⟩
  rcases List.mem_append.1 hmem with hpath | hpath
  · obtain ⟨m, ⟨hm, hmid⟩, hnumbered⟩ := h.within path hpath
    exact .inr ⟨m, hm, hmid.trans_le h'.le, hnumbered⟩
  · refine ((h'.inner hbase).within path hpath).imp_right ?_
    rintro ⟨n, hn, hn', hnumbered⟩
    exact ⟨n, hle.trans hn, hn', hnumbered⟩

/-! ## The paths of joins -/

theorem Ranged.mono {own own' : Nat → Prop} (h : Ranged own paths) (himp : ∀ n, own n → own' n) :
    Ranged own' paths := by
  refine ⟨h.nodup, fun path hpath => ?_⟩
  obtain ⟨n, hn, hnumbered⟩ := h.within path hpath
  exact ⟨n, himp n hn, hnumbered⟩

theorem Ranged.append {own own' : Nat → Prop} (h : Ranged own paths) (h' : Ranged own' more)
    (hapart : ∀ n, own n → ¬ own' n) : Ranged (fun n => own n ∨ own' n) (paths ++ more) := by
  have hdisjoint : paths.Disjoint more := by
    intro path hpath hmore
    obtain ⟨m, hm, hnumbered⟩ := h.within path hpath
    obtain ⟨n, hn, hnumbered'⟩ := h'.within path hmore
    obtain rfl := hnumbered.inj hnumbered'
    exact hapart m hm hn
  refine ⟨List.nodup_append'.2 ⟨h.nodup, h'.nodup, hdisjoint⟩, fun path hmem => ?_⟩
  rcases List.mem_append.1 hmem with hpath | hpath
  · obtain ⟨n, hn, hnumbered⟩ := h.within path hpath
    exact ⟨n, .inl hn, hnumbered⟩
  · obtain ⟨n, hn, hnumbered⟩ := h'.within path hpath
    exact ⟨n, .inr hn, hnumbered⟩

/-- What is resolved for one join lies under the number of its table or under later ones. -/
theorem Scoped.ranged {asked : Bool} (h : Scoped (joinBase n asked) lo hi paths) :
    Ranged (fun m => m = n ∨ lo ≤ m ∧ m < hi) paths := by
  refine ⟨h.nodup, fun path hpath => ?_⟩
  rcases h.within path hpath with hunder | ⟨m, hm, hm', hnumbered⟩
  · exact ⟨n, .inl rfl, asked, hunder⟩
  · exact ⟨m, .inr ⟨hm, hm'⟩, hnumbered⟩

/-- What the rows of a joined table are held to, and what they are asked to meet. -/
theorem Scoped.join (hn : n < lo) (h : Scoped (joinBase n false) lo mid paths)
    (h' : Scoped (joinBase n true) mid hi more) :
    Ranged (fun m => m = n ∨ lo ≤ m ∧ m < hi) (paths ++ more) := by
  have hdisjoint : paths.Disjoint more := by
    refine h.disjoint (isBase_joinBase false hn) (isBase_joinBase true hn) (fun path hunder hunder' => ?_) h'
    have heq := under_inj (dot_not_mem_joinBase n false) (dot_not_mem_joinBase n true) hunder hunder'
    exact Bool.false_ne_true (joinBase_inj heq).2
  have hle := h.le
  have hle' := h'.le
  refine ⟨List.nodup_append'.2 ⟨h.nodup, h'.nodup, hdisjoint⟩, fun path hmem => ?_⟩
  rcases List.mem_append.1 hmem with hpath | hpath
  · exact (h.ranged.mono fun m hm => by omega).within path hpath
  · exact (h'.ranged.mono fun m hm => by omega).within path hpath

end QueryCompiler.Params
