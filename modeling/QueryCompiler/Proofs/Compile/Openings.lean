import QueryCompiler.Proofs.Compile.Likeness
import QueryCompiler.Proofs.JoinTree.Scopes

/-!
# The subqueries that can be opened

A subquery is opened for a condition over related rows, and more of them for the conditions of its
joins and for the rules on its tables. Which ones can follow is read off the catalog: there is at
most one for each condition over related rows in the request and in the rules, since the place of a
condition tells which relationship its path leads over and whether permissions are minded.
-/

namespace QueryCompiler

open Build

/-- A subquery over a relationship of a model, with its explicit joins and its inner condition. -/
structure Opening where
  parent : Model
  name : String
  relation : Relation
  joins : List Join
  inner : Option Condition
  checked : Bool

/-- The access to the model at the other end of the relationship. -/
def Opening.target (catalog : Catalog) (o : Opening) : Except CompileError Access :=
  catalog.target o.parent o.name o.relation

/-- The relationship that a path leads to, with its name and the model that owns it. -/
def Catalog.relationAt? (catalog : Catalog) (a : Access) (path : String) :
    Option (Model × String × Relation) := do
  let owner ← catalog.walk? false a (Path.all path).dropLast
  let name ← (Path.all path).getLast?
  let f ← owner.model.field? name
  let r ← f.relation?
  return (owner.model, name, r)

/-! ## Openings of conditions -/

namespace Condition

mutual

/-- The subqueries that a condition on rows of a model can open, those inside them included. -/
def openings (catalog : Catalog) : Condition → Access → Bool → List Opening
  | .compare _ _ _ _, _, _ | .custom _ _ _, _, _ | .search _ _ _, _, _ => []
  | .group _ members, a, checked => openingsOf catalog members a checked
  | .negate inner, a, checked => inner.openings catalog a checked
  | .related path inner joins _, a, checked =>
    match catalog.relationAt? a path with
    | some (parent, name, r) =>
      ⟨parent, name, r, joins, inner, checked⟩ ::
        match catalog.target parent name r with
        | .ok b => openingsOpt catalog inner b checked ++ openingsJoins catalog joins b
        | .error _ => []
    | none => []

/-- The openings of the members of a group. -/
def openingsOf (catalog : Catalog) : List Condition → Access → Bool → List Opening
  | [], _, _ => []
  | c :: cs, a, checked => c.openings catalog a checked ++ openingsOf catalog cs a checked

/-- The openings of a condition that may be missing. -/
def openingsOpt (catalog : Catalog) : Option Condition → Access → Bool → List Opening
  | none, _, _ => []
  | some c, a, checked => c.openings catalog a checked

/-- The openings of the conditions of joins to the tables that their paths lead to. -/
def openingsJoins (catalog : Catalog) : List (JoinOf Condition) → Access → List Opening
  | [], _ => []
  | ⟨path, _, c, _⟩ :: js, a =>
    (match catalog.walk? false a (Path.all path) with
      | some b => openingsOpt catalog c b true
      | none => []) ++ openingsJoins catalog js a

end

variable {catalog : Catalog} {a b : Access} {checked : Bool} {o : Opening}

/-! ### How many there are -/

mutual

theorem length_openings : ∀ (c : Condition) (a : Access) (checked : Bool),
    (c.openings catalog a checked).length ≤ c.relatedCount
  | .compare _ _ _ _, _, _ | .custom _ _ _, _, _ | .search _ _ _, _, _ => Nat.zero_le _
  | .group _ members, a, checked => by
    rw [openings, relatedCount]
    exact length_openingsOf members a checked
  | .negate inner, a, checked => by
    rw [openings, relatedCount]
    exact length_openings inner a checked
  | .related path inner joins _, a, checked => by
    rw [openings, relatedCount]
    split
    · have hinside : ∀ b, (openingsOpt catalog inner b checked ++
          openingsJoins catalog joins b).length ≤ relatedCountOpt inner + relatedCountJoins joins := by
        intro b
        have hinner := length_openingsOpt inner b checked
        have hjoins := length_openingsJoins joins b
        rw [List.length_append]
        omega
      split
      · rename_i b _
        have := hinside b
        rw [List.length_cons]
        omega
      · simp
        omega
    · exact Nat.zero_le _

theorem length_openingsOf : ∀ (cs : List Condition) (a : Access) (checked : Bool),
    (openingsOf catalog cs a checked).length ≤ relatedCountOf cs
  | [], _, _ => Nat.zero_le _
  | c :: cs, a, checked => by
    rw [openingsOf, relatedCountOf, List.length_append]
    exact Nat.add_le_add (length_openings c a checked) (length_openingsOf cs a checked)

theorem length_openingsOpt : ∀ (c : Option Condition) (a : Access) (checked : Bool),
    (openingsOpt catalog c a checked).length ≤ relatedCountOpt c
  | none, _, _ => Nat.zero_le _
  | some c, a, checked => by
    rw [openingsOpt, relatedCountOpt]
    exact length_openings c a checked

theorem length_openingsJoins : ∀ (js : List (JoinOf Condition)) (a : Access),
    (openingsJoins catalog js a).length ≤ relatedCountJoins js
  | [], _ => Nat.zero_le _
  | ⟨path, _, c, _⟩ :: js, a => by
    rw [openingsJoins, relatedCountJoins, List.length_append]
    refine Nat.add_le_add ?_ (length_openingsJoins js a)
    split
    · exact length_openingsOpt c _ true
    · exact Nat.zero_le _

end

/-! ### What follows from them -/

theorem openingsOf_eq (cs : List Condition) :
    openingsOf catalog cs a checked = cs.flatMap fun c => c.openings catalog a checked := by
  induction cs with
  | nil => rw [openingsOf, List.flatMap_nil]
  | cons c cs ih => rw [openingsOf, ih, List.flatMap_cons]

theorem PartOf.openings_subset {whole c : Condition} (h : PartOf whole c) :
    c.openings catalog a checked ⊆ whole.openings catalog a checked := by
  induction h with
  | whole => exact fun _ => id
  | member _ hc ih =>
    refine fun o ho => ih ?_
    rw [openings, openingsOf_eq]
    exact List.mem_flatMap_of_mem hc ho
  | inner _ ih =>
    refine fun o ho => ih ?_
    rw [openings]
    exact ho

theorem openings_related {path : String} {inner : Option Condition} {joins : List Join}
    {negated : Bool} {parent : Model} {name : String} {r : Relation}
    (hrelation : catalog.relationAt? a path = some (parent, name, r))
    (htarget : catalog.target parent name r = .ok b) :
    (related path inner joins negated).openings catalog a checked =
      ⟨parent, name, r, joins, inner, checked⟩ ::
        (openingsOpt catalog inner b checked ++ openingsJoins catalog joins b) := by
  rw [openings, hrelation]
  simp only [htarget]

theorem openingsJoins_subset {joins : List Join} {join : Join} {c : Condition} (hjoin : join ∈ joins)
    (hc : join.condition = some c) (hwalk : catalog.walk? false a (Path.all join.path) = some b) :
    c.openings catalog b true ⊆ openingsJoins catalog joins a := by
  induction joins with
  | nil => exact absurd hjoin List.not_mem_nil
  | cons j js ih =>
    obtain ⟨path, type, condition, ignoreDeleted⟩ := j
    intro o ho
    rw [openingsJoins, List.mem_append]
    rcases List.mem_cons.1 hjoin with rfl | hjoin
    · left
      rw [hwalk]
      simp only at hc ⊢
      rw [hc, openingsOpt]
      exact ho
    · exact .inr (ih hjoin ho)

mutual

theorem joins_subset_openings : ∀ (c : Condition) {a : Access} {checked : Bool},
    o ∈ c.openings catalog a checked → o.target catalog = .ok b →
    openingsJoins catalog o.joins b ⊆ c.openings catalog a checked
  | .compare _ _ _ _, _, _, ho, _ | .custom _ _ _, _, _, ho, _ | .search _ _ _, _, _, ho, _ => by
    rw [openings] at ho
    exact absurd ho List.not_mem_nil
  | .group _ members, a, checked, ho, hb => by
    rw [openings] at ho ⊢
    exact joins_subset_openingsOf members ho hb
  | .negate inner, a, checked, ho, hb => by
    rw [openings] at ho ⊢
    exact joins_subset_openings inner ho hb
  | .related path inner joins negated, a, checked, ho, hb => by
    cases hrelation : catalog.relationAt? a path with
    | none =>
      rw [openings, hrelation] at ho
      exact absurd ho List.not_mem_nil
    | some found =>
      obtain ⟨parent, name, r⟩ := found
      cases htarget : catalog.target parent name r with
      | error e =>
        rw [openings, hrelation] at ho
        simp only [htarget] at ho
        obtain rfl := List.mem_singleton.1 ho
        exact absurd (htarget.symm.trans hb) nofun
      | ok b' =>
        rw [openings_related hrelation htarget] at ho ⊢
        rcases List.mem_cons.1 ho with rfl | ho
        · obtain rfl := Except.ok.inj (htarget.symm.trans hb)
          exact fun o ho => List.mem_cons_of_mem _ (List.mem_append_right _ ho)
        · rcases List.mem_append.1 ho with ho | ho
          · exact fun o' ho' => List.mem_cons_of_mem _ (List.mem_append_left _
              (joins_subset_openingsOpt inner ho hb ho'))
          · exact fun o' ho' => List.mem_cons_of_mem _ (List.mem_append_right _
              (joins_subset_openingsJoins joins ho hb ho'))

theorem joins_subset_openingsOf : ∀ (cs : List Condition) {a : Access} {checked : Bool},
    o ∈ openingsOf catalog cs a checked → o.target catalog = .ok b →
    openingsJoins catalog o.joins b ⊆ openingsOf catalog cs a checked
  | [], _, _, ho, _ => by
    rw [openingsOf] at ho
    exact absurd ho List.not_mem_nil
  | c :: cs, a, checked, ho, hb => by
    rw [openingsOf] at ho ⊢
    rcases List.mem_append.1 ho with ho | ho
    · exact fun o' ho' => List.mem_append_left _ (joins_subset_openings c ho hb ho')
    · exact fun o' ho' => List.mem_append_right _ (joins_subset_openingsOf cs ho hb ho')

theorem joins_subset_openingsOpt : ∀ (c : Option Condition) {a : Access} {checked : Bool},
    o ∈ openingsOpt catalog c a checked → o.target catalog = .ok b →
    openingsJoins catalog o.joins b ⊆ openingsOpt catalog c a checked
  | none, _, _, ho, _ => by
    rw [openingsOpt] at ho
    exact absurd ho List.not_mem_nil
  | some c, a, checked, ho, hb => by
    rw [openingsOpt] at ho ⊢
    exact joins_subset_openings c ho hb

theorem joins_subset_openingsJoins : ∀ (js : List (JoinOf Condition)) {a : Access},
    o ∈ openingsJoins catalog js a → o.target catalog = .ok b →
    openingsJoins catalog o.joins b ⊆ openingsJoins catalog js a
  | [], _, ho, _ => by
    rw [openingsJoins] at ho
    exact absurd ho List.not_mem_nil
  | ⟨path, _, c, _⟩ :: js, a, ho, hb => by
    rw [openingsJoins] at ho ⊢
    rcases List.mem_append.1 ho with ho | ho
    · refine fun o' ho' => List.mem_append_left _ ?_
      split at ho
      · exact joins_subset_openingsOpt c ho hb ho'
      · exact absurd ho List.not_mem_nil
    · exact fun o' ho' => List.mem_append_right _ (joins_subset_openingsJoins js ho hb ho')

end

/-! ### Induction over them

The joins of an opening are inside the condition that it is one of. -/

/-- An opening has the property if those of its joins have it. -/
def Hereditary (catalog : Catalog) (P : Opening → Prop) : Prop :=
  ∀ o : Opening,
    (∀ b, o.target catalog = .ok b → ∀ o' ∈ openingsJoins catalog o.joins b, P o') → P o

variable {P : Opening → Prop}

mutual

theorem openings_induct (h : Hereditary catalog P) :
    ∀ (c : Condition) {a : Access} {checked : Bool}, ∀ o ∈ c.openings catalog a checked, P o
  | .compare _ _ _ _, _, _, _, ho | .custom _ _ _, _, _, _, ho | .search _ _ _, _, _, _, ho => by
    rw [openings] at ho
    exact absurd ho List.not_mem_nil
  | .group _ members, _, _, o, ho => by
    rw [openings] at ho
    exact openingsOf_induct h members o ho
  | .negate inner, _, _, o, ho => by
    rw [openings] at ho
    exact openings_induct h inner o ho
  | .related path inner joins _, _, _, o, ho => by
    rw [openings] at ho
    split at ho
    · rcases List.mem_cons.1 ho with rfl | ho
      · exact h _ fun _ _ o' ho' => openingsJoins_induct h joins o' ho'
      · split at ho
        · rcases List.mem_append.1 ho with ho | ho
          · exact openingsOpt_induct h inner o ho
          · exact openingsJoins_induct h joins o ho
        · exact absurd ho List.not_mem_nil
    · exact absurd ho List.not_mem_nil

theorem openingsOf_induct (h : Hereditary catalog P) :
    ∀ (cs : List Condition) {a : Access} {checked : Bool}, ∀ o ∈ openingsOf catalog cs a checked, P o
  | [], _, _, _, ho => by
    rw [openingsOf] at ho
    exact absurd ho List.not_mem_nil
  | c :: cs, _, _, o, ho => by
    rw [openingsOf] at ho
    rcases List.mem_append.1 ho with ho | ho
    · exact openings_induct h c o ho
    · exact openingsOf_induct h cs o ho

theorem openingsOpt_induct (h : Hereditary catalog P) :
    ∀ (c : Option Condition) {a : Access} {checked : Bool}, ∀ o ∈ openingsOpt catalog c a checked, P o
  | none, _, _, _, ho => by
    rw [openingsOpt] at ho
    exact absurd ho List.not_mem_nil
  | some c, _, _, o, ho => by
    rw [openingsOpt] at ho
    exact openings_induct h c o ho

theorem openingsJoins_induct (h : Hereditary catalog P) :
    ∀ (js : List (JoinOf Condition)) {a : Access}, ∀ o ∈ openingsJoins catalog js a, P o
  | [], _, _, ho => by
    rw [openingsJoins] at ho
    exact absurd ho List.not_mem_nil
  | ⟨_, _, c, _⟩ :: js, _, o, ho => by
    rw [openingsJoins] at ho
    rcases List.mem_append.1 ho with ho | ho
    · split at ho
      · exact openingsOpt_induct h c o ho
      · exact absurd ho List.not_mem_nil
    · exact openingsJoins_induct h js o ho

end
end Condition

/-! ## Openings of rules and requests -/

/-- Every model is registered under its own name. -/
def Catalog.Named (catalog : Catalog) : Prop :=
  ∀ name m, catalog.models.model? name = some m → m.name = name

/-- The subqueries that what the caller is held to can open. -/
def Catalog.openings (catalog : Catalog) : List Opening :=
  catalog.permissions.flatMap fun p =>
    match catalog.access p.1 with
    | .ok a => Condition.openingsOpt catalog p.2.rows a false
    | .error _ => []

/-- The subqueries that the tables of a demand about a model can open. -/
def Demand.openings (catalog : Catalog) (d : Demand) (a : Access) : List Opening :=
  Condition.openingsOpt catalog d.condition a true ++ Condition.openingsJoins catalog d.joins a

/-- The subqueries that a request can open by itself. -/
def Request.openings (catalog : Catalog) (r : Request) : List Opening :=
  match catalog.access r.model with
  | .ok a => (r.demands catalog.dialect).flatMap fun d => d.openings catalog a
  | .error _ => []

/-- All that can be opened while a request is compiled. -/
def Request.allOpenings (catalog : Catalog) (r : Request) : List Opening :=
  r.openings catalog ++ catalog.openings

namespace Catalog

/-- The catalog of the models in a list. -/
def ofList (models : List Model) (permissions : Permissions) (settings : Settings) : Catalog :=
  ⟨Registry.ofList models, permissions, settings⟩

variable {catalog : Catalog}

theorem named_ofList (models : List Model) (permissions : Permissions) (settings : Settings) :
    (ofList models permissions settings).Named := by
  have hinsert : ∀ {r : Registry} {m : Model}, (∀ e ∈ r, e.2.name = e.1) →
      ∀ e ∈ r.register m, e.2.name = e.1 := by
    intro r m hr e he
    rcases Keyed.mem_insert he with rfl | he
    · rfl
    · exact hr e he
  have hfold : ∀ (models : List Model) (r : Registry), (∀ e ∈ r, e.2.name = e.1) →
      ∀ e ∈ models.foldl Registry.register r, e.2.name = e.1 := by
    intro models
    induction models with
    | nil => exact fun _ hr => hr
    | cons m models ih => exact fun r hr => ih _ (hinsert hr)
  exact fun name m hm => hfold models [] nofun (name, m) (Keyed.mem_of_get? hm)

theorem length_openings : catalog.openings.length ≤ catalog.relatedCount := by
  rw [openings, relatedCount]
  generalize catalog.permissions = ps
  induction ps with
  | nil => exact Nat.zero_le _
  | cons p ps ih =>
    rw [List.flatMap_cons, List.length_append, List.foldr_cons]
    refine Nat.add_le_add ?_ ih
    split
    · exact Condition.length_openingsOpt _ _ _
    · exact Nat.zero_le _

theorem Named.access_self (hnamed : catalog.Named) {a : Access} (ha : catalog.Knows a) :
    catalog.access a.model.name = .ok a := by
  obtain ⟨name, haccess⟩ := ha
  cases hm : catalog.models.model? name with
  | none => simp [access, hm] at haccess
  | some m =>
    simp only [access, hm] at haccess
    obtain rfl := Except.ok.inj haccess
    obtain rfl : m.name = name := hnamed name m hm
    simp only [access, hm]

/-- The rule on a model opens only subqueries that rules can open. -/
theorem Named.rule_openings (hnamed : catalog.Named) {a : Access} (ha : catalog.Knows a) :
    Condition.openingsOpt catalog a.rows? a false ⊆ catalog.openings := by
  have hself := hnamed.access_self ha
  cases hrows : a.rows? with
  | none => exact List.nil_subset _
  | some rule =>
    obtain ⟨permission, hpermission, hrule⟩ := Option.bind_eq_some_iff.1 hrows
    have hentry : Keyed.get? a.model.name catalog.permissions = some permission := by
      rw [access] at hself
      split at hself
      · obtain rfl := Except.ok.inj hself
        exact hpermission
      · cases hself
    intro o ho
    refine List.mem_flatMap.2 ⟨_, Keyed.mem_of_get? hentry, ?_⟩
    simp only [hself, hrule]
    exact ho

/-- That rows are not marked as deleted opens no subquery. -/
theorem enforced_openings {a : Access} {ignoreDeleted : Bool} {c : Condition}
    (hc : a.enforced? ignoreDeleted = some c) :
    c.openings catalog a false ⊆ Condition.openingsOpt catalog a.rows? a false := by
  have hflag : notDeleted.openings catalog a false = [] := by
    rw [notDeleted, Condition.openings]
  obtain rfl | hrule | ⟨rule, hrule, rfl⟩ := Access.enforced?_eq_some hc
  · rw [hflag]
    exact List.nil_subset _
  · rw [hrule, Condition.openingsOpt]
    exact fun _ => id
  · rw [hrule, Condition.openingsOpt, Condition.openings, Condition.openingsOf_eq]
    intro o hmem
    obtain ⟨c, hc, ho⟩ := List.mem_flatMap.1 hmem
    rcases List.mem_cons.1 hc with rfl | hc
    · rw [hflag] at ho
      exact absurd ho List.not_mem_nil
    · obtain rfl := List.mem_singleton.1 hc
      exact ho

end Catalog

namespace Request

variable {catalog : Catalog} {r : Request}

theorem length_demand_openings {d : Demand} (a : Access) (hd : d ∈ r.demands catalog.dialect) :
    (d.openings catalog a).length ≤ r.relatedCount := by
  have hlength : (d.openings catalog a).length ≤
      Condition.relatedCountOpt d.condition + Condition.relatedCountJoins d.joins := by
    rw [Demand.openings, List.length_append]
    exact Nat.add_le_add (Condition.length_openingsOpt _ _ _) (Condition.length_openingsJoins _ _)
  refine hlength.trans ?_
  cases r with
  | query | count | existence | aggregate =>
    obtain rfl := List.mem_singleton.1 hd
    exact le_rfl
  | deleteWhere => exact absurd hd List.not_mem_nil
  | recursive model q =>
    obtain rfl := List.mem_singleton.1 hd
    exact Nat.le_add_right _ _
  | recursiveCount model q =>
    rcases List.mem_cons.1 hd with rfl | hd
    · exact Nat.le_add_right _ _
    · obtain rfl := List.mem_singleton.1 hd
      exact Nat.le_add_right _ _
  | vectorSearch model q =>
    obtain ⟨query, hquery, rfl⟩ := List.mem_map.1 hd
    have hquery : q.toQuery catalog.dialect = .ok query := by
      cases h : q.toQuery catalog.dialect with
      | ok query' => simpa [h, Except.toOption, eq_comm] using hquery
      | error e => simp [h, Except.toOption] at hquery
    obtain ⟨_, -, hquery⟩ := except_bind_eq_ok.1 hquery
    obtain ⟨_, -, hquery⟩ := except_bind_eq_ok.1 hquery
    obtain rfl := Except.ok.inj hquery
    -- the bound on the distance is a condition without related rows
    show Condition.relatedCountOpt (Condition.both? q.condition _) + 0 ≤ _
    rw [relatedCount]
    cases q.condition <;> cases q.maxDistance <;>
      simp [Condition.both?, Condition.relatedCountOpt, Condition.relatedCount,
        Condition.relatedCountOf]

theorem length_openings : (r.openings catalog).length ≤ 2 * r.relatedCount := by
  have hdemands : (r.demands catalog.dialect).length ≤ 2 := by
    cases r with
    | vectorSearch model q =>
      rw [demands, List.length_map, Option.length_toList]
      split <;> omega
    | _ => simp [demands]
  have hsum : ∀ (a : Access) (ds : List Demand), ds ⊆ r.demands catalog.dialect →
      (ds.flatMap fun d => d.openings catalog a).length ≤ ds.length * r.relatedCount := by
    intro a ds hds
    induction ds with
    | nil => exact Nat.zero_le _
    | cons d ds ih =>
      have hd := length_demand_openings a (hds List.mem_cons_self)
      have hrest := ih fun d' hd' => hds (List.mem_cons_of_mem _ hd')
      rw [List.flatMap_cons, List.length_append, List.length_cons, Nat.succ_mul]
      omega
  rw [openings]
  split
  · exact (hsum _ _ fun _ => id).trans (Nat.mul_le_mul_right _ hdemands)
  · exact Nat.zero_le _

/-- There are fewer openings than the depth that is allowed for. -/
theorem length_allOpenings (catalog : Catalog) (r : Request) :
    (r.allOpenings catalog).length < r.depthBound catalog := by
  have hrequest : (r.openings catalog).length ≤ 2 * r.relatedCount := r.length_openings
  have hrules := catalog.length_openings
  rw [allOpenings, depthBound, List.length_append]
  omega

end Request

/-! ## Openings in scopes -/

/-- The subquery is opened over the relationship at a path of the scope. -/
def Opening.At (o : Opening) (s : Scope) (path : String) : Prop :=
  ∃ l, s.link path = .ok l ∧ l.parentModel = o.parent ∧ l.name = o.name ∧ l.relation = o.relation ∧
    s.checked = o.checked

/-- The condition is posed in the scope, and what it can open is among the given openings. -/
structure Scope.Posed (catalog : Catalog) (K : List Opening) (s : Scope) (c : Condition) : Prop where
  walked : s.tree.Walked catalog false
  has : s.tree.Has s.table
  openings : c.openings catalog s.table.access s.checked ⊆ K

/-- The openings hold those of all rules, and those of the joins of each of them. -/
structure Opening.Closed (catalog : Catalog) (K : List Opening) : Prop where
  rules : catalog.openings ⊆ K
  joins : ∀ o ∈ K, ∀ b, o.target catalog = .ok b → Condition.openingsJoins catalog o.joins b ⊆ K

variable {catalog : Catalog} {K : List Opening}

theorem Scope.Posed.part {s : Scope} {whole c : Condition} (h : s.Posed catalog K whole)
    (hc : whole.PartOf c) : s.Posed catalog K c :=
  ⟨h.walked, h.has, fun _ ho => h.openings (hc.openings_subset ho)⟩

theorem Scope.relationAt?_of_link {s : Scope} {path : String} {l : Link}
    (hw : s.tree.Walked catalog false) (ht : s.tree.Has s.table) (h : s.link path = .ok l) :
    catalog.relationAt? s.table.access path = some (l.parentModel, l.name, l.relation) := by
  obtain ⟨t, hops, name, f, r, -, hall, -, hwalk, hf, hk, rfl⟩ := Scope.link_eq_ok hw ht h
  have hfield : t.access.model.field? name = some f := (Access.field_eq_ok.1 hf).1
  simp [Catalog.relationAt?, hall, Catalog.walk?_unchecked hwalk, hfield, Field.relation?, hk]

/-- A subquery for a condition that is posed is one of the openings, and so are those inside it. -/
theorem Scope.Posed.related {s : Scope} {path : String} {inner : Option Condition}
    {joins : List Join} {negated : Bool} {l : Link} {b : Access}
    (h : s.Posed catalog K (.related path inner joins negated)) (hl : s.link path = .ok l)
    (hb : catalog.target l.parentModel l.name l.relation = .ok b) :
    ∃ o ∈ K, o.At s path ∧ o.joins = joins ∧ o.inner = inner ∧ o.target catalog = .ok b ∧
      Condition.openingsOpt catalog inner b s.checked ⊆ K := by
  have hrelation := Scope.relationAt?_of_link h.walked h.has hl
  have hopenings := h.openings
  rw [Condition.openings_related hrelation hb] at hopenings
  obtain ⟨hself, hinside⟩ := List.cons_subset.1 hopenings
  exact ⟨_, hself, ⟨l, hl, rfl, rfl, rfl, rfl⟩, rfl, rfl, hb, (List.append_subset.1 hinside).1⟩

/-- What is posed on the tables of a tree opens what its joins, its condition and rules open. -/
theorem JoinTree.Made.known {tree : JoinTree} {a : Access} {joins : List Join} {n n' : Nat}
    {asked : Option Condition} {checked minded : Bool}
    (hmade : JoinTree.Made catalog checked a joins n tree n')
    (hrules : ∀ t ∈ tree.tables, Condition.openingsOpt catalog t.access.rows? t.access false ⊆ K)
    (hjoins : Condition.openingsJoins catalog joins a ⊆ K)
    (hasked : Condition.openingsOpt catalog asked a minded ⊆ K) :
    tree.Known (Scope.Posed catalog K) asked minded := by
  have hw := hmade.walked
  have haccess := hmade.access_eq
  intro t checked' c hposes
  cases hposes with
  | asked hc =>
    refine ⟨hw, .root, ?_⟩
    rw [hc, Condition.openingsOpt, ← haccess] at hasked
    exact hasked
  | @joined j _ hj hc =>
    refine ⟨hw, .of_mem hj, fun o ho => hjoins ?_⟩
    obtain ⟨join, hjoin, hcondition, hpath⟩ := hmade.settled.conditions j hj c hc
    have hwalk := hw j.toTable (.of_mem hj)
    rw [haccess, hpath] at hwalk
    exact Condition.openingsJoins_subset hjoin hcondition hwalk ho
  | enforced ht hc =>
    exact ⟨hw, List.mem_map_of_mem ht, fun o ho =>
      hrules t ht (Catalog.enforced_openings hc ho)⟩

/-- The tables of a tree are of models that the catalog knows. -/
theorem JoinTree.Made.knows {tree : JoinTree} {a : Access} {joins : List Join} {n n' : Nat}
    {checked : Bool} (hmade : JoinTree.Made catalog checked a joins n tree n')
    (ha : catalog.Knows a) {t : Table} (ht : t ∈ tree.tables) : catalog.Knows t.access :=
  Catalog.Knows.walk? (hmade.access_eq ▸ ha) (hmade.walked t (List.mem_map_of_mem ht))

/-- The inner condition of a condition that is posed is posed in the subquery. -/
theorem Scope.Posed.inside {s : Scope} {path : String} {inner : Option Condition}
    {joins : List Join} {negated : Bool} {paths : List String} {opened : Scope}
    (h : s.Posed catalog K (.related path inner joins negated))
    (htree : s.Makes catalog path joins paths opened.tree) (htable : opened.table = opened.tree.root)
    (hchecked : opened.checked = s.checked) {c : Condition} (hc : c ∈ inner) :
    opened.Posed catalog K c := by
  obtain ⟨l, b, p, p', hl, hb, hrun⟩ := htree
  obtain ⟨_, _, _, _, _, _, hinner⟩ := h.related hl hb
  have hmade := JoinTree.ofSubquery_made hrun
  refine ⟨hmade.walked, htable ▸ .root, ?_⟩
  rw [Option.mem_def.1 hc, Condition.openingsOpt] at hinner
  rw [htable, hmade.access_eq, hchecked]
  exact hinner

/-- What is posed on the tables of an opened subquery opens further ones of the openings. -/
theorem Opening.Closed.known (h : Opening.Closed catalog K) (hnamed : catalog.Named) {o : Opening}
    (ho : o ∈ K) {s : Scope} {path : String} (hat : o.At s path) {paths : List String}
    {tree : JoinTree} (htree : s.Makes catalog path o.joins paths tree) :
    tree.Known (Scope.Posed catalog K) none s.checked := by
  obtain ⟨l, hl, hparent, hname, hrelation, -⟩ := hat
  obtain ⟨l', b, p, p', hl', hb, hrun⟩ := htree
  obtain rfl := Except.ok.inj (hl.symm.trans hl')
  have htarget : o.target catalog = .ok b := by
    rw [Opening.target, ← hparent, ← hname, ← hrelation]
    exact hb
  have hmade := JoinTree.ofSubquery_made hrun
  refine hmade.known (fun t ht => ?_) (h.joins o ho b htarget) ?_
  · have hknows := hmade.knows (Catalog.knows_of_target hb) ht
    exact fun _ ho => h.rules (hnamed.rule_openings hknows ho)
  · rw [Condition.openingsOpt]
    exact List.nil_subset _

namespace Request

variable {r : Request}

theorem closed_allOpenings (catalog : Catalog) (r : Request) :
    Opening.Closed catalog (r.allOpenings catalog) := by
  refine ⟨List.subset_append_right _ _, fun o ho b hb => ?_⟩
  rcases List.mem_append.1 ho with ho | ho
  · refine fun o' ho' => List.mem_append_left _ ?_
    rw [openings] at ho ⊢
    split at ho
    · obtain ⟨d, hd, ho⟩ := List.mem_flatMap.1 ho
      refine List.mem_flatMap.2 ⟨d, hd, ?_⟩
      rcases List.mem_append.1 ho with ho | ho
      · exact List.mem_append_left _ (Condition.joins_subset_openingsOpt _ ho hb ho')
      · exact List.mem_append_right _ (Condition.joins_subset_openingsJoins _ ho hb ho')
    · exact absurd ho List.not_mem_nil
  · refine fun o' ho' => List.mem_append_right _ ?_
    obtain ⟨e, he, ho⟩ := List.mem_flatMap.1 ho
    refine List.mem_flatMap.2 ⟨e, he, ?_⟩
    split at ho
    · exact Condition.joins_subset_openingsOpt _ ho hb ho'
    · exact absurd ho List.not_mem_nil

/-- What is posed on the tables of a request opens subqueries of the request or of rules. -/
theorem demand_known (hnamed : catalog.Named) {d : Demand} (hd : d ∈ r.demands catalog.dialect) :
    d.Known catalog (Scope.Posed catalog (r.allOpenings catalog)) r.model := by
  intro tree p p' hrun
  obtain ⟨a, haccess, hmade⟩ := JoinTree.ofDemand_made hrun
  have hopens : d.openings catalog a ⊆ r.allOpenings catalog := by
    refine fun o ho => List.mem_append_left _ ?_
    rw [openings, haccess]
    exact List.mem_flatMap_of_mem hd ho
  obtain ⟨hcondition, hjoins⟩ := List.append_subset.1 hopens
  refine hmade.known (fun t ht o ho => ?_) hjoins hcondition
  exact List.mem_append_right _ (hnamed.rule_openings (hmade.knows ⟨_, haccess⟩ ht) ho)

end Request
end QueryCompiler
