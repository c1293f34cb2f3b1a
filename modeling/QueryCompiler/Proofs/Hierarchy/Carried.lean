import QueryCompiler.Proofs.Hierarchy.Heads
import QueryCompiler.Proofs.Enforcement.Rendering

/-!
# What a growing table carries

The columns of a growing table, by the reasons for which it carries them: a column of the key or of the
link to parents, a permitted field that the query asks for, and a field by which a row that is asked for
is tied to a row of the table.
-/

namespace QueryCompiler

/-- The fields of a model are named alike inside and outside, and no group bears the name of a field of
the key. -/
structure Model.Regular (m : Model) : Prop where
  named : ∀ f ∈ m.fields, ∀ b, f.kind = .basic b → b.name = f.name
  keyed : ∀ f ∈ m.fields, ∀ g, f.kind = .group g → m.isKey f.name = false

instance (m : Model) : Decidable m.Regular :=
  decidable_of_iff ((∀ f ∈ m.fields, ∀ b ∈ f.basic?, b.name = f.name) ∧
      ∀ f ∈ m.fields, f.group?.isSome = true → m.isKey f.name = false) <| by
    have hbasic : ∀ f : Field, ∀ b, b ∈ f.basic? ↔ f.kind = .basic b := by
      intro f b
      rw [Field.basic?, Option.mem_def]
      cases f.kind <;> simp
    have hgroup : ∀ f : Field, f.group?.isSome = true ↔ ∃ g, f.kind = .group g := by
      intro f
      rw [Field.group?]
      cases f.kind <;> simp
    simp only [hbasic, hgroup]
    exact ⟨fun h => ⟨h.1, fun f hf g hg => h.2 f hf ⟨g, hg⟩⟩,
      fun h => ⟨h.named, fun f hf ⟨g, hg⟩ => h.keyed f hf g hg⟩⟩

namespace Model

variable {m : Model} {name : String}

theorem basicFields_eq_ok {names : List String} {bs : List BasicField} :
    m.basicFields names = .ok bs ↔
      List.Forall₂ (fun name b => m.basicField? name = some b) names bs := by
  rw [basicFields, except_mapM_eq_ok]
  refine iff_of_eq (congrArg (fun R => List.Forall₂ R names bs) (funext₂ fun name b => propext ?_))
  cases m.basicField? name <;> simp

/-- A field that is one column, looked up by its name. -/
theorem Regular.name_of_basicField? {b : BasicField} (h : m.Regular)
    (hb : m.basicField? name = some b) :
    ∃ f ∈ m.fields, f.name = name ∧ f.kind = .basic b ∧ b.name = name := by
  obtain ⟨f, hf, hk⟩ := basicField?_eq_some hb
  obtain ⟨hmem, hname⟩ := mem_of_field? hf
  exact ⟨f, hmem, hname, hk, (h.named f hmem b hk).trans hname⟩

end Model

namespace Query

variable {access : Access} {keys parents : List BasicField} {q : Query} {f : Field} {b : BasicField}
  {name path : String}

theorem carries_wanted (hf : f ∈ access.model.fields) (hk : f.kind = .basic b) (hwants : q.Wants f.name)
    (hpermits : access.permits f.name = true) :
    b.column ∈ hierarchyColumns access keys parents q.heads? := by
  refine List.mem_flatMap.2 ⟨f, hf, ?_⟩
  simp only [hk]
  rw [if_pos]
  · exact List.mem_singleton_self _
  · exact Bool.or_eq_true_iff.2 (.inr (Bool.and_eq_true_iff.2 ⟨hwants, hpermits⟩))

theorem carries_member {g : GroupField} (hf : f ∈ access.model.fields) (hk : f.kind = .group g)
    (hb : b ∈ g.fields) (hwants : q.Wants f.name) (hpermits : access.permits f.name = true) :
    b.column ∈ hierarchyColumns access keys parents q.heads? := by
  refine List.mem_flatMap.2 ⟨f, hf, ?_⟩
  simp only [hk]
  rw [if_pos]
  · exact List.mem_map_of_mem hb
  · exact Bool.and_eq_true_iff.2 ⟨hwants, hpermits⟩

theorem carries_tie (hf : f ∈ access.model.fields) (hk : f.kind = .basic b) {tie : BasicField}
    (htie : tie ∈ keys ++ parents) (hname : tie.name = f.name) :
    b.column ∈ hierarchyColumns access keys parents q.heads? := by
  refine List.mem_flatMap.2 ⟨f, hf, ?_⟩
  simp only [hk]
  rw [if_pos]
  · exact List.mem_singleton_self _
  · refine Bool.or_eq_true_iff.2 (.inl (Bool.or_eq_true_iff.2 (.inl ?_)))
    exact List.any_eq_true.2 ⟨tie, htie, beq_iff_eq.2 hname⟩

theorem carries_on {r : Relation} (hf : f ∈ access.model.fields) (hk : f.kind = .relation r)
    (hone : r.cardinality = .one) (hwants : q.Wants f.name) (hname : name ∈ r.on)
    (hb : access.model.basicField? name = some b) :
    b.column ∈ hierarchyColumns access keys parents q.heads? := by
  obtain ⟨f', hfield, hk'⟩ := Model.basicField?_eq_some hb
  obtain ⟨hf', hname'⟩ := Model.mem_of_field? hfield
  refine List.mem_flatMap.2 ⟨f', hf', ?_⟩
  simp only [hk']
  rw [if_pos]
  · exact List.mem_singleton_self _
  · refine Bool.or_eq_true_iff.2 (.inl (Bool.or_eq_true_iff.2 (.inr ?_)))
    refine List.any_eq_true.2 ⟨f, hf, Bool.and_eq_true_iff.2 ⟨hwants, ?_⟩⟩
    rw [Field.relation?, hk]
    exact Bool.and_eq_true_iff.2 ⟨beq_iff_eq.2 hone, List.contains_iff_mem.2 (hname' ▸ hname)⟩

/-- The columns of the key and of the link to parents are carried. -/
theorem carries_ties (hregular : access.model.Regular) (hkeys : access.model.keyFields = .ok keys)
    (hparents : access.model.parentFields = .ok parents) :
    ∀ b ∈ keys ++ parents, b.column ∈ hierarchyColumns access keys parents q.heads? := by
  intro b hb
  have hfield : ∃ name, access.model.basicField? name = some b := by
    have hof : ∀ {names : List String} {bs : List BasicField}, access.model.basicFields names = .ok bs →
        b ∈ bs → ∃ name, access.model.basicField? name = some b := by
      intro names bs h hb
      obtain ⟨name, -, h⟩ := forall₂_mem_right (Model.basicFields_eq_ok.1 h) hb
      exact ⟨name, h⟩
    rcases List.mem_append.1 hb with hb | hb
    · exact hof hkeys hb
    · rw [Model.parentFields] at hparents
      split at hparents
      · exact hof hparents hb
      · split at hparents
        · exact hof hparents hb
        · exact absurd hparents nofun
  obtain ⟨name, hname⟩ := hfield
  obtain ⟨f, hf, hfname, hk, hbname⟩ := hregular.name_of_basicField? hname
  exact carries_tie hf hk hb (hbname.trans hfname.symm)

/-- A field of the key is carried, whatever the query asks for. -/
theorem carries_key (hregular : access.model.Regular) (hkeys : access.model.keyFields = .ok keys)
    (hf : f ∈ access.model.fields) (hk : f.kind = .basic b) (hkey : access.model.isKey f.name = true) :
    b.column ∈ hierarchyColumns access keys parents q.heads? := by
  obtain ⟨tie, htie, heq⟩ := forall₂_mem_right (Model.basicFields_eq_ok.1 hkeys).flip
    (List.contains_iff_mem.1 hkey)
  obtain ⟨-, -, -, -, hname⟩ := hregular.name_of_basicField? heq
  exact carries_tie hf hk (List.mem_append_left _ htie) hname

/-- What the caller names of the table by itself is carried, if it begins a path of the query. -/
theorem carries_shown (hwants : q.Wants (Path.head path)) (hshows : access.Shows true (Path.all path) b) :
    b.column ∈ hierarchyColumns access keys parents q.heads? := by
  generalize hall : Path.all path = segments at hshows
  cases hshows with
  | @field name f _ hf hk =>
    obtain ⟨hname, hmem⟩ := Access.name_of_field hf
    rw [Path.head_of_all hall, ← hname] at hwants
    exact carries_wanted hmem hk hwants (hname ▸ (Access.field_eq_ok.1 hf).2 rfl)
  | @member name next f g _ hf hk hb =>
    obtain ⟨hname, hmem⟩ := Access.name_of_field hf
    rw [Path.head_of_all hall, ← hname] at hwants
    exact carries_member hmem hk (List.mem_of_find?_eq_some hb) hwants
      (hname ▸ (Access.field_eq_ok.1 hf).2 rfl)

/-- A row of the table is tied to the rows of a relationship by columns that are carried, if the query
asks for the relationship or it is one to many rows. -/
theorem carries_parent {l : Link} (hregular : access.model.Regular)
    (hkeys : access.model.keyFields = .ok keys) (hf : access.model.field? l.name = some f)
    (hk : f.kind = .relation l.relation) (hmodel : l.parentModel = access.model)
    (hname : name ∈ l.parentNames) (hb : access.model.basicField? name = some b)
    (hwants : l.relation.cardinality = .one → q.Wants l.name) :
    b.column ∈ hierarchyColumns access keys parents q.heads? := by
  obtain ⟨hmem, hfname⟩ := Model.mem_of_field? hf
  rw [Link.parentNames] at hname
  cases hcard : l.relation.cardinality with
  | one =>
    simp only [hcard] at hname
    exact carries_on hmem hk hcard (hfname ▸ hwants hcard) hname hb
  | many =>
    simp only [hcard, hmodel] at hname
    obtain ⟨f', hf', hfname', hk', -⟩ := hregular.name_of_basicField? hb
    exact carries_key hregular hkeys hf' hk' (hfname' ▸ List.contains_iff_mem.2 hname)

end Query
end QueryCompiler
