import ResponseModels.Proofs.Collect.Merging
import ResponseModels.Proofs.FieldTree
import ResponseModels.Proofs.Model.Downcast
import ResponseModels.Proofs.Model.Spot

/-!
# The object types of models

Models get their object types from the shapes of a field alone: a primary model those of all shapes
that are as narrow as its own, joined, and an `Other` model those that no narrower shape has. The
schema is not asked again. That this comes to the same is not to be seen from the shapes one by one,
since a shape has only the object types with just its conditions, and a shape that is only declared
has none.

What a shape covers is what the schema says of its conditions (`Shaped.coverageAgrees`), because
every object type of the field belongs to some shape and all conditions that were entered were known
when the shapes were made. So a primary model is for the object types that satisfy all its
conditions, and an `Other` model for those that satisfy these and no others
(`Spot.Sound.modelsCover`). As a group of models is for a field with something selected beneath it,
this is said of spots, from the root of a tree down (`Spot.Beneath`).
-/

set_option autoImplicit false

namespace ResponseModels

/-! ## Statements -/

/-- What the shapes of a field cover from a type set on is what the schema says: the object types of
the field that satisfy every condition of the type set. -/
structure Field.CoverageAgrees (schema : Schema) (f : Field) (typeSet : NameSet) : Prop where
  /-- What the schema gives for the type set is what the shapes cover. -/
  typesSatisfying :
    schema.typesSatisfying f.info.rawType typeSet = .ok (coveredTypes typeSet f.shapes)
  /-- These are the object types that satisfy the conditions. -/
  mem_iff : ∀ t, t ∈ coveredTypes typeSet f.shapes ↔
    schema.satisfies t f.info.rawType = true ∧ ∀ c ∈ typeSet, schema.satisfies t c = true

namespace Spot

/-- A spot is in the tree of another. -/
inductive Beneath (schema : Schema) (d : Document) (root : Spot) : Spot → Prop
  | here : Beneath schema d root root
  | down {spot inner : Spot} {m : Model} {name : Name} (outer : Beneath schema d root spot)
      (model : m ∈ spot.group.models) (down : spot.Down schema d m name inner) :
      Beneath schema d root inner

/-- Objects of type `t` satisfy a type set and nothing more: it is the type of the field and all
type conditions that are entered beneath it, do not hold for all objects of the field, and hold for
these. -/
def SatisfiesJust (schema : Schema) (d : Document) (spot : Spot) (t : Name) (typeSet : NameSet) :
    Prop :=
  ∀ c, c ∈ typeSet ↔ c = spot.field.info.rawType ∨ Entered d spot.selected c ∧
    (¬ ∀ u, schema.satisfies u spot.field.info.rawType = true → schema.satisfies u c = true) ∧
    schema.satisfies t c = true

/-- The models of a spot are for the object types that they should be for. -/
structure ModelsCover (schema : Schema) (d : Document) (spot : Spot) : Prop where
  /-- Every shape has a primary model, whether it has object types of its own or not. -/
  exists_primary : ∀ s ∈ spot.field.fieldSets, ∃ m, spot.group.IsPrimary s.typeSet m
  /-- Every model has the type set of a shape. -/
  shape : ∀ m ∈ spot.group.models, ∃ s ∈ spot.field.fieldSets, s.typeSet = m.typeSet
  /-- A primary model is for the object types that satisfy its type set. -/
  primary : ∀ m ∈ spot.group.models, ¬ spot.group.IsOther m →
    schema.typesSatisfying spot.field.info.rawType m.typeSet = .ok m.possibleTypes
  /-- An `Other` model is for those that satisfy just this type set. -/
  other : ∀ m ∈ spot.group.models, spot.group.IsOther m → ∀ t, t ∈ m.possibleTypes ↔
    schema.satisfies t spot.field.info.rawType = true ∧ spot.SatisfiesJust schema d t m.typeSet
  /-- All groups of properties are beneath the spot. -/
  down : ∀ m ∈ spot.group.models, ∀ p ∈ m.properties, ∀ g, p.group = some g →
    ∃ inner, spot.Down schema d m p.info.responseName inner ∧ inner.group = g

end Spot

/-! ## One field -/

/-- **What shapes cover is what the schema says**, if the schema knows the conditions they are made
of. -/
theorem Shaped.coverageAgrees {schema : Schema} {typeConditions : List Name} {fieldTypes : NameSet}
    {f : Field} (h : Shaped schema f.info.rawType typeConditions fieldTypes f.shapes)
    (hknown : ∀ c, c = f.info.rawType ∨ c ∈ typeConditions → ∃ types, schema.possibleTypes c =
      .ok types) {s : FieldSet} (hs : s ∈ f.fieldSets) : f.CoverageAgrees schema s.typeSet := by
  have hmade := h.made _ (List.mem_map_of_mem hs)
  have hcovered : ∀ t, t ∈ coveredTypes s.typeSet f.shapes ↔ t ∈ fieldTypes ∧
      ∀ c ∈ s.typeSet, schema.satisfies t c = true :=
    fun t ↦
      h.mem_covered.trans (and_congr_right fun ht ↦
        Schema.subset_typeSetOf_iff hmade (h.satisfies_rawType ht))
  constructor
  · obtain ⟨types, htypes⟩ := Schema.exists_typesSatisfying ⟨_, h.fieldTypes_eq⟩ fun c hc ↦
      hknown c (hmade c hc)
    rw [htypes]
    refine congrArg _ (NameSet.ext fun t ↦ ?_)
    rw [hcovered, Schema.mem_typesSatisfying h.fieldTypes_eq htypes]
  · intro t
    rw [hcovered, Schema.satisfies_iff h.fieldTypes_eq]

theorem Declaration.Unfolds.coverageAgrees {schema : Schema} {d : Document}
    {policy : TypenamePolicy} {field : Declaration} {f : Field} {survey : Survey}
    (h : field.Unfolds schema d policy f survey) (hinfo : f.info = field.info) {s : FieldSet}
    (hs : s ∈ f.fieldSets) : f.CoverageAgrees schema s.typeSet := by
  have hshaped := h.shaped
  rw [← hinfo] at hshaped
  refine hshaped.coverageAgrees (fun c hc ↦ ?_) hs
  exact Survey.exists_possibleTypes h.survey_eq (hinfo ▸ hc)

theorem Representation.HasField.expanded {schema : Schema} {d : Document} {config : Config}
    {ir : Representation} (h : build schema config d = .ok ir) {f : Field} (hf : ir.HasField f) :
    f.Expanded schema d config.typename :=
  HasField.induction (P := fun f ↦ f.Expanded schema d config.typename) .of_expandRoot
    (fun hexpanded hs hk ↦ hexpanded.of_mem hs hk) h hf

/-! ## One group -/

namespace Spot

variable {schema : Schema} {d : Document} {policy : TypenamePolicy}
  {ir : Representation} {spot : Spot}

/-- The type set of an object type, said in terms of the selections. -/
theorem Grown.satisfiesJust_iff {field : Declaration} {survey : Survey}
    (h : spot.Grown schema d policy ir field survey) {t : Name} {typeSet : NameSet} :
    spot.SatisfiesJust schema d t typeSet ↔
      schema.typeSetOf spot.field.info.rawType survey.typeConditions t = typeSet := by
  have hselected : (· ∈ field.children.map Child.selection) = spot.selected :=
    funext fun x ↦ propext (h.mem_iff x)
  have hentered : ∀ c, c ∈ survey.typeConditions ↔ Entered d spot.selected c ∧
      ¬ ∀ u, schema.satisfies u spot.field.info.rawType = true → schema.satisfies u c = true := by
    intro c
    rw [Survey.mem_typeConditions_iff h.unfolds.survey_eq, hselected,
      Schema.covers_iff_forall h.shaped.fieldTypes_eq]
  simp only [SatisfiesJust, ← and_assoc, ← hentered, ← Schema.mem_typeSetOf]
  exact ⟨fun hall ↦ NameSet.ext fun c ↦ (hall c).symm, fun heq c ↦ by rw [heq]⟩

/-- **The models of a group are for the object types that they should be for.** -/
theorem Sound.modelsCover (h : spot.Sound schema d policy ir) : spot.ModelsCover schema d := by
  obtain ⟨field, survey, hgrown⟩ := h.exists_grown
  obtain ⟨site, inherited, hplaced⟩ := hgrown.placed
  refine ⟨fun s hs ↦ hplaced.exists_isPrimary hs, fun m hm ↦ ?_, fun m hm hprimary ↦ ?_,
    fun m hm hother t ↦ ?_, fun m hm p hp g hg ↦ hplaced.exists_down hm hp hg⟩
  · obtain ⟨s, hs, hset, -⟩ := hplaced.exists_shape hm
    exact ⟨s, hs, hset⟩
  · obtain ⟨_, _, _, b, -, rfl, hplan, hkeeps, -, -⟩ := hplaced.exists_follows hm
    rw [hplaced.isOther_iff hplan hkeeps] at hprimary
    rw [hkeeps.typeSet, hkeeps.possibleTypes]
    cases Field.kind_of_mem_plan hplan with
    | other hother => exact absurd hother hprimary
    | primary _ _ htypes =>
      rw [htypes]
      exact (hgrown.unfolds.coverageAgrees hgrown.info
        (Field.fieldSet_mem_of_mem_plan hplan)).typesSatisfying
  · obtain ⟨_, _, _, b, -, rfl, hplan, hkeeps, -, -⟩ := hplaced.exists_follows hm
    rw [hplaced.isOther_iff hplan hkeeps] at hother
    rw [hkeeps.typeSet, hkeeps.possibleTypes, hgrown.satisfiesJust_iff,
      Schema.satisfies_iff hgrown.shaped.fieldTypes_eq]
    cases Field.kind_of_mem_plan hplan with
    | primary hprimary => exact absurd (hother.symm.trans hprimary) (by decide)
    | other _ _ htypes =>
      rw [htypes]
      exact hgrown.shaped.mem_ownTypes

theorem Sound.beneath {root : Spot} (h : root.Sound schema d policy ir)
    (hbeneath : root.Beneath schema d spot) :
    spot.Sound schema d policy ir := by
  induction hbeneath with
  | here => exact h
  | down _ model down ih => exact ih.down model down

end Spot

/-! ## The whole representation -/

/-- **Models are for the object types that the schema says.** In the result of a build, what the
shapes of a field cover, from any of them on, are the object types of the field that satisfy the
conditions of the shape, as they are computed from the schema. A model is for just these, unless it
is an `Other` model: it is for the object types that satisfy the conditions of its shape and nothing
more. -/
theorem possibleTypes_agree_with_schema {schema : Schema} {config : Config} {d : Document}
    {ir : Representation} (h : build schema config d = .ok ir) :
    (∀ f, ir.HasField f → ∀ s ∈ f.fieldSets, f.CoverageAgrees schema s.typeSet) ∧
    (∀ o ∈ ir.operations, ∃ op ∈ d.operations, op.name = some o.name ∧
      ∀ spot, Spot.Beneath schema d ⟨o.field, (· ∈ op.selections), o.group⟩ spot →
      spot.ModelsCover schema d) ∧
    ∀ r ∈ ir.fragments, ∃ fragment, d.fragment? r.name = some fragment ∧
      ∀ g, g = r.interface ∨ r.implementation = some g →
        ∀ spot, Spot.Beneath schema d ⟨r.field, (· ∈ fragment.selections), g⟩ spot →
        spot.ModelsCover schema d := by
  refine ⟨fun f hf s hs ↦ ?_, fun o ho ↦ ?_, fun r hr ↦ ?_⟩
  · obtain ⟨field, survey, hinfo, hunfolds⟩ := (hf.expanded h).exists_unfolds hs
    exact hunfolds.coverageAgrees hinfo hs
  · obtain ⟨op, hop, hname, hsound⟩ := Representation.exists_operation_sound h ho
    exact ⟨op, hop, hname, fun spot hspot ↦ (hsound.beneath hspot).modelsCover⟩
  · obtain ⟨fragment, hfragment, hsound⟩ := Representation.exists_fragment_sound h hr
    exact ⟨fragment, hfragment, fun g hg spot hspot ↦ ((hsound g hg).beneath hspot).modelsCover⟩

open Sample in
/-- No animal is a pet but neither a dog nor a cat, so the shape of pets has no object types of its
own. It has a model for dogs and cats all the same. What is left of animals are foxes. -/
theorem possibleTypes_agree_with_schema_pets :
    ∃ ir, build schema {} kinds = .ok ir ∧ ∃ o ∈ ir.operations, ∃ op ∈ kinds.operations, ∃ spot,
      Spot.Beneath schema kinds ⟨o.field, (· ∈ op.selections), o.group⟩ spot ∧
      (∃ s ∈ spot.field.fieldSets, s.typeSet = .ofList ["Animal", "Pet"] ∧ s.possibleTypes = ∅ ∧
        spot.field.CoverageAgrees schema s.typeSet) ∧
      (∃ m ∈ spot.group.models, ¬ spot.group.IsOther m ∧ m.typeSet = .ofList ["Animal", "Pet"] ∧
        m.possibleTypes = .ofList ["Cat", "Dog"] ∧
        schema.typesSatisfying spot.field.info.rawType m.typeSet = .ok m.possibleTypes) ∧
      ∃ m ∈ spot.group.models, spot.group.IsOther m ∧ m.possibleTypes = {"Fox"} ∧
        spot.SatisfiesJust schema kinds "Fox" m.typeSet := by
  obtain ⟨ir, hir, hcheck⟩ := Error.exists_of_any (x := build schema {} kinds)
    (p := fun ir ↦ ir.operations.any fun o ↦
      o.group.models.any fun n ↦ n.properties.any fun p ↦ p.group.any fun g ↦
      o.field.fieldSets.any fun s₀ ↦ s₀.typeSet = n.typeSet && s₀.fields.any fun f ↦
        f.responseName = p.info.responseName &&
        (f.fieldSets.any fun s ↦ s.typeSet = .ofList ["Animal", "Pet"] && s.possibleTypes = ∅) &&
        (g.models.any fun m ↦ m.isInterface = true && (m.typeSet = .ofList ["Animal", "Pet"] &&
          m.possibleTypes = .ofList ["Cat", "Dog"])) &&
        g.models.any fun m ↦ m.possibleTypes = {"Fox"} && (m.isInterface = false &&
          g.models.any fun m' ↦ m'.typeSet = m.typeSet && m'.isInterface = true))
    (by decide +kernel)
  simp only [List.any_eq_true, Option.any_eq_true, Bool.and_eq_true, decide_eq_true_eq] at hcheck
  obtain ⟨o, ho, n, hn, p, hp, g, hg, s₀, hs₀, hset, f, hf,
    ⟨⟨hname, s, hs, hpets⟩, m, hm, hinterface, htypes⟩, m', hm', hfox, hother⟩ := hcheck
  obtain ⟨hfields, hoperations, -⟩ := possibleTypes_agree_with_schema hir
  obtain ⟨op, hop, -, hspots⟩ := hoperations o ho
  have hbeneath : Spot.Beneath schema kinds ⟨o.field, (· ∈ op.selections), o.group⟩ ⟨f, _, g⟩ :=
    .down .here hn ⟨⟨p, hp, rfl, hg⟩, ⟨s₀, hs₀, hset, hf⟩, hname, rfl⟩
  have hcover := hspots _ hbeneath
  have hprimary : ¬ g.IsOther m := fun hother ↦ absurd (hother.1.symm.trans hinterface) (by decide)
  refine ⟨ir, hir, o, ho, op, hop, _, hbeneath, ⟨s, hs, hpets.1, hpets.2, hfields f ?_ s hs⟩,
    ⟨m, hm, hprimary, htypes.1, htypes.2, hcover.primary m hm hprimary⟩, m', hm', hother, hfox, ?_⟩
  · exact .operation ho (.step .here hs₀ hf)
  · exact ((hcover.other m' hm' hother "Fox").mp (hfox ▸ NameSet.mem_singleton.mpr rfl)).2

end ResponseModels
