import ResponseModels.Model.Plan

/-!
# Building the models of a field

`Field.modelGroup` builds the group of a composite field as planned, model by model. A model

* implements the primary models of the next wider shapes, then those models of the interface groups
  of the fragments spread on its shape that fit it best, then those of the groups it inherits from
  (`supers`); an `Other` model implements only the interface of its own shape;
* has a property for each field of its shape, which overrides those of the models it implements, and
  whose group inherits from theirs;
* has accessors to the fragments spread on the field, if it is the base model, and to all narrower
  shapes, if it is an interface.

The interface groups of fragments are looked up through a function, which is all that a group needs
to know of the rest of the document.
-/

set_option autoImplicit false

namespace ResponseModels

/-- The interface models of a group that cover object types and are not implied by others: those
with the fewest possible types, and of these those of the narrowest shapes. -/
def ModelGroup.mostSpecific (g : ModelGroup) (types : NameSet) : List Model :=
  let candidates := g.models.filter fun m ↦ m.isInterface && types ⊆ m.possibleTypes
  let smallest := extremes .smallest (candidates.map Model.possibleTypes)
  let closest := candidates.filter fun m ↦ m.possibleTypes ∈ smallest
  let narrowest := extremes .largest (closest.map Model.typeSet)
  closest.filter fun m ↦ m.typeSet ∈ narrowest

/-- A model beside the plan it was built from. -/
structure BuiltModel where
  /-- The plan. -/
  planned : PlannedModel
  /-- The model. -/
  model : Model

/-- The planned primary model of a type set. -/
def primaryPlanned (plan : List PlannedModel) (typeSet : NameSet) : Except Error PlannedModel :=
  match plan.find? fun p ↦ p.isPrimaryOf typeSet with
  | some p => .ok p
  | none => .error (.internal s!"No model planned for shape {typeSet.text}")

/-- The primary model of a type set, among those built already. -/
def primaryBuilt (built : List BuiltModel) (typeSet : NameSet) : Except Error Model :=
  match built.find? fun b ↦ b.planned.isPrimaryOf typeSet with
  | some b => .ok b.model
  | none => .error (.internal s!"The model of shape {typeSet.text} is used before it is built")

/-- The type sets of the next wider shapes of a field. -/
def Field.nextWider (f : Field) (typeSet : NameSet) : List NameSet :=
  extremes .largest ((f.fieldSets.map FieldSet.typeSet).filter fun s ↦ s ⊂ typeSet)

/-- The models that a planned model implements, each once. -/
def supers (interfaces : Name → Except Error ModelGroup) (f : Field) (inherited : List ModelGroup)
    (built : List BuiltModel) (p : PlannedModel) : Except Error (List Model) :=
  if p.isOther then do
    return [← primaryBuilt built p.typeSet]
  else do
    let wider ← (f.nextWider p.typeSet).mapM (primaryBuilt built)
    let spread ← p.fieldSet.fragments.mapM interfaces
    let matching := (spread ++ inherited).flatMap fun g ↦ g.mostSpecific p.possibleTypes
    return (wider ++ matching).eraseDupsBy fun m n ↦ m.id = n.id

/-- The accessors of a planned model. -/
def accessors (interfaces : Name → Except Error ModelGroup) (f : Field) (site : Site)
    (plan : List PlannedModel) (p : PlannedModel) : Except Error (List Accessor) := do
  let fragments ← (if p.isBase then f.fragments else []).mapM fun name ↦ do
    return Accessor.fragment name (← interfaces name).baseId
  let subtypes ← (if p.isInterface then f.narrower p.typeSet else []).mapM fun s ↦ do
    return Accessor.subtype s.typeSet (site.id (← primaryPlanned plan s.typeSet).name)
  return fragments ++ subtypes

/-- Where the group of a property stands. -/
def Site.beneath (site : Site) (p : PlannedModel) (f : Field) : Site where
  root := site.root
  path := (site.id p.name).path ++ [f.responseName]
  baseName := baseModelName f.responseName f.info.type.isList
  interfacesOnly := p.isInterface

/-- The properties of a response name that models have. -/
def inheritedProperties (supers : List Model) (responseName : Name) : List Property :=
  supers.filterMap fun m ↦ m.property? responseName

/-- The property for a field, given how its group is built from the groups it inherits from. -/
def property (supers : List Model) (g : Field)
    (group : List ModelGroup → Except Error ModelGroup) : Except Error Property := do
  let overridden := inheritedProperties supers g.responseName
  let group ← if g.fieldSets.isEmpty then pure none
    else some <$> group (overridden.filterMap Property.group)
  return ⟨g.info, g.condition, !overridden.isEmpty, group⟩

/-- A planned model with all that belongs to it. -/
def PlannedModel.model (p : PlannedModel) (site : Site) (supers : List Model)
    (properties : List Property) (accessors : List Accessor) : Model where
  id := site.id p.name
  name := p.name
  typeSet := p.typeSet
  possibleTypes := p.possibleTypes
  properties := properties
  accessors := accessors
  implements := supers.map Model.id
  isInterface := p.isInterface
  isBase := p.isBase
  isFallback := p.isFallback

/-- The group of models that were built, of which one must be the base model. -/
def groupOfModels (f : Field) (baseId : ModelId) (models : List Model) : Except Error ModelGroup :=
  if models.countP Model.isBase = 1 then .ok ⟨baseId, models⟩
  else .error (.internal s!"Field \"{f.responseName}\" must have exactly one base model")

set_option linter.unusedVariables false in
/-- The models of a composite field. -/
def Field.modelGroup (interfaces : Name → Except Error ModelGroup) (f : Field) (site : Site)
    (inherited : List ModelGroup) : Except Error ModelGroup :=
  if f.fieldSets.isEmpty then
    .error (.internal s!"Cannot build models for leaf field \"{f.responseName}\"")
  else
    match (f.plan site).find? PlannedModel.isBase with
    | none => .error (.internal s!"Field \"{f.responseName}\" has no base shape")
    | some base => do
      let built ← (f.plan site).attach.foldlM (fun built ⟨p, hp⟩ ↦ do
        let supers ← supers interfaces f inherited built p
        let properties ← p.fieldSet.fields.attach.mapM fun ⟨g, hg⟩ ↦
          property supers g (g.modelGroup interfaces (site.beneath p g))
        let accessors ← accessors interfaces f site (f.plan site) p
        return built ++ [⟨p, p.model site supers properties accessors⟩]) []
      groupOfModels f (site.id base.name) (built.map BuiltModel.model)
termination_by f.size
decreasing_by exact Field.size_lt_of_mem (Field.fieldSet_mem_of_mem_plan hp) hg

/-- **How the models of a field are built.** -/
theorem Field.modelGroup_eq (interfaces : Name → Except Error ModelGroup) (f : Field) (site : Site)
    (inherited : List ModelGroup) :
    f.modelGroup interfaces site inherited =
      (if f.fieldSets.isEmpty then
        .error (.internal s!"Cannot build models for leaf field \"{f.responseName}\"")
      else
        match (f.plan site).find? PlannedModel.isBase with
        | none => .error (.internal s!"Field \"{f.responseName}\" has no base shape")
        | some base => do
          let built ← (f.plan site).foldlM (fun built p ↦ do
            let supers ← supers interfaces f inherited built p
            let properties ← p.fieldSet.fields.mapM fun g ↦
              property supers g (g.modelGroup interfaces (site.beneath p g))
            let accessors ← accessors interfaces f site (f.plan site) p
            return built ++ [⟨p, p.model site supers properties accessors⟩]) []
          groupOfModels f (site.id base.name) (built.map BuiltModel.model)) := by
  have hfields : ∀ (p : PlannedModel) (ms : List Model),
      (p.fieldSet.fields.attach.mapM fun ⟨g, _⟩ ↦
        property ms g (g.modelGroup interfaces (site.beneath p g))) =
      p.fieldSet.fields.mapM fun g ↦
        property ms g (g.modelGroup interfaces (site.beneath p g)) := by
    intro p ms
    rw [List.mapM_subtype (g := fun g ↦ property ms g (g.modelGroup interfaces (site.beneath p g)))
      fun g _ ↦ rfl, List.unattach_attach]
  rw [Field.modelGroup]
  simp only [hfields]
  rw [List.foldlM_subtype
    (g := fun built p ↦ do
      let supers ← supers interfaces f inherited built p
      let properties ← p.fieldSet.fields.mapM fun g ↦
        property supers g (g.modelGroup interfaces (site.beneath p g))
      let accessors ← accessors interfaces f site (f.plan site) p
      return built ++ [⟨p, p.model site supers properties accessors⟩])
    fun built p _ ↦ rfl, List.unattach_attach]

end ResponseModels
