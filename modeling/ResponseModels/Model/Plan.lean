import ResponseModels.Model.Naming
import ResponseModels.Shape

/-!
# Planning the models of a field

Before the models of a field are built it is decided which models there are and what they are
called. Every shape has one *primary* model. If there are narrower shapes it is an interface, and
object types that none of them has get a concrete model besides, called `Other`. Where only
interfaces are wanted, every primary model is an interface and there are no others.

A model stands for the object types of its shape and of all narrower ones; an `Other` model only for
those of its own.
-/

set_option autoImplicit false

namespace ResponseModels

/-- Where a group of models stands in its tree. -/
structure Site where
  /-- The tree. -/
  root : ModelRoot
  /-- The address of the property that has the group; empty for a root group. -/
  path : List String
  /-- What model names end in. -/
  baseName : String
  /-- Whether all models are interfaces, as they are beneath an interface. -/
  interfacesOnly : Bool

/-- The id of a model of the group. -/
def Site.id (site : Site) (name : String) : ModelId := ⟨site.root, site.path ++ [name]⟩

/-- A model that is going to be built. -/
structure PlannedModel where
  /-- What is selected for the model's shape. -/
  fieldSet : FieldSet
  /-- Whether it will be an interface. -/
  isInterface : Bool
  /-- Whether it is for the values that no narrower shape has. -/
  isOther : Bool
  /-- Its name. -/
  name : String
  /-- The object types it will be for. -/
  possibleTypes : NameSet

namespace PlannedModel

/-- The type set of the model's shape. -/
def typeSet (p : PlannedModel) : NameSet := p.fieldSet.typeSet

/-- Whether it is the model of the field's own type. -/
def isBase (p : PlannedModel) : Bool := p.typeSet.size == 1 && !p.isOther

/-- Whether it is for what narrower shapes leave of the field's own type. -/
def isFallback (p : PlannedModel) : Bool := p.typeSet.size == 1 && p.isOther

/-- Whether it is the primary model of a type set. -/
def isPrimaryOf (p : PlannedModel) (typeSet : NameSet) : Bool := p.typeSet = typeSet && !p.isOther

end PlannedModel

namespace Field

/-- The shapes of a field. -/
def shapes (f : Field) : List Shape := f.fieldSets.map fun s ↦ ⟨s.typeSet, s.possibleTypes⟩

/-- A shape of a field with the object types of narrower ones too. -/
def covered (f : Field) (typeSet : NameSet) : Shape := ⟨typeSet, coveredTypes typeSet f.shapes⟩

/-- The object types that satisfy the conditions of a shape of a field and of no narrower one. -/
def ownTypes (f : Field) (typeSet : NameSet) : NameSet :=
  (f.covered typeSet).ownTypes (f.fieldSets.map fun s ↦ f.covered s.typeSet)

/-- The field sets of the strictly narrower shapes. -/
def narrower (f : Field) (typeSet : NameSet) : List FieldSet :=
  f.fieldSets.filter fun s ↦ typeSet ⊂ s.typeSet

/-- The models of one shape, with the names they would like. -/
def drafts (f : Field) (site : Site) (s : FieldSet) : List PlannedModel :=
  let covered := (f.covered s.typeSet).possibleTypes
  let own := f.ownTypes s.typeSet
  let name := shapeModelName s.typeSet f.info.rawType site.baseName
  let hasNarrower := !(f.narrower s.typeSet).isEmpty
  let primary : PlannedModel := ⟨s, site.interfacesOnly || hasNarrower, false, name, covered⟩
  if !site.interfacesOnly && hasNarrower && !own.isEmpty then
    [primary, ⟨s, false, true, otherModelName name, own⟩]
  else [primary]

/-- The models of a field, in the order of its shapes, with names that are unique among them. -/
def plan (f : Field) (site : Site) : List PlannedModel :=
  let drafts := f.fieldSets.flatMap (f.drafts site)
  (drafts.zip (freshNames [] (drafts.map PlannedModel.name))).map fun (p, name) ↦ { p with name }

theorem fieldSet_of_mem_drafts {f : Field} {site : Site} {s : FieldSet} {p : PlannedModel}
    (h : p ∈ f.drafts site s) : p.fieldSet = s := by
  rw [drafts] at h
  split at h
  · rcases List.mem_cons.mp h with rfl | h
    · rfl
    · rw [List.mem_singleton.mp h]
  · rw [List.mem_singleton.mp h]

/-- A planned model is for one of the field's shapes. -/
theorem fieldSet_mem_of_mem_plan {f : Field} {site : Site} {p : PlannedModel}
    (h : p ∈ f.plan site) : p.fieldSet ∈ f.fieldSets := by
  rw [plan] at h
  obtain ⟨⟨q, name⟩, hq, rfl⟩ := List.mem_map.mp h
  obtain ⟨s, hs, hq⟩ := List.mem_flatMap.mp (List.of_mem_zip hq).1
  exact fieldSet_of_mem_drafts hq ▸ hs

end Field
end ResponseModels
