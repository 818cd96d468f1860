import ResponseModels.Field

/-!
# Models

A model is a type for the values of a field that have a certain shape. A composite field gets a
`ModelGroup` with the models of all its shapes; models of wide shapes are interfaces that models of
narrower shapes implement. A composite property of a model has a group of its own, so that the
models of an operation or a fragment form a tree.

A `ModelId` is an address in that tree: the name of a model in the root group, then, turn by turn,
the response name of a property and the name of a model in the property's group. `ModelGroup.at?`
follows such an address.
-/

set_option autoImplicit false

namespace ResponseModels

/-- The tree of models that a model belongs to. -/
inductive ModelRoot where
  | operation (name : Name)
  | fragmentInterface (name : Name)
  | fragmentImplementation (name : Name)
  deriving DecidableEq

/-- The printed form of a root. -/
def ModelRoot.text : ModelRoot → String
  | .operation name => name
  | .fragmentInterface name => name ++ "#interface"
  | .fragmentImplementation name => name ++ "#implementation"

/-- The address of a model in its tree. -/
structure ModelId where
  /-- The tree. -/
  root : ModelRoot
  /-- Model names and response names in turn, from the root of the tree. -/
  path : List String
  deriving DecidableEq

namespace ModelId

/-- The name of the model, which ends its address. -/
def name (id : ModelId) : String := id.path.getLast?.getD ""

/-- The printed form of an address. -/
def text (id : ModelId) : String :=
  id.root.text ++ String.join (id.path.map fun segment ↦ "." ++ segment)

end ModelId

/-- A way to see a value as something more specific. -/
inductive Accessor where
  /-- As a named fragment, by the base model of the fragment's interface. -/
  | fragment (name : Name) (target : ModelId)
  /-- As a narrower shape of the same field. -/
  | subtype (typeSet : NameSet) (target : ModelId)
  deriving DecidableEq

/-- The model that an accessor returns. -/
def Accessor.target : Accessor → ModelId
  | .fragment _ target => target
  | .subtype _ target => target

mutual

/-- A type for the values of a field that have a certain shape. -/
structure Model where
  /-- Its address. -/
  id : ModelId
  /-- Its name, unique in the group. -/
  name : String
  /-- The type conditions of its shape. -/
  typeSet : NameSet
  /-- The object types whose values the model is for, those of narrower shapes included. -/
  possibleTypes : NameSet
  /-- What a value has, in the order of the fields. -/
  properties : List Property
  /-- What a value can be seen as. -/
  accessors : List Accessor
  /-- The interface models that the model implements. -/
  implements : List ModelId
  /-- Whether other models implement it, and no value is of this model alone. -/
  isInterface : Bool
  /-- Whether it is the model of the field's own type. -/
  isBase : Bool
  /-- Whether it is for the object types of the field's own type that no narrower shape has. -/
  isFallback : Bool

/-- A field of a model. -/
structure Property where
  /-- What is known of the field. -/
  info : FieldInfo
  /-- When it is included. -/
  condition : Condition
  /-- Whether a model that this one implements has the property too. -/
  isOverride : Bool
  /-- The models of the property's values; nothing for a leaf. -/
  group : Option ModelGroup

/-- The models of a field, in the order of its shapes. -/
structure ModelGroup where
  /-- The model of the field's own type. -/
  baseId : ModelId
  /-- The models. -/
  models : List Model

end

/-- The property of a response name. -/
def Model.property? (m : Model) (responseName : Name) : Option Property :=
  m.properties.find? fun p ↦ p.info.responseName == responseName

namespace ModelGroup

/-- The model of an id, looked for in the group itself. -/
def model? (g : ModelGroup) (id : ModelId) : Option Model :=
  g.models.find? fun m ↦ m.id = id

/-- The model of a name. -/
def named? (g : ModelGroup) (name : String) : Option Model :=
  g.models.find? fun m ↦ m.name == name

/-- The model of the field's own type. -/
def base? (g : ModelGroup) : Option Model := g.model? g.baseId

/-- The model that a path leads to. The path names, turn by turn, a model of a group (the base model
when no name is given) and a property of the model, whose group is entered next. A path that ends
with a property leads to the model that has it, provided that the property has a group. -/
def at? (g : ModelGroup) : List (Option String) → Option Model
  | [] => none
  | name :: rest => do
    let model ← match name with
      | some name => g.named? name
      | none => g.base?
    match rest with
    | [] => some model
    | responseName :: rest => do
      let group ← (← model.property? (← responseName)).group
      match rest with
      | [] => some model
      | name :: rest => group.at? (name :: rest)

end ModelGroup

mutual

/-- All models of a group and of the groups of its properties, each model before those of its
properties. -/
def ModelGroup.allModels : ModelGroup → List Model
  | ⟨_, models⟩ => Model.allOf models

/-- Models with all models beneath them. -/
def Model.allOf : List Model → List Model
  | [] => []
  | m :: rest => m :: m.beneath ++ Model.allOf rest

/-- All models in the groups of a model's properties. -/
def Model.beneath : Model → List Model
  | ⟨_, _, _, _, properties, _, _, _, _, _⟩ => Property.modelsOf properties

/-- All models in the groups of properties. -/
def Property.modelsOf : List Property → List Model
  | [] => []
  | ⟨_, _, _, none⟩ :: rest => Property.modelsOf rest
  | ⟨_, _, _, some group⟩ :: rest => group.allModels ++ Property.modelsOf rest

end

end ResponseModels
