import ResponseModels.Closure
import ResponseModels.Field

/-!
# The types a document uses

Besides its models a document needs the enums, input objects and custom scalars that the types of
its fields, arguments and variables lead to. Input objects lead on to the types of their own fields.
The names that have been reached are collected definition by definition (`Schema.addUsedTypes`);
what is kept of the types is listed in the order of the schema.
-/

set_option autoImplicit false

namespace ResponseModels

/-- A value of an enum. -/
structure EnumValue where
  /-- The name. -/
  name : Name
  /-- What the schema says of it. -/
  description : Option String
  /-- Why it should not be used any more, if so. -/
  deprecation : Option String

/-- An enum in use. -/
structure UsedEnum where
  /-- The name. -/
  name : Name
  /-- What the schema says of it. -/
  description : Option String
  /-- The values, in order. -/
  values : List EnumValue

/-- A field of an input object with its type resolved. -/
structure InputField where
  /-- The name. -/
  name : Name
  /-- The type, resolved. -/
  type : TypeExpr NamedType
  /-- What the schema says of it. -/
  description : Option String
  /-- The value to take if none is given. -/
  default : Option Value

/-- An input object in use. -/
structure UsedInputObject where
  /-- The name. -/
  name : Name
  /-- What the schema says of it. -/
  description : Option String
  /-- The fields, in order. -/
  fields : List InputField

/-- A scalar in use that is not built in. -/
structure UsedScalar where
  /-- The name. -/
  name : Name
  /-- What the schema says of it. -/
  description : Option String

/-! ## The names that are reached -/

/-- The names of the types of a field and of its arguments. -/
def FieldInfo.typeNames (i : FieldInfo) : List Name :=
  i.rawType :: i.arguments.map fun a ↦ a.type.base.name

mutual

/-- The names of the types in the tree of a field, with repetitions. -/
def Field.typeNames : Field → List Name
  | ⟨info, _, fieldSets, _⟩ => info.typeNames ++ FieldSet.typeNamesOf fieldSets

/-- The names of the types in a field set. -/
def FieldSet.typeNames : FieldSet → List Name
  | ⟨_, _, fields, _⟩ => Field.typeNamesOf fields

/-- The names of the types in field sets. -/
def FieldSet.typeNamesOf : List FieldSet → List Name
  | [] => []
  | s :: rest => s.typeNames ++ FieldSet.typeNamesOf rest

/-- The names of the types in the trees of fields. -/
def Field.typeNamesOf : List Field → List Name
  | [] => []
  | f :: rest => f.typeNames ++ Field.typeNamesOf rest

end

/-- The names of the types that a type leads on to. -/
def TypeDefinition.inputTypes (d : TypeDefinition) : List Name :=
  match d.body with
  | .inputObject fields => fields.map fun f ↦ f.type.base
  | _ => []

namespace Schema

/-- The types with those that each leads on to. -/
def inputTable (s : Schema) : List (Name × List Name) :=
  s.types.map fun d ↦ (d.name, d.inputTypes)

/-- Adds to the names reached so far all that can be reached from further names. -/
def addUsedTypes (s : Schema) (names seen : List Name) : Except Error (List Name) :=
  closure s.inputTable (.unknown .type) names seen

/-! ## What is kept of the types -/

/-- The enums of given names. -/
def usedEnums (s : Schema) (names : List Name) : List UsedEnum :=
  s.types.filterMap fun d ↦
    match d.body with
    | .enum values =>
      if d.name ∈ names then
        some ⟨d.name, d.description,
          values.map fun v ↦ ⟨v.name, v.description, Directive.deprecation? v.directives⟩⟩
      else none
    | _ => none

/-- The scalars of given names that are not built in. -/
def usedScalars (s : Schema) (names : List Name) : List UsedScalar :=
  s.types.filterMap fun d ↦
    match d.body with
    | .scalar =>
      if d.name ∈ names ∧ d.name ∉ builtInScalars then some ⟨d.name, d.description⟩ else none
    | _ => none

/-- An input definition with its type resolved. -/
def inputField (s : Schema) (i : InputDefinition) : Except Error InputField := do
  return ⟨i.name, ← s.resolve i.type, i.description, i.default⟩

/-- The input objects of given names. -/
def usedInputObjects (s : Schema) (names : List Name) : Except Error (List UsedInputObject) :=
  s.types.filterMapM fun d ↦
    match d.body with
    | .inputObject fields =>
      if d.name ∈ names then do
        return some ⟨d.name, d.description, ← fields.mapM s.inputField⟩
      else return none
    | _ => return none

end Schema
end ResponseModels
