import ResponseModels.Model.Naming
import ResponseModels.UsedTypes

/-!
# What is built from a document

Everything that a generator of client code needs to know of the operations and named fragments of a
document: the fields that are selected, the models that hold their values, the text to send, and the
types that are used besides.
-/

set_option autoImplicit false

namespace ResponseModels

/-- A variable of an operation with its type resolved. -/
structure Variable where
  /-- The name, without the sign in front. -/
  name : Name
  /-- The type, resolved. -/
  type : TypeExpr NamedType
  /-- The value to take if none is given. -/
  default : Option Value

/-- An operation with its fields and models. -/
structure OperationModels where
  /-- The name of the operation. -/
  name : Name
  /-- Whether it is a query, a mutation or a subscription. -/
  kind : OperationKind
  /-- The variables that it declares. -/
  inputs : List Variable
  /-- What it selects, as a field of the root type. -/
  field : Field
  /-- The models of what it selects. -/
  group : ModelGroup
  /-- The fragments that the operation spreads, directly or through others, by name. -/
  fragmentNames : NameSet
  /-- The text of the operation, followed by those of its fragments. -/
  source : String
  /-- All models with unique names, if they were asked for. -/
  flatModels : Option (List FlatModel)

/-- A named fragment with its fields and models. -/
structure FragmentModels where
  /-- The name of the fragment. -/
  name : Name
  /-- The type that its selections are on. -/
  typeCondition : Name
  /-- What it selects, as a field of that type. -/
  field : Field
  /-- Its interface models. -/
  interface : ModelGroup
  /-- The models that implement these, if they were asked for. -/
  implementation : Option ModelGroup
  /-- The fragments that the fragment spreads, directly or through others, by name. -/
  fragmentNames : NameSet
  /-- The text of the fragment. -/
  source : String
  /-- All models with unique names, if they were asked for. -/
  flatModels : Option (List FlatModel)

/-- All that is built from a document. -/
structure Representation where
  /-- The operations, in the order of the document. -/
  operations : List OperationModels
  /-- The fragments, in the order of the document. -/
  fragments : List FragmentModels
  /-- The input objects in use. -/
  inputObjects : List UsedInputObject
  /-- The enums in use. -/
  enums : List UsedEnum
  /-- The scalars in use that are not built in. -/
  scalars : List UsedScalar

namespace Representation

/-- The operation of a name. -/
def operation? (r : Representation) (name : Name) : Option OperationModels :=
  r.operations.find? fun o ↦ o.name == name

/-- The fragment of a name. -/
def fragment? (r : Representation) (name : Name) : Option FragmentModels :=
  r.fragments.find? fun f ↦ f.name == name

end Representation
end ResponseModels
