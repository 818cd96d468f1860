import ResponseModels.Directive
import ResponseModels.Error
import ResponseModels.TypeExpr

/-!
# Schemas

A schema is a list of type definitions in declaration order, with the names of the types that
operations start from. The five built-in scalars come first in every schema and need no declaration.

Nothing is validated: a root, an interface or a union member may name a type that does not exist or
is of another kind. What such a name means is settled by the questions a schema answers:

* `Schema.type?`, `Schema.field?` and `Schema.root` look things up;
* `Schema.resolve` finds the kind of a written type;
* `Schema.possibleTypes` gives the object types that a value of an object, interface or union type
  can have. They are found for all types together: every object type is entered at itself and at the
  composite types that it says it implements, and every union has the object types that it lists
  entered (`Schema.objectTable`).
-/

set_option autoImplicit false

namespace ResponseModels

/-- The kinds of operations. -/
inductive OperationKind where
  | query
  | mutation
  | subscription
  deriving DecidableEq

/-- The word that introduces an operation. -/
def OperationKind.text : OperationKind → String
  | .query => "query"
  | .mutation => "mutation"
  | .subscription => "subscription"

/-- An argument of a field, or a field of an input object. -/
structure InputDefinition where
  /-- The name. -/
  name : Name
  /-- The declared type. -/
  type : TypeExpr Name
  /-- The value to take if none is given. -/
  default : Option Value
  /-- What is said of it. -/
  description : Option String
  /-- The directives at it. -/
  directives : List Directive

/-- A field of an object or interface type. -/
structure FieldDefinition where
  /-- The name. -/
  name : Name
  /-- The declared type. -/
  type : TypeExpr Name
  /-- The arguments it takes. -/
  arguments : List InputDefinition
  /-- What is said of it. -/
  description : Option String
  /-- The directives at it. -/
  directives : List Directive

/-- A value of an enum type. -/
structure EnumValueDefinition where
  /-- The name. -/
  name : Name
  /-- What is said of it. -/
  description : Option String
  /-- The directives at it. -/
  directives : List Directive

/-- What a type definition says besides its name. -/
inductive TypeBody where
  | scalar
  | enum (values : List EnumValueDefinition)
  | object (interfaces : List Name) (fields : List FieldDefinition)
  | interface (interfaces : List Name) (fields : List FieldDefinition)
  | union (members : List Name)
  | inputObject (fields : List InputDefinition)

/-- The kind of type that is defined. -/
def TypeBody.kind : TypeBody → TypeKind
  | .scalar => .scalar
  | .enum _ => .enum
  | .object .. => .object
  | .interface .. => .interface
  | .union _ => .union
  | .inputObject _ => .inputObject

/-- The definition of a named type. -/
structure TypeDefinition where
  /-- The name. -/
  name : Name
  /-- What is said of it. -/
  description : Option String
  /-- What it is, by kind. -/
  body : TypeBody

namespace TypeDefinition

/-- The kind of type that is defined. -/
def kind (d : TypeDefinition) : TypeKind := d.body.kind

/-- The fields that can be selected by their own definition. -/
def fields (d : TypeDefinition) : List FieldDefinition :=
  match d.body with
  | .object _ fields | .interface _ fields => fields
  | _ => []

/-- The types that an object type says it implements. -/
def interfaces (d : TypeDefinition) : List Name :=
  match d.body with
  | .object interfaces _ => interfaces
  | _ => []

/-- The types that a union lists. -/
def members (d : TypeDefinition) : List Name :=
  match d.body with
  | .union members => members
  | _ => []

end TypeDefinition

/-- A schema: the root types of operations and the type definitions, in declaration order. -/
structure Schema where
  /-- The root type of queries. -/
  query : Option Name
  /-- The root type of mutations. -/
  mutation : Option Name
  /-- The root type of subscriptions. -/
  subscription : Option Name
  /-- The type definitions. -/
  definitions : List TypeDefinition

namespace Schema

/-- The scalars that every schema has. -/
def builtInScalars : List Name := ["Int", "Float", "String", "Boolean", "ID"]

/-- All types, the built-in scalars first. -/
def types (s : Schema) : List TypeDefinition :=
  builtInScalars.map (fun name ↦ { name, description := none, body := .scalar }) ++ s.definitions

/-- The definition of a type. -/
def type? (s : Schema) (name : Name) : Option TypeDefinition :=
  s.types.find? fun d ↦ d.name == name

/-- The definition of a type that should exist. -/
def type (s : Schema) (name : Name) : Except Error TypeDefinition :=
  match s.type? name with
  | some d => .ok d
  | none => .error (.unknown .type name)

/-- Whether a type exists and has fields to select. -/
def isComposite (s : Schema) (name : Name) : Bool :=
  (s.type? name).any fun d ↦ d.kind.isComposite

/-- Whether a type is an interface or a union. -/
def isAbstract (s : Schema) (name : Name) : Bool :=
  (s.type? name).any fun d ↦ d.kind = .interface || d.kind = .union

/-- Whether a type is an object type. -/
def isObject (s : Schema) (name : Name) : Bool :=
  (s.type? name).any fun d ↦ d.kind = .object

/-- Where a definition has object types entered: a list of types, each with an object type to be
entered there. -/
def memberships (s : Schema) (d : TypeDefinition) : List (Name × Name) :=
  match d.kind with
  | .object => (d.name :: d.interfaces).map fun super ↦ (super, d.name)
  | .union => (d.members.filter s.isObject).map fun member ↦ (d.name, member)
  | _ => []

/-- Enters an object type at a type, if the table has a row for the type. -/
def enter (table : List (Name × NameSet)) (entry : Name × Name) : List (Name × NameSet) :=
  table.map fun row ↦ if row.1 = entry.1 then (row.1, row.2.insert entry.2) else row

/-- The composite types, each with the object types that its values can have. -/
def objectTable (s : Schema) : List (Name × NameSet) :=
  let composites := s.types.filter fun d ↦ s.isComposite d.name
  s.types.foldl (fun table d ↦ (s.memberships d).foldl enter table)
    (composites.map fun d ↦ (d.name, ∅))

/-- The object types that a value of a composite type can have. -/
def possibleTypes (s : Schema) (name : Name) : Except Error NameSet :=
  match s.objectTable.lookup name with
  | some types => .ok types
  | none => .error (.unknown .compositeType name)

/-- The name of the type that operations of a kind start from, as declared. -/
def root? (s : Schema) : OperationKind → Option Name
  | .query => s.query
  | .mutation => s.mutation
  | .subscription => s.subscription

/-- The name of the type that operations of a kind start from. -/
def root (s : Schema) (kind : OperationKind) : Except Error Name :=
  match s.root? kind with
  | some name => .ok name
  | none => .error (.unknown .rootOperation kind.text)

/-- A written type with the kind of its base. -/
def resolve (s : Schema) : TypeExpr Name → Except Error (TypeExpr NamedType)
  | .named name => do return .named { kind := (← s.type name).kind, name }
  | .list item => do return .list (← s.resolve item)
  | .nonNull item => do return .nonNull (← s.resolve item)

/-- The name of the field that every composite type has. -/
def typename : Name := "__typename"

/-- The definition of `__typename`, which no type declares. -/
def typenameDefinition : FieldDefinition where
  name := typename
  type := .nonNull (.named "String")
  arguments := []
  description := none
  directives := []

/-- The definition of a field of a type. -/
def field? (s : Schema) (parent name : Name) : Option FieldDefinition := do
  let d ← s.type? parent
  match d.fields.find? fun f ↦ f.name == name with
  | some f => some f
  | none => if name = typename && d.kind.isComposite then some typenameDefinition else none

/-- The definition of a field that a selection names. -/
def field (s : Schema) (parent name : Name) : Except Error FieldDefinition :=
  match s.field? parent name with
  | some f => .ok f
  | none => .error (.unresolved .field name (some parent))

end Schema
end ResponseModels
