import ResponseModels.Document.Printer
import ResponseModels.FragmentLibrary
import ResponseModels.Representation

/-!
# Building a document

`build` is the whole of the library: it takes the operations and fragments of a document, with the
schema they are written against, to their fields and models. Fragments are built first, then
operations, each in the order of the document. The first error ends the build; errors that arise in
a definition name it.
-/

set_option autoImplicit false

namespace ResponseModels

/-- The name of the base model of an operation. -/
def dataModelName : String := "Data"

/-- The models of a group with unique names, if they are wanted. -/
def Config.flatModels (config : Config) (g : ModelGroup) : Option (List FlatModel) :=
  if config.flattenModels then some g.flatten else none

/-- What a fragment of the library amounts to. -/
def buildFragment (config : Config) (lib : FragmentLibrary) (f : Fragment) :
    Except Error FragmentModels := do
  let b ← lib.entry f.name
  let implementation := lib.implementation? f.name
  return { name := f.name
           typeCondition := f.typeCondition
           field := b.field
           interface := b.interface
           implementation
           fragmentNames := ← lib.usedFragments b.field
           source := f.source
           flatModels := config.flatModels (implementation.getD b.interface) }

/-- A variable with its type resolved. -/
def Schema.resolveVariable (s : Schema) (v : VariableDefinition) : Except Error Variable := do
  return ⟨v.name, ← s.resolve v.type, v.default⟩

/-- The text of an operation, followed by those of fragments. -/
def Document.operationSource (d : Document) (o : Operation) (fragments : NameSet) : String :=
  "\n".intercalate (o.source :: (fragments.toList.filterMap d.fragment?).map Fragment.source)

/-- The fields and models of an operation. -/
def buildOperation (schema : Schema) (d : Document) (config : Config) (lib : FragmentLibrary)
    (name : Name) (o : Operation) : Except Error OperationModels := do
  let rootType ← schema.root o.kind
  let field ← expandRoot schema d config.typename rootType o.selections []
  let group ← field.modelGroup (lib.interfaceOf [])
    { root := .operation name, path := [], baseName := dataModelName, interfacesOnly := false } []
  let inputs ← o.variableDefinitions.mapM schema.resolveVariable
  let fragmentNames ← lib.usedFragments field
  return { name
           kind := o.kind
           inputs
           field
           group
           fragmentNames
           source := d.operationSource o fragmentNames
           flatModels := config.flatModels group }

/-- The operations that have a name, with it. -/
def Document.namedOperations (d : Document) : List (Name × Operation) :=
  d.operations.filterMap fun o ↦ o.name.map fun name ↦ (name, o)

/-- Builds the fragments of a document, and adds the types they use to those reached before. -/
def buildFragments (schema : Schema) (config : Config) (lib : FragmentLibrary) :
    List Fragment → List Name → Except Error (List FragmentModels × List Name)
  | [], used => .ok ([], used)
  | f :: rest, used => do
    let built ← Error.wrap (fragmentTitle f.name) (buildFragment config lib f)
    let used ← schema.addUsedTypes built.field.typeNames used
    let (others, used) ← buildFragments schema config lib rest used
    return (built :: others, used)

/-- Builds operations, and adds the types they use to those reached before. -/
def buildOperations (schema : Schema) (d : Document) (config : Config) (lib : FragmentLibrary) :
    List (Name × Operation) → List Name → Except Error (List OperationModels × List Name)
  | [], used => .ok ([], used)
  | (name, o) :: rest, used => do
    let built ← Error.wrap s!"{o.kind.text} \"{name}\"" (buildOperation schema d config lib name o)
    let used ← schema.addUsedTypes built.field.typeNames used
    let used ← schema.addUsedTypes (built.inputs.map fun v ↦ v.type.base.name) used
    let (others, used) ← buildOperations schema d config lib rest used
    return (built :: others, used)

/-- Builds a document. All its operations must have names. -/
def build (schema : Schema) (config : Config) (d : Document) : Except Error Representation :=
  if d.operations.any fun o ↦ o.name.isNone then
    .error ((Error.unknown .operationName "<anonymous>").inDefinition "anonymous operation")
  else do
    let lib ← FragmentLibrary.ofDocument schema d config
    let (fragments, used) ← buildFragments schema config lib d.fragments []
    let (operations, used) ← buildOperations schema d config lib d.namedOperations used
    return { operations
             fragments
             inputObjects := ← schema.usedInputObjects used
             enums := schema.usedEnums used
             scalars := schema.usedScalars used }

end ResponseModels
