import ResponseModels.Closure
import ResponseModels.Collect.Expand
import ResponseModels.Model.Build

/-!
# The fragments of a document

A spread mixes the interface models of a fragment into the models of the field it stands in, so the
interfaces of fragments are needed before anything that spreads them. `FragmentLibrary.ensure`
builds the interface of a fragment after those of the fragments spread in it, each once. Fragments
that wait for others are `active`, and one that is needed while it is active is a cycle.
`ofDocument` takes the fragments of a document in turn and builds their implementations beside the
interfaces, if they are wanted.

The active fragments are different fragments of the document, so `ensure` ends for want of further
ones.
-/

set_option autoImplicit false

namespace ResponseModels

/-- How a fragment is named in errors. -/
def fragmentTitle (name : Name) : String := s!"fragment \"{name}\""

/-- A fragment with the fields it selects and its interface models. -/
structure BuiltFragment where
  /-- The name of the fragment. -/
  name : Name
  /-- What it selects, as a field of the type of its condition. -/
  field : Field
  /-- Its interface models. -/
  interface : ModelGroup

/-- What has been built of the fragments of a document. -/
structure FragmentLibrary where
  /-- The fragments that are finished, the last one first. -/
  built : List BuiltFragment
  /-- The implementation models of fragments, where there are any. -/
  implementations : List (Name × ModelGroup)

namespace FragmentLibrary

/-- The library with nothing in it. -/
def empty : FragmentLibrary := ⟨[], []⟩

/-- The entry of a fragment. -/
def built? (lib : FragmentLibrary) (name : Name) : Option BuiltFragment :=
  lib.built.find? fun b ↦ b.name == name

/-- The entry of a fragment that should be built. -/
def entry (lib : FragmentLibrary) (name : Name) : Except Error BuiltFragment :=
  match lib.built? name with
  | some b => .ok b
  | none => .error (.internal s!"Fragment \"{name}\" is not built")

/-- The implementation models of a fragment. -/
def implementation? (lib : FragmentLibrary) (name : Name) : Option ModelGroup :=
  lib.implementations.lookup name

/-- The interface models of a fragment, while some fragments wait to be built. -/
def interfaceOf (lib : FragmentLibrary) (active : List Name) (name : Name) :
    Except Error ModelGroup :=
  match lib.built? name with
  | some b => .ok b.interface
  | none =>
    if name ∈ active then .error (.fragmentCycle name [name, name])
    else .error (.internal s!"Fragment \"{name}\" is used before it is built")

set_option linter.unusedVariables false in
/-- Builds the interface of a fragment, after those of the fragments spread in it. -/
def ensure (schema : Schema) (d : Document) (config : Config) (active : List Name) (name : Name)
    (lib : FragmentLibrary) : Except Error FragmentLibrary :=
  if (lib.built? name).isSome then .ok lib
  else if ha : name ∈ active then .error (.fragmentCycle name (active ++ [name]))
  else
    Error.wrap (fragmentTitle name) <|
      match hf : d.fragment? name with
      | none => .error (.unknown .fragment name)
      | some fragment => do
        let field ← expandRoot schema d config.typename fragment.typeCondition
          fragment.selections [name]
        let lib ← (NameSet.ofList field.spreads).toList.foldlM
          (fun lib spread ↦ lib.ensure schema d config (active ++ [name]) spread) lib
        let interface ← field.modelGroup (lib.interfaceOf (active ++ [name]))
          { root := .fragmentInterface name, path := []
            baseName := name, interfacesOnly := true } []
        return { lib with built := lib.built ++ [⟨name, field, interface⟩] }
termination_by d.room active
decreasing_by
  have hname := Document.name_of_fragment? hf
  have hlt := Document.room_lt (Document.mem_of_fragment? hf) (hname ▸ ha)
  rwa [hname] at hlt

/-- Builds the implementation of a fragment whose interface is built. It inherits from the
interface. -/
def implement (lib : FragmentLibrary) (name : Name) : Except Error FragmentLibrary :=
  Error.wrap (fragmentTitle name) do
    let b ← lib.entry name
    let group ← b.field.modelGroup (lib.interfaceOf [])
      { root := .fragmentImplementation name, path := []
        baseName := name, interfacesOnly := false } [b.interface]
    return { lib with implementations := lib.implementations ++ [(name, group)] }

/-- Builds all fragments of a document in turn. -/
def ofDocument (schema : Schema) (d : Document) (config : Config) : Except Error FragmentLibrary :=
  d.fragments.foldlM (fun lib fragment ↦ do
    let lib ← lib.ensure schema d config [] fragment.name
    if config.fragmentImplementations then lib.implement fragment.name else return lib) empty

/-- The fragments with those spread in each. -/
def spreadTable (lib : FragmentLibrary) : List (Name × List Name) :=
  lib.built.map fun b ↦ (b.name, b.field.spreads)

/-- The fragments spread beneath a field, directly or through other fragments. -/
def usedFragments (lib : FragmentLibrary) (f : Field) : Except Error NameSet := do
  let missing (name : Name) : Error := .internal s!"Fragment \"{name}\" is not built"
  return .ofList (← closure lib.spreadTable missing f.spreads [])

end FragmentLibrary
end ResponseModels
