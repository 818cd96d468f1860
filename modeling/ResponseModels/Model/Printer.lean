import ResponseModels.Model.Basic
import ResponseModels.Text.Block

/-!
# The printed form of model groups

Each model begins a line with its kind, name, type set and possible types. Indented below follow the
models it implements, its accessors and its properties; the group of a property stands in braces,
one level deeper.
-/

set_option autoImplicit false

namespace ResponseModels

/-- A line break and the indentation of a level. -/
def newLine (level : Nat) : String := "\n" ++ Text.indentation level

/-- The word that introduces a model. -/
def modelKind (isInterface isFallback : Bool) : String :=
  if isInterface then "interface" else if isFallback then "fallback" else "model"

/-- The printed form of an accessor. -/
def Accessor.text : Accessor → String
  | .fragment name target => "as ..." ++ name ++ " -> " ++ target.text
  | .subtype typeSet target => "as " ++ typeSet.text ++ " -> " ++ target.text

/-- The printed form of what a property says before its group. -/
def propertyText (info : FieldInfo) (condition : Condition) (isOverride : Bool) : String :=
  info.responseName ++ ": " ++ (NamedType.written info.type).text ++
  (if condition.isAlways then "" else " if " ++ condition.text) ++
  (if isOverride then " (override)" else "")

mutual

/-- The printed form of a model whose first line stands at a level. -/
def Model.text (level : Nat) : Model → String
  | ⟨_, name, typeSet, possibleTypes, properties, accessors, implements, isInterface, _,
      isFallback⟩ =>
    modelKind isInterface isFallback ++ " " ++ name ++ " " ++ typeSet.text ++ " -> " ++
      possibleTypes.text ++
    String.join (implements.map fun id ↦ newLine (level + 1) ++ "implements " ++ id.text) ++
    String.join (accessors.map fun a ↦ newLine (level + 1) ++ a.text) ++
    Property.lines (level + 1) properties

/-- Properties, each on lines of its own. -/
def Property.lines (level : Nat) : List Property → String
  | [] => ""
  | ⟨info, condition, isOverride, none⟩ :: rest =>
    newLine level ++ propertyText info condition isOverride ++ Property.lines level rest
  | ⟨info, condition, isOverride, some ⟨_, models⟩⟩ :: rest =>
    newLine level ++ propertyText info condition isOverride ++ " \x7b" ++
    Model.lines (level + 1) models ++ newLine level ++ "\x7d" ++ Property.lines level rest

/-- Models, each on lines of its own. -/
def Model.lines (level : Nat) : List Model → String
  | [] => ""
  | m :: rest => newLine level ++ m.text level ++ Model.lines level rest

end

/-- The printed form of a group: its models, one below the other. -/
def ModelGroup.text (g : ModelGroup) : String :=
  String.intercalate "\n" (g.models.map (Model.text 0))

end ResponseModels
