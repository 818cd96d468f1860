import ResponseModels.Condition.Simplify
import ResponseModels.Schema

/-!
# Fields

A collected field says what is known of it wherever it was selected (`FieldInfo`), under which
condition it is included, and, if it is composite, what is selected beneath it. Since that depends
on the type of the value, a composite field has one `FieldSet` for each shape the value can take,
from the widest to the narrowest; a leaf has none.
-/

set_option autoImplicit false

namespace ResponseModels

/-- An argument of a field with the type that the schema declares for it. -/
structure Argument where
  /-- The name of the argument. -/
  name : Name
  /-- The value that is given. -/
  value : Value
  /-- The declared type. -/
  type : TypeExpr NamedType
  deriving DecidableEq

/-- Arguments as messages show them. -/
def Argument.listText (arguments : List Argument) : String :=
  "(" ++ String.intercalate ", " (arguments.map fun a ↦ a.name ++ ": " ++ a.value.text) ++ ")"

/-- What is known of a field wherever it was selected. -/
structure FieldInfo where
  /-- The field of the enclosing type. -/
  name : Name
  /-- The name it is asked for under, if another. -/
  alias? : Option Name
  /-- In the order of their names, so that the order they were written in does not matter. -/
  arguments : List Argument
  /-- The type with the kind of the type it names. -/
  type : TypeExpr NamedType
  /-- What the schema says of the field. -/
  description : Option String
  /-- Why it should not be used any more, if so. -/
  deprecation : Option String
  deriving DecidableEq

namespace FieldInfo

/-- The name under which the field appears in the response. -/
def responseName (i : FieldInfo) : Name := i.alias?.getD i.name

/-- The name of the type at the bottom of the field's type. -/
def rawType (i : FieldInfo) : Name := i.type.base.name

end FieldInfo

mutual

/-- A field of the response. -/
structure Field where
  /-- What is known of the field itself. -/
  info : FieldInfo
  /-- When it is included. -/
  condition : Condition
  /-- What is selected for each shape of the value; nothing for a leaf. -/
  fieldSets : List FieldSet
  /-- The fragments spread directly beneath the field, in order. -/
  fragments : List Name

/-- What is selected for one shape of a field. -/
structure FieldSet where
  /-- The type conditions of the shape, the type of the field among them. -/
  typeSet : NameSet
  /-- For the shape of the field's own type every object type of the field; for any other shape
  those that satisfy its conditions and no others. -/
  possibleTypes : NameSet
  /-- The fields, by response name in the order they were first met. -/
  fields : List Field
  /-- The fragments spread where they apply to the shape, in order. -/
  fragments : List Name

end

namespace Field

/-- The name under which the field appears in the response. -/
def responseName (f : Field) : Name := f.info.responseName

/-- The field set of the field's own type. -/
def base? (f : Field) : Option FieldSet :=
  f.fieldSets.find? fun s ↦ s.typeSet.size == 1

/-- The field set of a type set. -/
def fieldSet? (f : Field) (typeSet : NameSet) : Option FieldSet :=
  f.fieldSets.find? fun s ↦ s.typeSet = typeSet

/-- The `__typename` field that is added where it is not selected. -/
def typename : Field where
  info :=
    { name := Schema.typename
      alias? := none
      arguments := []
      type := .nonNull (.named ⟨.scalar, "String"⟩)
      description := none
      deprecation := none }
  condition := .always
  fieldSets := []
  fragments := []

end Field

/-- The field of a response name. -/
def FieldSet.field? (s : FieldSet) (responseName : Name) : Option Field :=
  s.fields.find? fun f ↦ f.responseName == responseName

/-- The field that response names lead to, going through the field set of each field's own type. -/
def Field.descend? (f : Field) : List Name → Option Field
  | [] => some f
  | name :: rest => do
    let child ← (← f.base?).field? name
    child.descend? rest

mutual

/-- How many fields there are in the tree of a field. -/
def Field.size : Field → Nat
  | ⟨_, _, fieldSets, _⟩ => FieldSet.sizeAll fieldSets + 1

/-- How many fields there are in a field set. -/
def FieldSet.size : FieldSet → Nat
  | ⟨_, _, fields, _⟩ => Field.sizeAll fields

/-- How many fields there are in field sets. -/
def FieldSet.sizeAll : List FieldSet → Nat
  | [] => 0
  | s :: rest => s.size + FieldSet.sizeAll rest

/-- How many fields there are in the trees of fields. -/
def Field.sizeAll : List Field → Nat
  | [] => 0
  | f :: rest => f.size + Field.sizeAll rest

end

private theorem Field.size_le_sizeAll {f : Field} {fields : List Field} (h : f ∈ fields) :
    f.size ≤ Field.sizeAll fields := by
  induction fields with
  | nil => exact absurd h List.not_mem_nil
  | cons g rest ih =>
    rw [Field.sizeAll]
    rcases List.mem_cons.mp h with rfl | h
    · exact Nat.le_add_right _ _
    · exact Nat.le_trans (ih h) (Nat.le_add_left _ _)

private theorem FieldSet.size_le_sizeAll {s : FieldSet} {fieldSets : List FieldSet}
    (h : s ∈ fieldSets) : s.size ≤ FieldSet.sizeAll fieldSets := by
  induction fieldSets with
  | nil => exact absurd h List.not_mem_nil
  | cons t rest ih =>
    rw [FieldSet.sizeAll]
    rcases List.mem_cons.mp h with rfl | h
    · exact Nat.le_add_right _ _
    · exact Nat.le_trans (ih h) (Nat.le_add_left _ _)

/-- A field in a field set of another is the smaller one. -/
theorem Field.size_lt_of_mem {f g : Field} {s : FieldSet} (hs : s ∈ f.fieldSets)
    (hg : g ∈ s.fields) : g.size < f.size := by
  have hf : f.size = FieldSet.sizeAll f.fieldSets + 1 := by cases f; rfl
  have hset : s.size = Field.sizeAll s.fields := by cases s; rfl
  have hle := Field.size_le_sizeAll hg
  have hle' := FieldSet.size_le_sizeAll hs
  omega

mutual

/-- The fragments spread anywhere in the tree of a field, with repetitions. -/
def Field.spreads : Field → List Name
  | ⟨_, _, fieldSets, fragments⟩ => fragments ++ FieldSet.spreadsOf fieldSets

/-- The fragments spread anywhere in a field set. -/
def FieldSet.spreads : FieldSet → List Name
  | ⟨_, _, fields, fragments⟩ => fragments ++ Field.spreadsOf fields

/-- The fragments spread anywhere in field sets. -/
def FieldSet.spreadsOf : List FieldSet → List Name
  | [] => []
  | s :: rest => s.spreads ++ FieldSet.spreadsOf rest

/-- The fragments spread anywhere in the trees of fields. -/
def Field.spreadsOf : List Field → List Name
  | [] => []
  | f :: rest => f.spreads ++ Field.spreadsOf rest

end

end ResponseModels
