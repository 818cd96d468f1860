import ResponseModels.Schema

/-!
# Type sets and shapes

A *type set* is a set of type conditions, meant to hold together. The more conditions, the narrower
the type set: `s ⊂ t` says that `t` is strictly narrower than `s`.

Beneath a field some type conditions are selected. Every object type that the field can have
satisfies some of them, and object types that satisfy the same ones cannot be told apart by the
selection. So they form one *shape*, whose type set is the raw type of the field together with the
conditions that they satisfy. `Schema.derivedShapes` computes these shapes; the shape of the raw
type alone is always among them and has all object types of the field.

`extremes` keeps the narrowest or the widest of a list of sets.
-/

set_option autoImplicit false

namespace ResponseModels

/-! ## Inclusion -/

instance : HasSSubset NameSet where
  SSubset s t := s.size < t.size ∧ s ⊆ t

instance (s t : NameSet) : Decidable (s ⊂ t) :=
  inferInstanceAs (Decidable (s.size < t.size ∧ s ⊆ t))

theorem NameSet.ssubset_iff {s t : NameSet} : s ⊂ t ↔ s.size < t.size ∧ s ⊆ t := Iff.rfl

/-- The two ends of inclusion. -/
inductive Extreme where
  | smallest
  | largest
  deriving DecidableEq

/-- Whether `t` lies strictly further towards an end than `s`. -/
def Extreme.beyond (e : Extreme) (t s : NameSet) : Bool :=
  match e with
  | .smallest => decide (t ⊂ s)
  | .largest => decide (s ⊂ t)

/-- The sets that no set of the list lies beyond, each once, in the order of the list. -/
def extremes (e : Extreme) (sets : List NameSet) : List NameSet :=
  (sets.filter fun s ↦ !sets.any fun t ↦ e.beyond t s).eraseDups

/-! ## Shapes -/

/-- A type set with object types that belong to it. -/
structure Shape where
  /-- The type conditions. -/
  typeSet : NameSet
  /-- The object types. -/
  possibleTypes : NameSet
  deriving DecidableEq

/-- Wide shapes come before narrow ones; shapes of one width come in the order of their
conditions. -/
def Shape.le (a b : Shape) : Bool :=
  ((compare a.typeSet.size b.typeSet.size).then (compare a.typeSet b.typeSet)).isLE

/-- Puts a shape in its place among sorted ones. -/
def Shape.insert (a : Shape) : List Shape → List Shape
  | [] => [a]
  | b :: rest => if a.le b then a :: b :: rest else b :: a.insert rest

/-- Shapes from the widest to the narrowest. -/
def sortShapes (shapes : List Shape) : List Shape :=
  shapes.foldr Shape.insert []

/-- The conditions that an object type satisfies, given the possible types of each, together with
the raw type. -/
def satisfied (rawType : Name) (conditions : List (Name × NameSet)) (t : Name) : NameSet :=
  (conditions.filter fun c ↦ t ∈ c.2).foldr (fun c s ↦ s.insert c.1) {rawType}

/-- The shapes of a field of type `rawType` beneath which `typeConditions` are selected. The shape
of the raw type has every object type of the field. Any other shape has those that satisfy exactly
its conditions. -/
def Schema.derivedShapes (s : Schema) (rawType : Name) (typeConditions : List Name) :
    Except Error (List Shape) := do
  let fieldTypes ← s.possibleTypes rawType
  let conditions ← (typeConditions.filter (· != rawType)).mapM fun c ↦ do
    return (c, ← s.possibleTypes c)
  let typeSets := (fieldTypes.toList.map (satisfied rawType conditions) ++ [{rawType}]).eraseDups
  return sortShapes (typeSets.map fun typeSet ↦
    { typeSet
      possibleTypes :=
        if typeSet.size = 1 then fieldTypes
        else fieldTypes.filter fun t ↦ satisfied rawType conditions t = typeSet })

/-- The object types of a field of type `rawType` that satisfy every condition of a type set. -/
def Schema.typesSatisfying (s : Schema) (rawType : Name) (typeSet : NameSet) :
    Except Error NameSet := do
  let fieldTypes ← s.possibleTypes rawType
  let conditions ← typeSet.toList.mapM s.possibleTypes
  return fieldTypes.filter fun t ↦ conditions.all fun types ↦ t ∈ types

/-- The object types of a shape and of all narrower ones. -/
def coveredTypes (typeSet : NameSet) (shapes : List Shape) : NameSet :=
  (shapes.filter fun shape ↦ typeSet ⊆ shape.typeSet).foldr (fun shape s ↦
    shape.possibleTypes ∪ s) ∅

/-- The object types of a shape that belong to no strictly narrower one. -/
def Shape.ownTypes (shape : Shape) (shapes : List Shape) : NameSet :=
  shape.possibleTypes.filter fun t ↦
    !shapes.any fun other ↦
      decide (shape.typeSet ⊂ other.typeSet) && decide (t ∈ other.possibleTypes)

end ResponseModels
