import ResponseModels.NameSet

/-!
# Type expressions

A type expression wraps a named type in any number of list and non-null wrappers. The same wrappers
stand around a bare name, as in a document (`TypeExpr Name`), and around a name whose kind is known,
once a schema has resolved it (`TypeExpr NamedType`); so `TypeExpr` takes what stands at the bottom
as a parameter, and resolving a type is looking up its base and leaving the wrappers alone.

The written form is `Dog`, `Dog!`, `[Dog]`, `[Dog!]!` and so on: `TypeExpr.text` writes it and
`TypeExpr.ofText?` reads it.
-/

set_option autoImplicit false

namespace ResponseModels

/-- A named type inside list and non-null wrappers. -/
inductive TypeExpr (α : Type) where
  | named (base : α)
  | list (item : TypeExpr α)
  | nonNull (item : TypeExpr α)
  deriving DecidableEq

/-- The kinds of named types. -/
inductive TypeKind where
  | scalar
  | enum
  | object
  | interface
  | union
  | inputObject
  deriving DecidableEq

/-- Whether values of this kind have fields to select. -/
def TypeKind.isComposite : TypeKind → Bool
  | .object | .interface | .union => true
  | .scalar | .enum | .inputObject => false

/-- A type name together with the kind of type it names. -/
structure NamedType where
  /-- The kind of the type. -/
  kind : TypeKind
  /-- Its name. -/
  name : Name
  deriving DecidableEq

namespace TypeExpr

variable {α β : Type}

/-- What stands at the bottom of the wrappers. -/
def base : TypeExpr α → α
  | .named a => a
  | .list item | .nonNull item => item.base

/-- Applies a function to the base. -/
def map (f : α → β) : TypeExpr α → TypeExpr β
  | .named a => .named (f a)
  | .list item => .list (item.map f)
  | .nonNull item => .nonNull (item.map f)

@[simp] theorem base_map (f : α → β) (t : TypeExpr α) : (t.map f).base = f t.base := by
  induction t with
  | named a => rfl
  | list item ih => exact ih
  | nonNull item ih => exact ih

/-- Whether a value of the type is a list, null or not. -/
def isList : TypeExpr α → Bool
  | .named _ => false
  | .list _ => true
  | .nonNull item => item.isList

/-- Whether the outermost wrapper is non-null. -/
def isNonNull : TypeExpr α → Bool
  | .nonNull _ => true
  | _ => false

/-- The written form. -/
def text : TypeExpr Name → String
  | .named name => name
  | .list item => "[" ++ item.text ++ "]"
  | .nonNull item => item.text ++ "!"

/-! ## Reading the written form -/

/-- Reads what follows the name in a written type: a closing bracket ends one of the `opened` lists,
an exclamation mark makes what was read so far non-null. -/
private def close : List Char → Nat → TypeExpr Name → Option (TypeExpr Name)
  | [], 0, t => some t
  | ']' :: rest, opened + 1, t => close rest opened (.list t)
  | '!' :: rest, opened, t => if t.isNonNull then none else close rest opened (.nonNull t)
  | _, _, _ => none

/-- Reads a written type. -/
def ofText? (s : String) : Option (TypeExpr Name) :=
  let brackets := s.toList.takeWhile (· == '[')
  let rest := s.toList.dropWhile (· == '[')
  let name := rest.takeWhile fun c ↦ c != '[' && c != ']' && c != '!'
  let wrappers := rest.dropWhile fun c ↦ c != '[' && c != ']' && c != '!'
  if name.isEmpty then none else close wrappers brackets.length (.named (String.ofList name))

end TypeExpr

namespace NamedType

/-- The kinds of a resolved type forgotten. -/
def written (t : TypeExpr NamedType) : TypeExpr Name := t.map NamedType.name

end NamedType
end ResponseModels
