import ResponseModels.Schema

/-!
# Documents

A document is a list of operations and a list of fragments. Both hold selections: fields, inline
fragments and spreads of named fragments, nested to any depth. The document is kept as it was
written. Nothing here says that a spread names a fragment that exists or that fragments do not
spread each other in a circle; that is found out while the document is built.

`Place` tells selections apart by where they stand, so that two selections that read the same are
still two.
-/

set_option autoImplicit false

namespace ResponseModels

/-- What a field selection says before its own selections. -/
structure FieldHead where
  /-- The field of the enclosing type. -/
  name : Name
  /-- The name it is asked for under, if another. -/
  alias? : Option Name
  /-- The arguments in the order they are written in. -/
  arguments : List (Name × Value)
  /-- The directives at the field. -/
  directives : List Directive
  deriving DecidableEq

/-- The name under which the field appears in the response. -/
def FieldHead.responseName (f : FieldHead) : Name := f.alias?.getD f.name

/-- A selection as written. -/
inductive Selection where
  /-- A field, with the selections beneath it. -/
  | field (head : FieldHead) (selections : List Selection)
  /-- Selections that apply to one type, or to the enclosing type when none is given. -/
  | inline (typeCondition : Option Name) (directives : List Directive) (selections : List Selection)
  /-- The selections of a named fragment. -/
  | spread (fragment : Name) (directives : List Directive)

mutual

/-- How many selections there are in a selection, itself included. -/
def Selection.size : Selection → Nat
  | .field _ selections => Selection.sizeAll selections + 1
  | .inline _ _ selections => Selection.sizeAll selections + 1
  | .spread .. => 1

/-- How many selections there are in selections. -/
def Selection.sizeAll : List Selection → Nat
  | [] => 0
  | s :: rest => s.size + Selection.sizeAll rest

end

theorem Selection.size_le_sizeAll {s : Selection} {selections : List Selection}
    (h : s ∈ selections) : s.size ≤ Selection.sizeAll selections := by
  induction selections with
  | nil => exact absurd h List.not_mem_nil
  | cons t rest ih =>
    rw [Selection.sizeAll]
    rcases List.mem_cons.mp h with rfl | h
    · exact Nat.le_add_right _ _
    · exact Nat.le_trans (ih h) (Nat.le_add_left _ _)

theorem Selection.size_pos (s : Selection) : 0 < s.size := by
  cases s <;> simp [Selection.size]

/-- A variable that an operation declares. -/
structure VariableDefinition where
  /-- The name, without the sign in front. -/
  name : Name
  /-- The type as it is written. -/
  type : TypeExpr Name
  /-- The value to take if none is given. -/
  default : Option Value
  /-- The directives at the variable. -/
  directives : List Directive

/-- An operation. One without a name is anonymous. -/
structure Operation where
  /-- Whether it is a query, a mutation or a subscription. -/
  kind : OperationKind
  /-- The name, if it has one. -/
  name : Option Name
  /-- The variables that it declares. -/
  variableDefinitions : List VariableDefinition
  /-- The directives at the operation. -/
  directives : List Directive
  /-- What it selects of the root type. -/
  selections : List Selection

/-- A named fragment. -/
structure Fragment where
  /-- The name it is spread by. -/
  name : Name
  /-- The type that its selections are on. -/
  typeCondition : Name
  /-- The directives at the definition. -/
  directives : List Directive
  /-- What it selects. -/
  selections : List Selection

/-- A document: operations and named fragments, in order. -/
structure Document where
  /-- The operations, in order. -/
  operations : List Operation
  /-- The named fragments, in order. -/
  fragments : List Fragment

namespace Document

/-- The fragment of a name. -/
def fragment? (d : Document) (name : Name) : Option Fragment :=
  d.fragments.find? fun f ↦ f.name == name

theorem mem_of_fragment? {d : Document} {name : Name} {f : Fragment}
    (h : d.fragment? name = some f) : f ∈ d.fragments :=
  List.mem_of_find?_eq_some h

theorem name_of_fragment? {d : Document} {name : Name} {f : Fragment}
    (h : d.fragment? name = some f) : f.name = name := by
  simpa using List.find?_some h

end Document

/-- Where a selection stands: in which definition, and at which position of which of its selection
lists. -/
structure Place where
  /-- The fragment, or nothing for the definition that is being collected. -/
  owner : Option Name
  /-- The positions on the way, the innermost first. -/
  steps : List Nat
  deriving DecidableEq

namespace Place

/-- The place of the definition that is being collected. -/
def root : Place := ⟨none, []⟩

/-- The place of a named fragment. -/
def fragment (name : Name) : Place := ⟨some name, []⟩

/-- The place of a selection in the list of another. -/
def child (p : Place) (i : Nat) : Place := { p with steps := i :: p.steps }

/-- The selections of a list with their places, counting from `i`. -/
def locateFrom (p : Place) (i : Nat) : List Selection → List (Place × Selection)
  | [] => []
  | s :: rest => (p.child i, s) :: p.locateFrom (i + 1) rest

/-- The selections of a list with their places. -/
def locate (p : Place) (selections : List Selection) : List (Place × Selection) :=
  p.locateFrom 0 selections

theorem map_snd_locateFrom (p : Place) (i : Nat) (selections : List Selection) :
    (p.locateFrom i selections).map Prod.snd = selections := by
  induction selections generalizing i with
  | nil => rfl
  | cons s rest ih => rw [locateFrom, List.map_cons, ih]

@[simp] theorem map_snd_locate (p : Place) (selections : List Selection) :
    (p.locate selections).map Prod.snd = selections :=
  p.map_snd_locateFrom 0 selections

end Place
end ResponseModels
