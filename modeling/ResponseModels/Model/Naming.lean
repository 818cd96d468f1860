import ResponseModels.Model.Basic

/-!
# Names of models

The models of a field are named after its response name: the *base name*, capitalised, and in the
singular when the field is a list. A narrower shape puts its type conditions in front, and the model
for what is left of a shape puts `Other` in front of that.

Names that are already taken get a number behind them, from 2 on, the first that is free
(`freshName`). Since among as many numbers as there are taken names and one more there is always a
free one, looking at these many suffices.

Names are made of letters, digits and underscores of ASCII, so capitalising is a matter of ASCII
letters.
-/

set_option autoImplicit false

namespace ResponseModels

/-- A word with its first letter in upper case. -/
def capitalize (s : String) : String :=
  match s.toList with
  | [] => ""
  | c :: rest => String.ofList (c.toUpper :: rest)

/-- The singular of a word, as far as its ending tells: `ies` becomes `y`, and a final `s` is
dropped unless nothing, another `s` or a `u` stands before it. -/
def singular (s : String) : String :=
  match s.toList.reverse with
  | 's' :: 'e' :: 'i' :: stem => String.ofList (stem.reverse ++ ['y'])
  | 's' :: c :: stem => if c = 's' || c = 'u' then s else String.ofList ((c :: stem).reverse)
  | _ => s

/-- The base name of the models of a field. -/
def baseModelName (responseName : Name) (isList : Bool) : String :=
  capitalize (if isList then singular responseName else responseName)

/-- The name of the model of a shape: its type conditions but the field's own type, then the base
name. -/
def shapeModelName (typeSet : NameSet) (rawType : Name) (baseName : String) : String :=
  String.join ((typeSet.toList.filter (· != rawType)).map capitalize) ++ baseName

/-- The name of the model for what narrower shapes leave of a shape. -/
def otherModelName (shapeName : String) : String := "Other" ++ shapeName

/-! ## Fresh names -/

/-- A name that is not taken: the name itself if it is free, else the name with the first number
from 2 on that makes it free. -/
def freshName (taken : List String) (name : String) : String :=
  if name ∈ taken then
    let candidates := (List.range' 2 (taken.length + 1)).map fun i ↦ name ++ toString i
    (candidates.find? fun candidate ↦ candidate ∉ taken).getD name
  else name

/-- Fresh names for a list of names, each taken once it is given. -/
def freshNames (taken : List String) : List String → List String
  | [] => []
  | name :: rest =>
    let fresh := freshName taken name
    fresh :: freshNames (taken ++ [fresh]) rest

@[simp] theorem length_freshNames (taken names : List String) :
    (freshNames taken names).length = names.length := by
  induction names generalizing taken with
  | nil => rfl
  | cons name rest ih => simp [freshNames, ih]

/-- A model with a name that is unique in its tree. -/
structure FlatModel where
  /-- The address of the model. -/
  id : ModelId
  /-- The name it has among all models of the tree. -/
  name : String
  deriving DecidableEq

/-- Unique names for all models of a tree. -/
def ModelGroup.flatten (g : ModelGroup) : List FlatModel :=
  (g.allModels.zip (freshNames [] (g.allModels.map Model.name))).map fun (m, name) ↦ ⟨m.id, name⟩

end ResponseModels
