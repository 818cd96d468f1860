import ResponseModels.Condition.Simplify
import ResponseModels.Directive
import ResponseModels.Error

/-!
# The condition that directives state

`@skip` and `@include` make a selection conditional. Each contributes one condition, a constant or a
literal, and the selection is included when all of them hold. To state one condition twice on a
selection is an error, and so is an argument that is neither a boolean nor a variable; of several
errors the first in order counts.
-/

set_option autoImplicit false

namespace ResponseModels
namespace Condition

/-- Whether a directive makes its selection conditional, and then whether it inverts its
argument. -/
def inversion? (directive : Name) : Option Bool :=
  if directive = "skip" then some true
  else if directive = "include" then some false
  else none

/-- The condition that one directive states. -/
def ofDirective (d : Directive) (inverted : Bool) : Except Error Condition :=
  match d.argument? "if" with
  | none => .error (.invalidDirectiveArgument d.name "nothing")
  | some (.boolean b) => .ok (if b != inverted then .always else .never)
  | some (.var name) => .ok (.literal name inverted)
  | some value => .error (.invalidDirectiveArgument d.name (value.layout 0))

/-- The conditions that directives state, in order, after those in `found`. -/
def stated (selection : String) : List Directive → List Condition → Except Error (List Condition)
  | [], found => .ok found
  | d :: rest, found =>
    match inversion? d.name with
    | none => stated selection rest found
    | some inverted => do
      let condition ← ofDirective d inverted
      if condition ∈ found then
        .error (.duplicateCondition selection condition.text)
      else
        stated selection rest (found ++ [condition])

/-- The condition under which a selection with these directives is included. The selection is named
in an error about a repeated condition. -/
def ofDirectives (directives : List Directive) (selection : String) : Except Error Condition := do
  let conditions ← stated selection directives []
  return (allOf conditions).simplify

end Condition
end ResponseModels
