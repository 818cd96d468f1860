import ResponseModels.Condition.Basic

/-!
# Simplifying and combining conditions

`Condition.simplify` brings a condition into its canonical form. Bottom up, each junction of
simplified operands is reduced by `Junction.reduce`, in one pass:

* an operand that decides the junction (`never` in a conjunction) is the result;
* operands that have no effect (`always` in a conjunction) are left out, and operands that are
  junctions of the same kind are replaced by their own operands;
* a literal beside its inversion decides the junction too;
* an operand of the other kind that another operand already accounts for is left out: in
  `a || (a && b)` the conjunction adds nothing;
* what is left stands for itself if it is a single operand.

Absorption is decided for all operands against the whole set before any is removed, which is safe
because something that absorbs an absorbed operand absorbs all that the operand absorbs.

`Condition.and`, `Condition.or` and `Condition.not` combine and simplify.
-/

set_option autoImplicit false

namespace ResponseModels

namespace Junction

/-- The other way of joining. -/
def dual : Junction → Junction
  | .all => .any
  | .any => .all

/-- The operand that has no effect. -/
def identity : Junction → Condition
  | .all => .always
  | .any => .never

/-- The operand that decides the result on its own. -/
def annihilator : Junction → Condition
  | .all => .never
  | .any => .always

/-- What an operand contributes to a junction: nothing if it has no effect, its own operands if it
is a junction of the same kind, itself otherwise. -/
def spliced (j : Junction) (c : Condition) : List Condition :=
  match c with
  | .junction k operands => if k = j then operands else [c]
  | c => if c = j.identity then [] else [c]

/-- Whether some literal stands beside its inversion. -/
def hasComplements (operands : List Condition) : Bool :=
  operands.any fun
    | .literal name inverted => decide (.literal name (!inverted) ∈ operands)
    | _ => false

/-- Whether `other` makes `operand` superfluous in a junction: `operand` is of the other kind and
has `other` among its operands, or has all the operands of `other` if that is of the other kind
too. -/
def absorbs (j : Junction) (other operand : Condition) : Bool :=
  match operand with
  | .junction k inner =>
    k != j && other != operand &&
      match other with
      | .junction k' inner' => if k' = j then inner.contains other else inner'.all inner.contains
      | _ => inner.contains other
  | _ => false

/-- The operands that no other operand makes superfluous. -/
def unabsorbed (j : Junction) (operands : List Condition) : List Condition :=
  operands.filter fun operand ↦ !operands.any fun other ↦ j.absorbs other operand

/-- A junction with as little around its operands as their number needs. -/
def join (j : Junction) : List Condition → Condition
  | [] => j.identity
  | [c] => c
  | operands => .junction j operands

/-- The canonical form of a junction whose operands are canonical. -/
def reduce (j : Junction) (operands : List Condition) : Condition :=
  if j.annihilator ∈ operands then j.annihilator
  else
    let flat := Ascending.ofList (operands.flatMap j.spliced)
    if hasComplements flat then j.annihilator else j.join (j.unabsorbed flat)

end Junction

namespace Condition

mutual

/-- The canonical form of a condition. -/
def simplify : Condition → Condition
  | .junction kind operands => kind.reduce (simplifyEach operands)
  | c => c

/-- The canonical forms of conditions. -/
def simplifyEach : List Condition → List Condition
  | [] => []
  | c :: rest => c.simplify :: simplifyEach rest

end

theorem simplifyEach_eq_map (l : List Condition) : simplifyEach l = l.map simplify := by
  induction l with
  | nil => rfl
  | cons c rest ih => rw [simplifyEach, ih, List.map_cons]

/-- Both conditions hold. -/
def and (a b : Condition) : Condition := (allOf [a, b]).simplify

/-- One of the conditions holds. -/
def or (a b : Condition) : Condition := (anyOf [a, b]).simplify

mutual

/-- The negation, pushed down to the literals. -/
def negated : Condition → Condition
  | .always => .never
  | .never => .always
  | .literal name inverted => .literal name (!inverted)
  | .junction kind operands => .junction kind.dual (Ascending.ofList (negatedEach operands))

/-- The negations of conditions. -/
def negatedEach : List Condition → List Condition
  | [] => []
  | c :: rest => c.negated :: negatedEach rest

end

theorem negatedEach_eq_map (l : List Condition) : negatedEach l = l.map negated := by
  induction l with
  | nil => rfl
  | cons c rest ih => rw [negatedEach, ih, List.map_cons]

/-- The condition does not hold. -/
def not (c : Condition) : Condition := c.negated.simplify

/-- Whether a condition is the one that holds always. -/
def isAlways : Condition → Bool
  | .always => true
  | _ => false

/-- Whether a condition is the one that never holds. -/
def isNever : Condition → Bool
  | .never => true
  | _ => false

end Condition
end ResponseModels
