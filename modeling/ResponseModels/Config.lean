/-!
# Configuration

What can be chosen about a build.
-/

set_option autoImplicit false

namespace ResponseModels

/-- When `__typename` is added to the field sets that do not select it. -/
inductive TypenamePolicy where
  | never
  /-- For fields whose value can have more than one shape or whose type is an interface or a
  union. -/
  | ifPolymorphic
  | always
  deriving DecidableEq

/-- Whether the policy adds `__typename` to a field. -/
def TypenamePolicy.applies (policy : TypenamePolicy) (polymorphic : Bool) : Bool :=
  match policy with
  | .never => false
  | .ifPolymorphic => polymorphic
  | .always => true

/-- The choices for a build. -/
structure Config where
  /-- When `__typename` is added. -/
  typename : TypenamePolicy := .ifPolymorphic
  /-- Whether fragments get implementation models beside their interface models. -/
  fragmentImplementations : Bool := true
  /-- Whether models get names that are unique over the whole tree of an operation or fragment. -/
  flattenModels : Bool := false
  deriving DecidableEq

end ResponseModels
