import ResponseModels.Value

/-!
# Directives

A directive is a name with arguments, attached to something in a schema or a document. Nothing
forbids a name that means nothing here, an argument that is missing or one that is given twice: the
first argument of a name counts, and directives that are not asked for are passed over.
-/

set_option autoImplicit false

namespace ResponseModels

/-- A directive as written. -/
structure Directive where
  /-- The name, without the sign in front. -/
  name : Name
  /-- The arguments in the order they are written in. -/
  arguments : List (Name × Value)
  deriving DecidableEq

namespace Directive

/-- The value of the first argument of a name. -/
def argument? (d : Directive) (name : Name) : Option Value :=
  (d.arguments.find? fun a ↦ a.1 == name).map Prod.snd

/-- The reason that a deprecation gives when it gives none. -/
def defaultReason : String := "No longer supported"

/-- Why the carrier of these directives is deprecated, if it is. -/
def deprecation? (directives : List Directive) : Option String :=
  (directives.find? fun d ↦ d.name == "deprecated").map fun d ↦
    match d.argument? "reason" with
    | some (.string reason) => reason
    | _ => defaultReason

/-- The written form of arguments: in parentheses, or nothing when there are none. -/
def argumentsSource (arguments : List (Name × Value)) : String :=
  if arguments.isEmpty then ""
  else "(" ++ String.intercalate ", " (arguments.map fun a ↦ a.1 ++ ": " ++ a.2.source) ++ ")"

/-- The written form of directives, a space before each. -/
def source (directives : List Directive) : String :=
  String.join (directives.map fun d ↦ " @" ++ d.name ++ argumentsSource d.arguments)

end Directive
end ResponseModels
