import ResponseModels.Document

/-!
# The printed form of documents

Operations and fragments are printed with two spaces of indentation per level. Only selection sets
span lines; everything else, values included, stands on one line. A field without selections has no
braces; any other selection set that is empty prints an empty pair of them.
-/

set_option autoImplicit false

namespace ResponseModels

mutual

/-- A selection, its own selections one level deeper than `level`. -/
def Selection.source (level : Nat) : Selection → String
  | .field head selections =>
    (match head.alias? with
      | some name => name ++ ": "
      | none => "") ++
    head.name ++ Directive.argumentsSource head.arguments ++ Directive.source head.directives ++
    (match selections with
      | [] => ""
      | s :: rest =>
        " \x7b" ++ Selection.lines (level + 1) (s :: rest) ++ "\n" ++
          Text.indentation level ++ "\x7d")
  | .inline typeCondition directives selections =>
    "..." ++
    (match typeCondition with
      | some type => " on " ++ type
      | none => "") ++
    Directive.source directives ++ " " ++
    (match selections with
      | [] => "\x7b\x7d"
      | s :: rest =>
        "\x7b" ++ Selection.lines (level + 1) (s :: rest) ++ "\n" ++
          Text.indentation level ++ "\x7d")
  | .spread fragment directives => "..." ++ fragment ++ Directive.source directives

/-- Selections, each on a line of its own. -/
def Selection.lines (level : Nat) : List Selection → String
  | [] => ""
  | s :: rest => "\n" ++ Text.indentation level ++ s.source level ++ Selection.lines level rest

end

/-- A selection set in braces, at the outermost level. -/
def Selection.setSource (selections : List Selection) : String :=
  if selections.isEmpty then "\x7b\x7d" else "\x7b" ++ Selection.lines 1 selections ++ "\n\x7d"

/-- A variable as an operation declares it. -/
def VariableDefinition.source (v : VariableDefinition) : String :=
  "$" ++ v.name ++ ": " ++ v.type.text ++
  (match v.default with
    | some value => " = " ++ value.source
    | none => "") ++
  Directive.source v.directives

/-- The printed form of an operation. -/
def Operation.source (o : Operation) : String :=
  o.kind.text ++ " " ++ o.name.getD "" ++
  (if o.variableDefinitions.isEmpty then ""
    else "(" ++
      String.intercalate ", " (o.variableDefinitions.map VariableDefinition.source) ++ ")") ++
  Directive.source o.directives ++ " " ++ Selection.setSource o.selections

/-- The printed form of a fragment. -/
def Fragment.source (f : Fragment) : String :=
  "fragment " ++ f.name ++ " on " ++ f.typeCondition ++ Directive.source f.directives ++ " " ++
  Selection.setSource f.selections

end ResponseModels
