import ResponseModels.Text.Quoted

/-!
# Block strings

A text of several lines can be written in a document as a block string: between two lines of three
double quotes, line by line, each line indented. Reading a block string removes the indentation that
its lines share and the blank lines at either end, so not every text survives; `keepsAsBlock` says
which do.
-/

set_option autoImplicit false

namespace ResponseModels
namespace Text

/-- The lines of a text: what stands between its newlines. There is always at least one. -/
def lines : List Char → List (List Char)
  | [] => [[]]
  | c :: rest =>
    if c = '\n' then [] :: lines rest
    else match lines rest with
      | [] => [[c]]
      | line :: others => (c :: line) :: others

/-- Spaces and tabs indent a line. -/
def isIndent (c : Char) : Bool := c == ' ' || c == '\t'

/-- Whether a line holds nothing but indentation. -/
def isBlankLine (line : List Char) : Bool := line.all isIndent

/-- Whether a line that is not blank starts without indentation. -/
def startsFlush : List Char → Bool
  | [] => false
  | c :: _ => !isIndent c

/-- Whether a text of several lines reads back unchanged from a block string: it has no carriage
return, its first and last lines are not blank, and some line starts without indentation. -/
def keepsAsBlock (s : String) : Bool :=
  let ls := lines s.toList
  s.toList.contains '\n' && !s.toList.contains '\r'
    && !(ls.head?.any isBlankLine) && !(ls.getLast?.any isBlankLine) && ls.any startsFlush

/-- Three double quotes in a row, which would end the block, are written with a backslash in
front. -/
def escapeBlockQuotes : List Char → List Char
  | '"' :: '"' :: '"' :: rest => '\\' :: '"' :: '"' :: '"' :: escapeBlockQuotes rest
  | c :: rest => c :: escapeBlockQuotes rest
  | [] => []

/-- A text as a block string at an indentation. An empty line is not indented. -/
def block (indentation : String) (s : String) : String :=
  let written := (lines s.toList).map fun line ↦
    if line.isEmpty then "\n" else "\n" ++ indentation ++ String.ofList (escapeBlockQuotes line)
  "\"\"\"" ++ String.join written ++ "\n" ++ indentation ++ "\"\"\""

/-- The indentation of a level: two spaces each. -/
def indentation (level : Nat) : String :=
  String.ofList (List.replicate (2 * level) ' ')

end Text
end ResponseModels
