import ResponseModels.NameSet
import ResponseModels.Text.Block

/-!
# Values

A value is what an argument, a default or a directive can hold. Numbers are kept as the text they
were written with and never converted; an object keeps its entries in order and may repeat a key.

Three printed forms are needed. All write a value the same way but for texts and for the layout of
lists and objects:

* `Value.text`, on one line, for messages;
* `Value.source`, on one line, as it stands in a printed document;
* `Value.layout`, over several lines, for a value printed on its own.
-/

set_option autoImplicit false

namespace ResponseModels

/-- A value as written. -/
inductive Value where
  | null
  | boolean (b : Bool)
  | int (digits : String)
  | float (digits : String)
  | string (content : String)
  | enum (name : Name)
  | var (name : Name)
  | list (items : List Value)
  | object (entries : List (Name × Value))

namespace Value

/-! ## Equality -/

mutual

/-- Whether two values are written alike. -/
def beq : Value → Value → Bool
  | .null, .null => true
  | .boolean a, .boolean b => a == b
  | .int a, .int b => a == b
  | .float a, .float b => a == b
  | .string a, .string b => a == b
  | .enum a, .enum b => a == b
  | .var a, .var b => a == b
  | .list a, .list b => beqItems a b
  | .object a, .object b => beqEntries a b
  | _, _ => false

/-- `beq`, item by item. -/
def beqItems : List Value → List Value → Bool
  | [], [] => true
  | a :: as, b :: bs => beq a b && beqItems as bs
  | _, _ => false

/-- `beq`, entry by entry. -/
def beqEntries : List (Name × Value) → List (Name × Value) → Bool
  | [], [] => true
  | (m, a) :: as, (n, b) :: bs => m == n && beq a b && beqEntries as bs
  | _, _ => false

end

mutual

theorem beq_iff : ∀ a b : Value, beq a b = true ↔ a = b
  | .null, b => by cases b <;> simp [beq]
  | .boolean _, b => by cases b <;> simp [beq]
  | .int _, b => by cases b <;> simp [beq]
  | .float _, b => by cases b <;> simp [beq]
  | .string _, b => by cases b <;> simp [beq]
  | .enum _, b => by cases b <;> simp [beq]
  | .var _, b => by cases b <;> simp [beq]
  | .list items, b => by cases b <;> simp [beq, beqItems_iff items]
  | .object entries, b => by cases b <;> simp [beq, beqEntries_iff entries]

theorem beqItems_iff : ∀ as bs : List Value, beqItems as bs = true ↔ as = bs
  | [], bs => by cases bs <;> simp [beqItems]
  | a :: as, bs => by cases bs <;> simp [beqItems, beq_iff a, beqItems_iff as]

theorem beqEntries_iff : ∀ as bs : List (Name × Value), beqEntries as bs = true ↔ as = bs
  | [], bs => by cases bs <;> simp [beqEntries]
  | (m, a) :: as, bs => by
    cases bs with
    | nil => simp [beqEntries]
    | cons b bs => simp [beqEntries, beq_iff a, beqEntries_iff as, Prod.ext_iff, and_assoc]

end

instance : DecidableEq Value := fun a b ↦ decidable_of_iff _ (beq_iff a b)

/-! ## Variables -/

mutual

/-- The variables a value mentions, in order, once for every mention. -/
def variableNames : Value → List Name
  | .var name => [name]
  | .list items => itemVariables items
  | .object entries => entryVariables entries
  | _ => []

/-- The variables of a list of values. -/
def itemVariables : List Value → List Name
  | [] => []
  | v :: rest => v.variableNames ++ itemVariables rest

/-- The variables of the values of entries. -/
def entryVariables : List (Name × Value) → List Name
  | [] => []
  | (_, v) :: rest => v.variableNames ++ entryVariables rest

end

/-! ## On one line -/

mutual

/-- A value on one line, its texts written as `quoted` says. -/
def inline (quoted : String → String) : Value → String
  | .null => "null"
  | .boolean b => if b then "true" else "false"
  | .int digits | .float digits => digits
  | .string content => quoted content
  | .enum name => name
  | .var name => "$" ++ name
  | .list items => "[" ++ String.intercalate ", " (inlineItems quoted items) ++ "]"
  | .object entries => "\x7b" ++ String.intercalate ", " (inlineEntries quoted entries) ++ "\x7d"

/-- The items of a list, each on one line. -/
def inlineItems (quoted : String → String) : List Value → List String
  | [] => []
  | v :: rest => v.inline quoted :: inlineItems quoted rest

/-- The entries of an object, each on one line. -/
def inlineEntries (quoted : String → String) : List (Name × Value) → List String
  | [] => []
  | (key, v) :: rest => (key ++ ": " ++ v.inline quoted) :: inlineEntries quoted rest

end

/-- A value as messages show it. -/
def text (v : Value) : String := v.inline (Text.quote Text.messageEscape)

/-- A value as it stands in a printed document. -/
def source (v : Value) : String := v.inline (Text.quote Text.documentEscape)

/-! ## Over several lines -/

/-- A text printed on its own: a block string where that loses nothing, quoted otherwise. -/
def layoutString (level : Nat) (content : String) : String :=
  if Text.keepsAsBlock content then Text.block (Text.indentation level) content
  else Text.quote Text.documentEscape content

mutual

/-- A value printed on its own. A list or object that is not empty has every item on a line of its
own, one level deeper and with a comma after it. -/
def layout (level : Nat) : Value → String
  | .string content => layoutString level content
  | .list [] => "[]"
  | .list (v :: rest) =>
    "[" ++ layoutItems (level + 1) (v :: rest) ++ "\n" ++ Text.indentation level ++ "]"
  | .object [] => "\x7b\x7d"
  | .object (e :: rest) =>
    "\x7b" ++ layoutEntries (level + 1) (e :: rest) ++ "\n" ++ Text.indentation level ++ "\x7d"
  | v => v.source

/-- The lines of the items of a list. -/
def layoutItems (level : Nat) : List Value → String
  | [] => ""
  | v :: rest =>
    "\n" ++ Text.indentation level ++ v.layout level ++ "," ++ layoutItems level rest

/-- The lines of the entries of an object. -/
def layoutEntries (level : Nat) : List (Name × Value) → String
  | [] => ""
  | (key, v) :: rest =>
    "\n" ++ Text.indentation level ++ key ++ ": " ++ v.layout level ++ "," ++
      layoutEntries level rest

end

end Value
end ResponseModels
