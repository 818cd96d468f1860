import ResponseModels.Text.Printable

/-!
# Quoted text

A text is quoted by putting it in double quotes and writing every character as an *escape* says.
There are two ways of escaping:

* in a message (`messageEscape`) every character that does not print is written by its code point,
  so that the reader sees what is there;
* in a document (`documentEscape`) only what would end the quotation, break the line or be a control
  character is escaped, with the escapes the document language has.
-/

set_option autoImplicit false

namespace ResponseModels
namespace Text

/-- A text in double quotes, each character written as `escape` says. -/
def quote (escape : Char → String) (s : String) : String :=
  "\"" ++ String.join (s.toList.map escape) ++ "\""

/-- Hexadecimal digits, lower case, without leading zeros. -/
def hexDigits (n : Nat) : String :=
  String.ofList (Nat.toDigits 16 n)

/-- Four upper case hexadecimal digits, or more when four do not suffice. -/
def hexDigits4 (n : Nat) : String :=
  let digits := (Nat.toDigits 16 n).map Char.toUpper
  String.ofList (List.replicate (4 - digits.length) '0' ++ digits)

/-- How a character is written in a message. -/
def messageEscape (c : Char) : String :=
  if c = '"' then "\\\""
  else if c = '\\' then "\\\\"
  else if c = '\n' then "\\n"
  else if c = '\r' then "\\r"
  else if c = '\t' then "\\t"
  else if c = '\x00' then "\\0"
  else if isPrintable c then String.singleton c
  else "\\u\x7b" ++ hexDigits c.toNat ++ "\x7d"

/-- How a character is written in a document. The tab is written as it is. -/
def documentEscape (c : Char) : String :=
  if c = '"' then "\\\""
  else if c = '\\' then "\\\\"
  else if c = '\x08' then "\\b"
  else if c = '\n' then "\\n"
  else if c = '\x0c' then "\\f"
  else if c = '\r' then "\\r"
  else if c.toNat < 0x20 && c != '\t' then "\\u" ++ hexDigits4 c.toNat
  else String.singleton c

end Text
end ResponseModels
