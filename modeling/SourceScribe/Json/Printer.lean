import SourceScribe.Json.Value
import SourceScribe.Text.Decimal

/-!
# The text of a JSON value

Two layouts are written: the compact one, without white space, and the
pretty one, which puts every item and every member on a line of its own and
indents it by two spaces. Inside strings only the quote, the backslash and
the control characters are escaped.
-/

namespace SourceScribe.Json

/-- The last two digits of a number to the base sixteen. -/
def twoHexDigits (n : Nat) : List Char := [Nat.digitChar (n / 16), Nat.digitChar (n % 16)]

/-- How one character is written inside a string. -/
def escapeChar (c : Char) : List Char :=
  if c = '"' then ['\\', '"']
  else if c = '\\' then ['\\', '\\']
  else if c = '\x08' then ['\\', 'b']
  else if c = '\x0c' then ['\\', 'f']
  else if c = '\n' then ['\\', 'n']
  else if c = '\r' then ['\\', 'r']
  else if c = '\t' then ['\\', 't']
  else if c.toNat < 0x20 then ['\\', 'u', '0', '0'] ++ twoHexDigits c.toNat
  else [c]

/-- A string between its quotes. -/
def stringChars (text : String) : List Char := '"' :: text.toList.flatMap escapeChar ++ ['"']

/-- The digits of an integer. -/
def integerChars (n : Int) : List Char :=
  if n < 0 then '-' :: Nat.toDigits 10 n.natAbs else Nat.toDigits 10 n.natAbs

/-- The text of a number. -/
def Number.chars : Number → List Char
  | .integer n => integerChars n
  | .float x => (Text.Decimal.ofFloat x).toList

namespace Value

mutual

/-- A value without white space. -/
def compactChars : Value → List Char
  | .null => ['n', 'u', 'l', 'l']
  | .bool true => ['t', 'r', 'u', 'e']
  | .bool false => ['f', 'a', 'l', 's', 'e']
  | .number n => n.chars
  | .string s => stringChars s
  | .array [] => ['[', ']']
  | .array (item :: rest) => '[' :: compactChars item ++ compactItems rest
  | .object [] => ['\x7b', '\x7d']
  | .object ((name, value) :: rest) =>
    '\x7b' :: stringChars name ++ ':' :: compactChars value ++ compactMembers rest

/-- The items after the first, and the closing bracket. -/
def compactItems : List Value → List Char
  | [] => [']']
  | item :: rest => ',' :: compactChars item ++ compactItems rest

/-- The members after the first, and the closing bracket. -/
def compactMembers : List (String × Value) → List Char
  | [] => ['\x7d']
  | (name, value) :: rest =>
    ',' :: stringChars name ++ ':' :: compactChars value ++ compactMembers rest

end

/-- A new line at the given depth. -/
def lineStart (depth : Nat) : List Char := '\n' :: List.replicate (2 * depth) ' '

mutual

/-- A value at the given depth, one item or member a line. -/
def prettyChars (depth : Nat) : Value → List Char
  | .array (item :: rest) =>
    '[' :: lineStart (depth + 1) ++ prettyChars (depth + 1) item ++ prettyItems depth rest
  | .object ((name, value) :: rest) =>
    '\x7b' :: lineStart (depth + 1) ++ stringChars name ++ [':', ' '] ++
      prettyChars (depth + 1) value ++ prettyMembers depth rest
  | .array [] => ['[', ']']
  | .object [] => ['\x7b', '\x7d']
  | .null => ['n', 'u', 'l', 'l']
  | .bool true => ['t', 'r', 'u', 'e']
  | .bool false => ['f', 'a', 'l', 's', 'e']
  | .number n => n.chars
  | .string s => stringChars s

/-- The items after the first, and the closing bracket, of an array at the
given depth. -/
def prettyItems (depth : Nat) : List Value → List Char
  | [] => lineStart depth ++ [']']
  | item :: rest =>
    ',' :: lineStart (depth + 1) ++ prettyChars (depth + 1) item ++ prettyItems depth rest

/-- The members after the first, and the closing bracket, of an object at the
given depth. -/
def prettyMembers (depth : Nat) : List (String × Value) → List Char
  | [] => lineStart depth ++ ['\x7d']
  | (name, value) :: rest =>
    ',' :: lineStart (depth + 1) ++ stringChars name ++ [':', ' '] ++
      prettyChars (depth + 1) value ++ prettyMembers depth rest

end

/-- The compact text of a value. -/
def compact (v : Value) : String := String.ofList v.compactChars

/-- The pretty text of a value. -/
def pretty (v : Value) : String := String.ofList (v.prettyChars 0)

end Value

end SourceScribe.Json
