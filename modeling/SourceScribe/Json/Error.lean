import SourceScribe.Json.Value
import SourceScribe.Text.Decimal
import SourceScribe.Text.Shown

/-!
# Why a JSON text is refused

A reason is either a fault of the text, or a value that does not have the
type, the range, the members or the spelling that its reader asks for. An
error is a reason together with the place to which the reader had come, if
that is known: its line from one on, and the number of bytes that precede it
in that line.
-/

namespace SourceScribe.Json

/-- What stands where something else is asked for. -/
inductive Found where
  /-- The value `null`. -/
  | null
  /-- A truth value. -/
  | bool (value : Bool)
  /-- A number. -/
  | number (value : Number)
  /-- A string. -/
  | string (value : String)
  /-- An array. -/
  | array
  /-- An object. -/
  | object

/-- What a value is found to be. -/
def Value.found : Value → Found
  | .null => .null
  | .bool b => .bool b
  | .number n => .number n
  | .string s => .string s
  | .array _ => .array
  | .object _ => .object

/-- A text between back quotes. -/
def backQuoted (text : String) : String := "`" ++ text ++ "`"

/-- How a message names what it found. -/
def Found.describe : Found → String
  | .null => "null"
  | .bool b => "boolean " ++ backQuoted (if b then "true" else "false")
  | .number (.integer n) => "integer " ++ backQuoted (toString n)
  | .number (.float x) => "floating point " ++ backQuoted (Text.Decimal.ofFloat x)
  | .string s => "string " ++ Text.Shown.quote s
  | .array => "sequence"
  | .object => "map"

/-- Why a text or a value is refused. -/
inductive Reason where
  /-- The text ends inside an array. -/
  | endInList
  /-- The text ends inside an object. -/
  | endInObject
  /-- The text ends inside a string. -/
  | endInString
  /-- The text ends where a value should stand. -/
  | endInValue
  /-- No colon follows the name of a member. -/
  | expectedColon
  /-- Neither comma nor bracket follows an item. -/
  | expectedListEnd
  /-- Neither comma nor brace follows a member. -/
  | expectedObjectEnd
  /-- A word that is none of `null`, `true` and `false`. -/
  | expectedWord
  /-- No value can start with this character. -/
  | expectedValue
  /-- A backslash is not followed by an escape. -/
  | invalidEscape
  /-- A number is not written as one. -/
  | invalidNumber
  /-- A number is too large. -/
  | numberOutOfRange
  /-- A control character stands inside a string. -/
  | controlCharacter
  /-- The name of a member is not a string. -/
  | keyNotString
  /-- Half of a surrogate pair stands alone. -/
  | loneSurrogate
  /-- The second half of a surrogate pair is missing. -/
  | endOfHexEscape
  /-- A comma is followed by the closing bracket. -/
  | trailingComma
  /-- Something follows a value that should be the last. -/
  | trailingCharacters
  /-- Values are nested too deeply. -/
  | recursionLimit
  /-- A value has another type than the expected one. -/
  | wrongType (found : Found) (expected : String)
  /-- A value has the expected type and is out of range. -/
  | wrongValue (found : Found) (expected : String)
  /-- An array has another length than the expected one. -/
  | wrongLength (length : Nat) (expected : String)
  /-- A member is missing. -/
  | missingMember (name : String)
  /-- A member stands there twice. -/
  | repeatedMember (name : String)
  /-- A name is none of the choices. -/
  | unknownChoice (name : String) (choices : List String)
  /-- Nothing stands between two bars of a list of flags. -/
  | emptyFlag
  /-- A flag has no known name. -/
  | unknownFlag
  /-- A flag is not a number to the base sixteen. -/
  | invalidFlagNumber

/-- How a message lists the choices. -/
def describeChoices : List String → String
  | [] => "there are no variants"
  | [a] => "expected " ++ backQuoted a
  | [a, b] => "expected " ++ backQuoted a ++ " or " ++ backQuoted b
  | choices => "expected one of " ++ String.intercalate ", " (choices.map backQuoted)

/-- The wording of a reason. -/
def Reason.message : Reason → String
  | .endInList => "EOF while parsing a list"
  | .endInObject => "EOF while parsing an object"
  | .endInString => "EOF while parsing a string"
  | .endInValue => "EOF while parsing a value"
  | .expectedColon => "expected `:`"
  | .expectedListEnd => "expected `,` or `]`"
  | .expectedObjectEnd => "expected `,` or `\x7d`"
  | .expectedWord => "expected ident"
  | .expectedValue => "expected value"
  | .invalidEscape => "invalid escape"
  | .invalidNumber => "invalid number"
  | .numberOutOfRange => "number out of range"
  | .controlCharacter => "control character (\\u0000-\\u001F) found while parsing a string"
  | .keyNotString => "key must be a string"
  | .loneSurrogate => "lone leading surrogate in hex escape"
  | .endOfHexEscape => "unexpected end of hex escape"
  | .trailingComma => "trailing comma"
  | .trailingCharacters => "trailing characters"
  | .recursionLimit => "recursion limit exceeded"
  | .wrongType found expected => "invalid type: " ++ found.describe ++ ", expected " ++ expected
  | .wrongValue found expected => "invalid value: " ++ found.describe ++ ", expected " ++ expected
  | .wrongLength length expected =>
    "invalid length " ++ toString length ++ ", expected " ++ expected
  | .missingMember name => "missing field " ++ backQuoted name
  | .repeatedMember name => "duplicate field " ++ backQuoted name
  | .unknownChoice name choices =>
    "unknown variant " ++ backQuoted name ++ ", " ++ describeChoices choices
  | .emptyFlag => "encountered empty flag"
  | .unknownFlag => "unrecognized named flag"
  | .invalidFlagNumber => "invalid hex flag"

/-- A place in a text. -/
structure Position where
  /-- The line, from one on. -/
  line : Nat
  /-- The number of bytes in front of the place in its line. -/
  column : Nat
deriving DecidableEq, Repr

/-- A reason and the place where it was found, if known. -/
structure Error where
  /-- Why the text is refused. -/
  reason : Reason
  /-- The place to which reading had come. -/
  position : Option Position

/-- The wording of an error. -/
def Error.message (e : Error) : String :=
  match e.position with
  | none => e.reason.message
  | some p =>
    e.reason.message ++ " at line " ++ toString p.line ++ " column " ++ toString p.column

end SourceScribe.Json
