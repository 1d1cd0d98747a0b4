import SourceScribe.Text.Blank
import SourceScribe.Json.Typed

/-!
# Operators, literal types and modifiers

Operators are named by their symbols and literal types by their names.
Modifiers are a set of flags in eight bits, of which the lowest two have
names; the others have no meaning and are kept.
-/

namespace SourceScribe

/-- Operators between two operands. -/
inductive BinaryOperator where
  /-- Addition. -/
  | plus
  /-- Subtraction. -/
  | minus
  /-- Multiplication. -/
  | multiply
  /-- Division. -/
  | divide
  /-- Remainder. -/
  | modulo
  /-- Exponentiation. -/
  | power
  /-- Equality. -/
  | equals
  /-- Inequality. -/
  | notEquals
  /-- Greater than. -/
  | greater
  /-- Greater than or equal. -/
  | greaterEquals
  /-- Lower than. -/
  | lower
  /-- Lower than or equal. -/
  | lowerEquals
  /-- Conjunction. -/
  | and
  /-- Disjunction. -/
  | or
deriving DecidableEq, Repr

/-- The symbol of an operator. -/
def BinaryOperator.symbol : BinaryOperator → String
  | .plus => "+"
  | .minus => "-"
  | .multiply => "*"
  | .divide => "/"
  | .modulo => "%"
  | .power => "^"
  | .equals => "=="
  | .notEquals => "!="
  | .greater => ">"
  | .greaterEquals => ">="
  | .lower => "<"
  | .lowerEquals => "<="
  | .and => "&&"
  | .or => "||"

/-- Every operator, in declared order. -/
def BinaryOperator.all : List BinaryOperator :=
  [.plus, .minus, .multiply, .divide, .modulo, .power, .equals, .notEquals, .greater,
    .greaterEquals, .lower, .lowerEquals, .and, .or]

/-- Operators in front of one operand. -/
inductive UnaryOperator where
  /-- Negation of a truth value. -/
  | not
  /-- Negation of a number. -/
  | minus
  /-- The sign that changes nothing. -/
  | plus
deriving DecidableEq, Repr

/-- The symbol of an operator. -/
def UnaryOperator.symbol : UnaryOperator → String
  | .not => "!"
  | .minus => "-"
  | .plus => "+"

/-- Every operator, in declared order. -/
def UnaryOperator.all : List UnaryOperator := [.not, .minus, .plus]

/-- The types of literals. -/
inductive LiteralType where
  /-- Text. -/
  | string
  /-- Whole numbers. -/
  | int
  /-- Numbers with a fraction. -/
  | float
  /-- Truth values. -/
  | boolean
  /-- The absent value. -/
  | null
deriving DecidableEq, Repr

/-- The name of a literal type. -/
def LiteralType.name : LiteralType → String
  | .string => "string"
  | .int => "int"
  | .float => "float"
  | .boolean => "boolean"
  | .null => "null"

/-- Every literal type, in declared order. -/
def LiteralType.all : List LiteralType := [.string, .int, .float, .boolean, .null]

/-- What stands in front of a definition: a set of flags. -/
structure Modifiers where
  /-- The flags, one a bit. -/
  bits : UInt8
deriving DecidableEq, Repr

namespace Modifiers

/-- No flag. -/
def empty : Modifiers := ⟨0⟩

/-- Visible outside its package. -/
def isPublic : Modifiers := ⟨1⟩

/-- Defined outside the language. -/
def isNative : Modifiers := ⟨2⟩

/-- The flags of either set. -/
def union (a b : Modifiers) : Modifiers := ⟨a.bits ||| b.bits⟩

/-- The flags of the first set that are not in the second. -/
def without (a b : Modifiers) : Modifiers := ⟨a.bits &&& ~~~b.bits⟩

/-- Whether every flag of the second set is in the first. -/
def contains (a b : Modifiers) : Bool := a.bits &&& b.bits == b.bits

/-- The flags that have names, in declared order. -/
def named : List (String × Modifiers) := [("PUBLIC", isPublic), ("NATIVE", isNative)]

/-- The flags as a text: the names of the set ones, then the bits that have
no name as a number to the base sixteen, with bars between them. -/
def text (m : Modifiers) : String :=
  let names := (named.filter fun flag => m.contains flag.2).map Prod.fst
  let others := m.without (isPublic.union isNative)
  let number :=
    if others = empty then []
    else ["0x" ++ String.ofList (Nat.toDigits 16 others.bits.toNat)]
  String.intercalate " | " (names ++ number)

/-- How a message shows the flags. -/
def describe (m : Modifiers) : String :=
  "Modifiers(" ++ (if m = empty then "0x0" else m.text) ++ ")"

/-- The number that digits to the base sixteen write, a plus sign in front of
them allowed, if it fits into eight bits. -/
def ofHex? (text : List Char) : Option UInt8 := do
  let digits := match text with
    | '+' :: rest => rest
    | digits => digits
  if digits.isEmpty then failure
  let n ← digits.foldlM (fun n c => return n * 16 + (← Json.hexDigit? c)) 0
  if n < 256 then pure (UInt8.ofNat n) else failure

/-- The flag of one name or number. -/
def ofFlag (flag : String) : Except Json.Reason Modifiers :=
  match flag.toList with
  | [] => .error .emptyFlag
  | '0' :: 'x' :: digits =>
    match ofHex? digits with
    | some bits => .ok ⟨bits⟩
    | none => .error .invalidFlagNumber
  | _ =>
    match named.lookup flag with
    | some m => .ok m
    | none => .error .unknownFlag

/-- Reads flags with bars between them; blank text is no flag. -/
def ofText (text : String) : Except Json.Reason Modifiers :=
  if (Text.trim text).isEmpty then .ok empty
  else
    (text.toList.splitOn '|').foldlM
      (fun m flag => return m.union (← ofFlag (Text.trim (String.ofList flag)))) empty

end Modifiers

end SourceScribe
