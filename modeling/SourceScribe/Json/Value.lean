/-!
# JSON values

A value keeps the members of its objects in the order in which they stand,
repeated names included. A number is an integer when it is written without
fraction and exponent and fits into 64 bits, signed or unsigned, and a binary
floating point number otherwise.
-/

namespace SourceScribe.Json

/-- A number: whole, or with a fraction, an exponent or too many digits. -/
inductive Number where
  /-- A whole number that fits into 64 bits. -/
  | integer (value : Int)
  /-- Any other number. -/
  | float (value : Float)

/-- A value. -/
inductive Value where
  /-- The value `null`. -/
  | null
  /-- A truth value. -/
  | bool (value : Bool)
  /-- A number. -/
  | number (value : Number)
  /-- A string. -/
  | string (value : String)
  /-- An array. -/
  | array (items : List Value)
  /-- An object, with its members in order. -/
  | object (members : List (String × Value))

namespace Value

/-- A natural number as a value. -/
def ofNat (n : Nat) : Value := .number (.integer n)

/-- A value that may be absent: absent is `null`. -/
def ofOption (write : α → Value) : Option α → Value
  | none => .null
  | some a => write a

/-- Whether the value is a number. -/
def isNumber : Value → Bool
  | .number _ => true
  | _ => false

end Value

/-- A member that is left out when it is absent. -/
def optionalMember (name : String) (write : α → Value) : Option α → List (String × Value)
  | none => []
  | some a => [(name, write a)]

end SourceScribe.Json
