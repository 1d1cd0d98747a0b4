import SourceScribe.Json.Decode

/-!
# Values of a given type

A value that has already been read is taken as a string, a truth value, an
unsigned integer, one of several names, or a record. A reason found this way
has no place.
-/

namespace SourceScribe.Json.Value

/-- Refuses the value because another type is expected. -/
def refuse (v : Value) (expected : String) : Except Reason α := .error (.wrongType v.found expected)

/-- The value as a string; the second argument says what the string is. -/
def toText (expected : String) : Value → Except Reason String
  | .string s => .ok s
  | v => v.refuse expected

/-- The value as a truth value. -/
def toBool : Value → Except Reason Bool
  | .bool b => .ok b
  | v => v.refuse "a boolean"

/-- The value as an unsigned integer. -/
def toWord (w : WordSize) : Value → Except Reason Nat
  | .number n => n.toWord w
  | v => v.refuse w.name

/-- The value unless it is `null`. -/
def toNullable (read : Value → Except Reason α) : Value → Except Reason (Option α)
  | .null => .ok none
  | v => some <$> read v

/-- The choice of a name. -/
def chosen (choices : List (String × α)) (name : String) : Except Reason α :=
  match choices.lookup name with
  | some a => .ok a
  | none => .error (.unknownChoice name (choices.map Prod.fst))

/-- One of several names: as a string, or as the only member of an object
whose value is empty. -/
def toChoice (choices : List (String × α)) : Value → Except Reason α
  | .string name => chosen choices name
  | .object [(name, content)] => do
    let a ← chosen choices name
    match content with
    | .null => .ok a
    | .object [] => .ok a
    | v => v.refuse "unit"
  | .object _ => .error (.wrongValue .object "map with a single key")
  | v => v.refuse "string or map"

end SourceScribe.Json.Value
