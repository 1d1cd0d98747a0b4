import SourceScribe.Json.Cursor

/-!
# Strings and numbers

The inside of a string is read after its opening quote and up to its closing
quote. A number that is not a 64 bit integer is computed from as many of its
digits as fit into 64 bits and a power of ten, in floating point arithmetic.
-/

namespace SourceScribe.Json

/-- The value of a digit to the base sixteen. -/
def hexDigit? (c : Char) : Option Nat :=
  if c.isDigit then some (c.toNat - '0'.toNat)
  else if 'a' ≤ c && c ≤ 'f' then some (c.toNat - 'a'.toNat + 10)
  else if 'A' ≤ c && c ≤ 'F' then some (c.toNat - 'A'.toNat + 10)
  else none

/-- The number that four digits to the base sixteen write. -/
def hexFour? (a b c d : Char) : Option Nat := do
  return (((← hexDigit? a) * 16 + (← hexDigit? b)) * 16 + (← hexDigit? c)) * 16 + (← hexDigit? d)

/-- The character that a backslash and the given character stand for. -/
def plainEscape? : Char → Option Char
  | '"' => some '"'
  | '\\' => some '\\'
  | '/' => some '/'
  | 'b' => some '\x08'
  | 'f' => some '\x0c'
  | 'n' => some '\n'
  | 'r' => some '\r'
  | 't' => some '\t'
  | _ => none

/-- The first half of a surrogate pair. -/
def isLeading (unit : Nat) : Bool := 0xD800 ≤ unit && unit ≤ 0xDBFF

/-- The second half of a surrogate pair. -/
def isFollower (unit : Nat) : Bool := 0xDC00 ≤ unit && unit ≤ 0xDFFF

/-- The character of a surrogate pair. -/
def pairChar (leading follower : Nat) : Char :=
  Char.ofNat ((leading - 0xD800) * 1024 + (follower - 0xDC00) + 0x10000)

/-- The error of four characters after `\u` that are no hexadecimal number:
the text ends among their four bytes, or the escape is invalid. -/
def hexError (rest : List Char) (p : Position) : Error :=
  match p.afterBytes 4 rest with
  | none => ⟨.endInString, some (p.afterAll rest)⟩
  | some q => ⟨.invalidEscape, some q⟩

/-- The error of a backslash in front of something that is no escape. -/
def escapeError (rest : List Char) (p : Position) : Error :=
  match rest with
  | [] => ⟨.endInString, some p⟩
  | _ :: _ => ⟨.invalidEscape, some (Cursor.mk rest p).ahead⟩

/-- The error of the first half of a surrogate pair that no second half
follows. -/
def pairError (rest : List Char) (p : Position) : Error :=
  match rest with
  | [] => ⟨.endInString, some p⟩
  | ['\\'] => ⟨.endInString, some (p.across 1)⟩
  | '\\' :: 'u' :: more =>
    match more with
    | a :: b :: c :: d :: _ =>
      if (hexFour? a b c d).isSome then ⟨.loneSurrogate, some (p.across 6)⟩
      else hexError more (p.across 2)
    | _ => hexError more (p.across 2)
  | '\\' :: more => ⟨.endOfHexEscape, some (Cursor.mk more (p.across 1)).ahead⟩
  | _ => ⟨.endOfHexEscape, some (Cursor.mk rest p).ahead⟩

/-- Reads the inside of a string; what has been read stands in reverse. -/
def scanString : List Char → Position → List Char → Except Error (String × Cursor)
  | [], p, _ => .error ⟨.endInString, some p⟩
  | '"' :: rest, p, done => .ok (String.ofList done.reverse, ⟨rest, p.across 1⟩)
  | '\\' :: 'u' :: rest, p, done =>
    match rest with
    | a :: b :: c :: d :: after =>
      match hexFour? a b c d with
      | none => .error (hexError rest (p.across 2))
      | some unit =>
        if isFollower unit then .error ⟨.loneSurrogate, some (p.across 6)⟩
        else if isLeading unit then
          match after with
          | '\\' :: 'u' :: e :: f :: g :: h :: more =>
            match hexFour? e f g h with
            | some second =>
              if isFollower second then
                scanString more (p.across 12) (pairChar unit second :: done)
              else .error (pairError after (p.across 6))
            | none => .error (pairError after (p.across 6))
          | _ => .error (pairError after (p.across 6))
        else scanString after (p.across 6) (Char.ofNat unit :: done)
    | _ => .error (hexError rest (p.across 2))
  | '\\' :: c :: rest, p, done =>
    match plainEscape? c with
    | some e => scanString rest (p.across 2) (e :: done)
    | none => .error (escapeError (c :: rest) (p.across 1))
  | ['\\'], p, _ => .error (escapeError [] (p.across 1))
  | c :: rest, p, done =>
    if c.toNat < 0x20 then .error ⟨.controlCharacter, some (p.after c)⟩
    else scanString rest (p.after c) (c :: done)

/-- Goes over the inside of a string without asking what its escapes mean. -/
def passString : List Char → Position → Except Error Cursor
  | [], p => .error ⟨.endInString, some p⟩
  | '"' :: rest, p => .ok ⟨rest, p.across 1⟩
  | '\\' :: 'u' :: rest, p =>
    match rest with
    | a :: b :: c :: d :: after =>
      match hexFour? a b c d with
      | some _ => passString after (p.across 6)
      | none => .error (hexError rest (p.across 2))
    | _ => .error (hexError rest (p.across 2))
  | '\\' :: c :: rest, p =>
    match plainEscape? c with
    | some _ => passString rest (p.across 2)
    | none => .error (escapeError (c :: rest) (p.across 1))
  | ['\\'], p => .error (escapeError [] (p.across 1))
  | c :: rest, p =>
    if c.toNat < 0x20 then .error ⟨.controlCharacter, some p⟩
    else passString rest (p.after c)

namespace Decoder

/-- A string whose opening quote has been read. -/
def stringBody : Decoder String := fun c =>
  match scanString c.rest c.position [] with
  | .ok (text, after) => .ok (text, after)
  | .error e => .error (.final e)

/-- Goes over a string whose opening quote has been read. -/
def passStringBody : Decoder Unit := fun c =>
  match passString c.rest c.position with
  | .ok after => .ok ((), after)
  | .error e => .error (.final e)

end Decoder

/-- The least number that does not fit into 64 bits. -/
def wordBound : Nat := Nat.pow 2 64

/-- Appends digits to a number while it fits into 64 bits; the second part
counts the digits that were left out. -/
def absorb : Nat → List Char → Nat × Nat
  | n, [] => (n, 0)
  | n, c :: rest =>
    let more := n * 10 + (c.toNat - '0'.toNat)
    if more < wordBound then absorb more rest else (n, rest.length + 1)

/-- A power of ten in floating point, up to the greatest. -/
def tenPower (n : Nat) : Float := Float.ofScientific 1 false n

/-- A number times a power of ten, or nothing when it is too large. -/
def scaled? (significand : Nat) (exponent : Int) : Option Float :=
  let x := (UInt64.ofNat significand).toFloat
  let n := exponent.natAbs
  if 0 ≤ exponent then
    if n ≤ 308 then
      let y := x * tenPower n
      if y.isInf then none else some y
    else if significand = 0 then some x
    else none
  else if n ≤ 308 then some (x / tenPower n)
  else if n ≤ 616 then some (x / tenPower 308 / tenPower (n - 308))
  else some 0.0

/-- The number of digits after which an exponent no longer fits into 31 bits. -/
def exponentOverflow? : Nat → Nat → List Char → Option Nat
  | _, _, [] => none
  | read, n, c :: rest =>
    let more := n * 10 + (c.toNat - '0'.toNat)
    if more < Nat.pow 2 31 then exponentOverflow? (read + 1) more rest else some (read + 1)

/-- The value of decimal digits. -/
def digitsValue (text : List Char) : Nat :=
  text.foldl (fun n c => n * 10 + (c.toNat - '0'.toNat)) 0

namespace Decoder

/-- The floating point number of a sign, a significand and a power of ten. -/
def floating (negative : Bool) (significand : Nat) (exponent : Int) : Decoder Number := do
  match scaled? significand exponent with
  | some x => pure (.float (if negative then -x else x))
  | none => failHere .numberOutOfRange

/-- The exponent of a number, from its letter on. -/
def exponentPart (negative : Bool) (significand : Nat) (start : Int) : Decoder Number := do
  advance
  let sign ← peek?
  if sign = some '+' || sign = some '-' then advance
  let down := sign = some '-'
  match ← peek? with
  | none => failHere .endInValue
  | some c =>
    if !c.isDigit then failAhead .invalidNumber
    else
      let place ← get
      let text ← digits
      match exponentOverflow? 0 0 text with
      | some read =>
        if significand != 0 && !down then
          fun _ => .error (.final ⟨.numberOutOfRange, some (place.position.across read)⟩)
        else pure (.float (if negative then -0.0 else 0.0))
      | none =>
        let power : Int := digitsValue text
        floating negative significand (if down then start - power else start + power)

/-- The digits after the decimal point, from the point on. -/
def fractionPart (negative : Bool) (significand skipped : Nat) : Decoder Number := do
  advance
  let text ← digits
  if text.isEmpty then
    match ← peek? with
    | none => failHere .endInValue
    | some _ => failAhead .invalidNumber
  else
    let (n, left) := absorb significand text
    let exponent : Int := skipped - (text.length - left : Nat)
    match ← peek? with
    | some 'e' | some 'E' => exponentPart negative n exponent
    | _ => floating negative n exponent

/-- The digits in front of a decimal point: a zero stands alone. -/
def wholePart : Decoder (List Char) := do
  match ← peek? with
  | none => failHere .endInValue
  | some '0' =>
    advance
    match ← peek? with
    | some c => if c.isDigit then failAhead .invalidNumber else pure ['0']
    | none => pure ['0']
  | some c => if c.isDigit then digits else failAhead .invalidNumber

/-- A whole number as far as it is one: minus zero and what lies below the
signed range are floating point numbers. -/
def wholeNumber (negative : Bool) (n : Nat) : Number :=
  if !negative then .integer n
  else if n = 0 || Nat.pow 2 63 < n then .float (-(UInt64.ofNat n).toFloat)
  else .integer (-n)

/-- A number. -/
def number : Decoder Number := do
  let negative := (← peek?) = some '-'
  if negative then advance
  let (n, left) := absorb 0 (← wholePart)
  match ← peek? with
  | some '.' => fractionPart negative n left
  | some 'e' | some 'E' => exponentPart negative n left
  | _ => if left = 0 then pure (wholeNumber negative n) else floating negative n left

/-- Goes over the exponent of a number, from its letter on. -/
def passExponent : Decoder Unit := do
  advance
  let sign ← peek?
  if sign = some '+' || sign = some '-' then advance
  match ← peek? with
  | none => failHere .invalidNumber
  | some c => if c.isDigit then discard digits else failAhead .invalidNumber

/-- Goes over a number. -/
def passNumber : Decoder Unit := do
  if (← peek?) = some '-' then advance
  match ← peek? with
  | none => failHere .invalidNumber
  | some '0' =>
    advance
    match ← peek? with
    | some c => if c.isDigit then failAhead .invalidNumber else pure ()
    | none => pure ()
  | some c => if c.isDigit then discard digits else failAhead .invalidNumber
  match ← peek? with
  | some '.' =>
    advance
    if (← digits).isEmpty then failAhead .invalidNumber
    match ← peek? with
    | some 'e' | some 'E' => passExponent
    | _ => pure ()
  | some 'e' | some 'E' => passExponent
  | _ => pure ()

end Decoder

end SourceScribe.Json
