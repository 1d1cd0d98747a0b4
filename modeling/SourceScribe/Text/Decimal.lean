/-!
# Shortest decimals

The text of a finite binary floating point number has the fewest significant
digits that read back as the same number; of those with that many digits it
takes the nearest. The search works on exact natural numbers: a number is
`mantissa * 2 ^ exponent`, and the numbers that round to it lie between the
halves of the gaps to its two neighbours.
-/

namespace SourceScribe.Text.Decimal

/-- A positive number `mantissa * 2 ^ exponent`. -/
structure Binary where
  /-- The whole number that the power of two scales. -/
  mantissa : Nat
  /-- The power of two. -/
  exponent : Int
  /-- The gap below is half as wide as the gap above. -/
  narrow : Bool

/-- Decodes the magnitude of a finite number from the bits of its exponent
and its fraction. -/
def Binary.ofFields (biased fraction : Nat) : Binary :=
  if biased = 0 then ⟨fraction, -1074, false⟩
  else ⟨fraction + Nat.pow 2 52, biased - 1075, fraction == 0 && biased != 1⟩

/-- The numerator and the denominator of `n * 2 ^ e`. -/
def scaleTwo (n : Nat) (e : Int) : Nat × Nat :=
  if 0 ≤ e then (n * Nat.pow 2 e.toNat, 1) else (n, Nat.pow 2 (-e).toNat)

/-- The numerator and the denominator of `n / d / 10 ^ k`. -/
def scaleTen (n d : Nat) (k : Int) : Nat × Nat :=
  if 0 ≤ k then (n, d * Nat.pow 10 k.toNat) else (n * Nat.pow 10 (-k).toNat, d)

/-- The greatest `k` with `10 ^ k ≤ n / d`. -/
def magnitude (n d : Nat) : Int :=
  let guess : Int := (Nat.toDigits 10 n).length - (Nat.toDigits 10 d).length
  let (p, q) := scaleTen n d guess
  if q ≤ p then guess else guess - 1

/-- A decimal `digits * 10 ^ exponent`. -/
structure Digits where
  /-- The significant digits as one number. -/
  digits : Nat
  /-- The power of ten. -/
  exponent : Int

/-- The decimal with the given number of significant digits that reads back
as the number, if there is one: the nearest of the two grid points around the
number, the even one when both are as near. -/
def withDigits? (x : Binary) (count : Nat) : Option Digits :=
  let four := scaleTwo 1 (x.exponent - 2)
  let middle := 4 * x.mantissa * four.1
  let low := (4 * x.mantissa - if x.narrow then 1 else 2) * four.1
  let high := (4 * x.mantissa + 2) * four.1
  let step := magnitude middle four.2 - (count - 1 : Int)
  let (_, unit) := scaleTen middle four.2 step
  let scale := fun n => (scaleTen n four.2 step).1
  let below := scale middle / unit
  let closed := x.mantissa % 2 == 0
  let inside := fun k : Nat =>
    let v := k * unit
    (scale low < v || (closed && scale low == v)) && (v < scale high || (closed && v == scale high))
  let excess := scale middle - below * unit
  let shortfall := (below + 1) * unit - scale middle
  let down := excess < shortfall || (excess == shortfall && below % 2 == 0)
  let nearest := if down then below else below + 1
  let other := if nearest == below then below + 1 else below
  if inside nearest then some ⟨nearest, step⟩
  else if inside other then some ⟨other, step⟩
  else none

/-- The shortest decimal of a positive number; seventeen digits always do. -/
def shortest (x : Binary) : Digits :=
  ((List.range 17).findSome? fun n => withDigits? x (n + 1)).getD ⟨x.mantissa, 0⟩

/-- Removes the zeros that end the digits of a positive number. -/
def stripZeros : Nat → Digits → Digits
  | 0, d => d
  | limit + 1, d =>
    if d.digits % 10 == 0 then stripZeros limit ⟨d.digits / 10, d.exponent + 1⟩ else d

/-- Writes digits with the decimal point after the first `place` of them, where
`place` is the exponent plus the number of digits: positional from `10⁻⁵` up to
below `10¹⁶`, and with a signed exponent outside. -/
def layout (text : List Char) (exponent : Int) : List Char :=
  let place := exponent + text.length
  if 0 ≤ exponent && place ≤ 16 then
    text ++ List.replicate exponent.toNat '0' ++ ['.', '0']
  else if 0 < place && place ≤ 16 then
    text.take place.toNat ++ '.' :: text.drop place.toNat
  else if -5 < place && place ≤ 0 then
    ['0', '.'] ++ List.replicate (-place).toNat '0' ++ text
  else
    let mantissa := if text.length == 1 then text else text.take 1 ++ '.' :: text.drop 1
    let power := place - 1
    mantissa ++ ['e', if power < 0 then '-' else '+'] ++ Nat.toDigits 10 power.natAbs

/-- The text of a finite number. -/
def ofFloat (x : Float) : String :=
  let bits := x.toBits.toNat
  let sign := if bits / Nat.pow 2 63 % 2 == 1 then ['-'] else []
  let biased := bits / Nat.pow 2 52 % 2048
  let fraction := bits % Nat.pow 2 52
  if biased == 0 && fraction == 0 then String.ofList (sign ++ ['0', '.', '0'])
  else
    let d := stripZeros 17 (shortest (Binary.ofFields biased fraction))
    String.ofList (sign ++ layout (Nat.toDigits 10 d.digits) d.exponent)

end SourceScribe.Text.Decimal
