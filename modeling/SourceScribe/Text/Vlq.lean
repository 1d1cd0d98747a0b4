import SourceScribe.Text.Base64

/-!
# Variable length quantities

An integer is written in digits of five bits, least significant first, each
digit but the last with its sixth bit set, and each as a character of the
base 64 alphabet. The sign is the lowest bit of the number that is cut into
digits. The arithmetic is that of 64 bit words: a magnitude of 2⁶² or more
loses its top bits when it is shifted to make room for the sign.
-/

namespace SourceScribe.Text.Vlq

/-- The word that is cut into digits: the magnitude, one place up, and the sign. -/
def signed (value : Int64) : Int64 :=
  if value < 0 then ((-value) <<< 1) + 1 else value <<< 1

/-- The digits of a word, at most as many as given; a word has thirteen at
most. A word that is not positive after the shift ends the number. -/
def digits : Nat → Int64 → List Nat
  | 0, _ => []
  | limit + 1, word =>
    let low := (word &&& 31).toUInt64.toNat
    let high := word >>> 5
    if 0 < high then (low + 32) :: digits limit high else [low]

/-- The characters of an integer. -/
def encode (value : Int64) : List Char := (digits 13 (signed value)).map Base64.digit

end SourceScribe.Text.Vlq
