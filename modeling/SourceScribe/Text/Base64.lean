/-!
# Base 64

Three bytes are four digits of the standard alphabet; one or two bytes left
at the end are padded with equals signs to four characters.
-/

namespace SourceScribe.Text.Base64

/-- The alphabet: capital letters, small letters, digits, plus and slash. -/
def alphabet : List Char :=
  "ABCDEFGHIJKLMNOPQRSTUVWXYZabcdefghijklmnopqrstuvwxyz0123456789+/".toList

/-- The character of a digit, taken modulo 64. -/
def digit (value : Nat) : Char := alphabet.getD (value % 64) 'A'

/-- The value of a character of the alphabet. -/
def digitValue? (c : Char) : Option Nat := alphabet.findIdx? (· == c)

/-- Encodes bytes, three at a time. -/
def encode : List UInt8 → List Char
  | [] => []
  | [a] =>
    let n := a.toNat
    [digit (n / 4), digit (n % 4 * 16), '=', '=']
  | [a, b] =>
    let n := a.toNat * 256 + b.toNat
    [digit (n / 1024), digit (n / 16), digit (n % 16 * 4), '=']
  | a :: b :: c :: rest =>
    let n := (a.toNat * 256 + b.toNat) * 256 + c.toNat
    digit (n / 262144) :: digit (n / 4096) :: digit (n / 64) :: digit n :: encode rest

/-- The encoding of a text's UTF-8 bytes. -/
def ofText (text : String) : String := String.ofList (encode text.toUTF8.toList)

end SourceScribe.Text.Base64
