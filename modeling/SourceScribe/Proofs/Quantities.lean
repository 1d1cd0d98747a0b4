import Mathlib.Algebra.Group.Nat.Defs
import Mathlib.Algebra.Ring.Int.Defs
import SourceScribe.Text.Vlq

/-!
# Quantities are read back

A quantity ends with its first digit below 32, so quantities that stand one
behind the other are read apart without anything between them. Reading works on
whole numbers of any size, and it gives back every word whose magnitude leaves
room for the sign: the digits of a word of 63 bits are those of a natural
number to the base 32.
-/

namespace SourceScribe.Text

namespace Base64

/-- A digit is read back. -/
theorem digitValue?_digit {n : Nat} (h : n < 64) : digitValue? (digit n) = some n := by
  have hall : ∀ n < 64, digitValue? (digit n) = some n := by decide +kernel
  exact hall n h

/-- Commas and semicolons are not digits. -/
theorem digit_ne_separator (n : Nat) : digit n ≠ ',' ∧ digit n ≠ ';' := by
  have hall : ∀ n < 64, digit n ≠ ',' ∧ digit n ≠ ';' := by decide +kernel
  have hmod : digit n = digit (n % 64) := by simp only [digit, Nat.mod_mod]
  rw [hmod]
  exact hall (n % 64) (Nat.mod_lt n (by decide))

end Base64

namespace Vlq

/-- The integer that a whole number stands for: its lowest bit is the sign. -/
def unsigned (word : Nat) : Int := if word % 2 = 0 then (word / 2 : Nat) else -(word / 2 : Nat)

/-- Reads the rest of a quantity whose digits up to here make up a number; the
scale is what the next digit counts. What stands behind its last digit is left. -/
def nextFrom? : Nat → Nat → List Char → Option (Int × List Char)
  | _, _, [] => none
  | word, scale, c :: rest => do
    let digit ← Base64.digitValue? c
    let word := word + digit % 32 * scale
    if digit < 32 then return (unsigned word, rest) else nextFrom? word (scale * 32) rest

/-- Reads the quantity in front of a text and leaves what follows it. -/
def next? (text : List Char) : Option (Int × List Char) := nextFrom? 0 1 text

/-- Reads quantities from the middle of one on, whose digits up to here make up
a number; the scale is what the next digit counts. -/
def readFrom? : Nat → Nat → List Char → Option (List Int)
  | _, scale, [] => if scale = 1 then some [] else none
  | word, scale, c :: rest => do
    let digit ← Base64.digitValue? c
    let word := word + digit % 32 * scale
    if digit < 32 then return unsigned word :: (← readFrom? 0 1 rest)
    else readFrom? word (scale * 32) rest

/-- Reads quantities that stand one behind the other. -/
def read? (text : List Char) : Option (List Int) := readFrom? 0 1 text

/-- The lowest digit of a word, which may be negative. -/
theorem toNat_low (w : Int64) : ((w &&& 31).toUInt64.toNat : Int) = w.toInt % 32 := by
  have hw : w.toBitVec.toInt = w.toInt := w.toInt_toBitVec
  rw [BitVec.toInt_eq_toNat_cond] at hw
  have hlow : w.toBitVec.toNat &&& (31#64).toNat = w.toBitVec.toNat % 32 :=
    Nat.and_two_pow_sub_one_eq_mod _ 5
  change ((w.toBitVec &&& 31#64).toNat : Int) = _
  rw [BitVec.toNat_and, hlow]
  omega

/-- The other digits of a word. -/
theorem toInt_high (w : Int64) : (w >>> 5).toInt = w.toInt / 32 := by
  have hfive : (5#64).smod 64#64 = 5#64 := by decide
  change (w.toBitVec.sshiftRight' ((5#64).smod 64#64)).toInt = _
  rw [hfive]
  simp [Int.shiftRight_eq_div_pow]

/-- More digits follow exactly if the word is 32 or more. -/
theorem high_pos (w : Int64) : (0 : Int64) < w >>> 5 ↔ 32 ≤ w.toInt := by
  rw [Int64.lt_iff_toInt_lt, toInt_high, Int64.toInt_zero]
  omega

/-- A shift doubles a word and drops the top bit. -/
theorem toInt_double (w : Int64) : (w <<< 1).toInt = (2 * w.toInt).bmod (2 ^ 64) := by
  have hone : (1#64).smod 64#64 = 1#64 := by decide
  have hw : w.toBitVec.toInt = w.toInt := w.toInt_toBitVec
  rw [BitVec.toInt_eq_toNat_cond] at hw
  change (w.toBitVec <<< ((1#64).smod 64#64)).toInt = _
  rw [hone]
  simp only [BitVec.shiftLeft_eq', BitVec.toNat_ofNat, BitVec.toInt_eq_toNat_cond,
    BitVec.toNat_shiftLeft, Nat.shiftLeft_eq, Nat.reducePow, Nat.reduceMod, Int.bmod]
  omega

/-- The word that is cut into digits: twice the magnitude and the sign, less the
bits that do not fit. -/
theorem toInt_signed (v : Int64) :
    (signed v).toInt =
      (2 * v.toInt.natAbs + if v.toInt < 0 then 1 else 0 : Int).bmod (2 ^ 64) := by
  have hzero : v < 0 ↔ v.toInt < 0 := Int64.lt_iff_toInt_lt
  unfold signed
  by_cases hv : v.toInt < 0
  · rw [if_pos (hzero.mpr hv), if_pos hv, Int64.toInt_add, toInt_double, Int64.toInt_neg]
    change ((2 * (-v.toInt).bmod (2 ^ 64)).bmod (2 ^ 64) + 1).bmod (2 ^ 64) = _
    simp only [Int.bmod]
    omega
  · rw [if_neg (fun h => hv (hzero.mp h)), if_neg hv, toInt_double, Int.add_zero,
      Int.natAbs_of_nonneg (by omega)]

/-- A magnitude below 2⁶² leaves room for the sign. -/
theorem toInt_signed_of_small {v : Int64} (h : v.toInt.natAbs < 2 ^ 62) :
    (signed v).toInt = (2 * v.toInt.natAbs + if v.toInt < 0 then 1 else 0 : Nat) := by
  rw [toInt_signed, Int.bmod_eq_of_le (by split <;> omega) (by split <;> omega)]
  split <;> omega

/-- The magnitude and the sign are found again in the whole number. -/
theorem unsigned_word (v : Int) :
    unsigned (2 * v.natAbs + if v < 0 then 1 else 0) = v := by
  unfold unsigned
  split <;> split <;> omega

/-- A word has one digit if it is below 32, and its lowest five bits otherwise stand in
front of the digits of the others. -/
theorem digits_succ {w : Int64} {n : Nat} (h : w.toInt = n) (limit : Nat) :
    digits (limit + 1) w = if n < 32 then [n] else (n % 32 + 32) :: digits limit (w >>> 5) := by
  have hlow : (w &&& 31).toUInt64.toNat = n % 32 := by
    have hw := toNat_low w
    omega
  have hhigh : (0 : Int64) < w >>> 5 ↔ ¬ n < 32 := by
    rw [high_pos, h]
    omega
  rw [digits, hlow]
  by_cases hn : n < 32
  · rw [if_pos hn, if_neg (fun hp => hhigh.mp hp hn), Nat.mod_eq_of_lt hn]
  · rw [if_neg hn, if_pos (hhigh.mpr hn)]

/-- A digit below 32 ends a quantity. -/
theorem nextFrom?_last {digit : Nat} (h : digit < 32) (word scale : Nat) (rest : List Char) :
    nextFrom? word scale (Base64.digit digit :: rest) =
      some (unsigned (word + digit * scale), rest) := by
  have hdigit : Base64.digitValue? (Base64.digit digit) = some digit :=
    Base64.digitValue?_digit (by omega)
  simp only [nextFrom?, hdigit, Option.bind_eq_bind, Option.bind_some, if_pos h,
    Nat.mod_eq_of_lt h, Option.pure_def]

/-- Any other digit is followed by more of the quantity. -/
theorem nextFrom?_more {digit : Nat} (h : digit < 32) (word scale : Nat) (rest : List Char) :
    nextFrom? word scale (Base64.digit (digit + 32) :: rest) =
      nextFrom? (word + digit * scale) (scale * 32) rest := by
  have hdigit : Base64.digitValue? (Base64.digit (digit + 32)) = some (digit + 32) :=
    Base64.digitValue?_digit (by omega)
  simp only [nextFrom?, hdigit, Option.bind_eq_bind, Option.bind_some, Nat.add_mod_right,
    Nat.mod_eq_of_lt h]
  rw [if_neg (by omega)]

/-- A number of more than one digit leaves the others room in one digit less. -/
theorem room_of_large {n limit : Nat} (hn : n < 32 ^ (limit + 1)) (hlarge : ¬n < 32) :
    n / 32 < 32 ^ limit ∧ 0 < limit := by
  constructor
  · rw [Nat.div_lt_iff_lt_mul (by decide), ← Nat.pow_succ]
    exact hn
  · rcases Nat.eq_zero_or_pos limit with rfl | hpos
    · omega
    · exact hpos

/-- The digits of a word complete the quantity in whose middle they stand. The
induction is on the number of digits that are allowed, which has to be enough. -/
theorem nextFrom?_digits {limit : Nat} {w : Int64} {n : Nat} (hw : w.toInt = n)
    (hn : n < 32 ^ limit) (hlimit : 0 < limit) (word scale : Nat) (rest : List Char) :
    nextFrom? word scale ((digits limit w).map Base64.digit ++ rest) =
      some (unsigned (word + n * scale), rest) := by
  induction limit generalizing w n word scale with
  | zero => exact absurd hlimit (Nat.lt_irrefl 0)
  | succ limit ih =>
    rw [digits_succ hw]
    by_cases hlast : n < 32
    · rw [if_pos hlast]
      exact nextFrom?_last hlast word scale rest
    · obtain ⟨hhigh, hmore⟩ := room_of_large hn hlast
      have hvalue : word + n % 32 * scale + n / 32 * (scale * 32) = word + n * scale := by
        rw [Nat.add_assoc, Nat.mul_comm scale 32, ← Nat.mul_assoc, ← Nat.add_mul,
          Nat.mul_comm (n / 32), Nat.mod_add_div]
      have hshift : (w >>> 5).toInt = (n / 32 : Nat) := by
        rw [toInt_high, hw]
        rfl
      rw [if_neg hlast, List.map_cons, List.cons_append,
        nextFrom?_more (Nat.mod_lt n (by decide)), ih hshift hhigh hmore, hvalue]

/-- A quantity in front of a text is read back, and the text is left. -/
theorem next?_encode {v : Int64} (h : v.toInt.natAbs < 2 ^ 62) (rest : List Char) :
    next? (encode v ++ rest) = some (v.toInt, rest) := by
  have hsmall : (2 * v.toInt.natAbs + if v.toInt < 0 then 1 else 0) < 32 ^ 13 := by
    split <;> omega
  rw [next?, encode, nextFrom?_digits (toInt_signed_of_small h) hsmall (by decide),
    Nat.zero_add, Nat.mul_one, unsigned_word]

/-- Quantities are read one after the other. -/
theorem readFrom?_cons (word scale : Nat) (c : Char) (text : List Char) :
    readFrom? word scale (c :: text) =
      (nextFrom? word scale (c :: text)).bind fun r => (read? r.2).map (r.1 :: ·) := by
  induction text generalizing word scale c with
  | nil =>
    simp only [readFrom?, nextFrom?]
    cases Base64.digitValue? c with
    | none => rfl
    | some digit =>
      have hscale : ¬scale * 32 = 1 := by omega
      by_cases hd : digit < 32 <;> simp [hd, hscale, read?, readFrom?]
  | cons c' text ih =>
    rw [readFrom?, nextFrom?]
    cases Base64.digitValue? c with
    | none => rfl
    | some digit =>
      by_cases hd : digit < 32
      · simp only [Option.bind_eq_bind, Option.bind_some, if_pos hd, Option.pure_def]
        exact (Option.map_eq_bind ..).symm
      · simp only [Option.bind_eq_bind, Option.bind_some, if_neg hd]
        exact ih _ _ c'

/-- A quantity has at least one digit. -/
theorem encode_ne_nil (v : Int64) : encode v ≠ [] := by
  unfold encode digits
  dsimp only
  split <;> simp

/-- A quantity is read back, whatever follows it. -/
theorem read?_encode {v : Int64} (hl : -2 ^ 62 < v.toInt) (hu : v.toInt < 2 ^ 62)
    (rest : List Char) : read? (encode v ++ rest) = (read? rest).map (v.toInt :: ·) := by
  have hnext := next?_encode (v := v) (by omega) rest
  obtain ⟨c, text, hc⟩ := List.exists_cons_of_ne_nil (encode_ne_nil v)
  rw [hc, List.cons_append] at hnext ⊢
  rw [read?, readFrom?_cons, ← next?, hnext]
  rfl

/-- Quantities that stand one behind the other are read back. -/
theorem read?_flatMap_encode {vs : List Int64}
    (h : ∀ v ∈ vs, -2 ^ 62 < v.toInt ∧ v.toInt < 2 ^ 62) :
    read? (vs.flatMap encode) = some (vs.map Int64.toInt) := by
  induction vs with
  | nil => rfl
  | cons v vs ih =>
    obtain ⟨hl, hu⟩ := h v List.mem_cons_self
    rw [List.flatMap_cons, read?_encode hl hu, ih fun v hv => h v (List.mem_cons_of_mem _ hv)]
    rfl

example : [16, -1].flatMap encode = ['g', 'B', 'D'] ∧ read? ['g', 'B', 'D'] = some [16, -1] := by
  decide +kernel

/-- Quantities contain no separators. -/
theorem ne_separator_of_mem_encode {v : Int64} {c : Char} (h : c ∈ encode v) :
    c ≠ ',' ∧ c ≠ ';' := by
  obtain ⟨n, _, rfl⟩ := List.mem_map.mp h
  exact Base64.digit_ne_separator n

end Vlq

end SourceScribe.Text
