import SourceScribe.Proofs.Quantities

/-!
# Quantities are cut into digits

The loop that writes a quantity ends on every word, with thirteen digits at
most, and marks every digit but the last as followed by another one. So a reader
stops exactly where the quantity ends, whatever stands behind it. It finds the
integer again exactly if the magnitude is below 2⁶²: from there on the word that
is cut is negative, its lowest five bits are its only digit, and the reader finds
what is left of the magnitude modulo 16. No text of fewer digits is read as the
same integer.
-/

namespace SourceScribe.Text.Vlq

/-- The lowest five bits of a word. -/
def low (word : Int64) : Nat := (word &&& 31).toUInt64.toNat

/-- The loop that cuts a word into digits comes to an end: in each turn the lowest
five bits are a digit, and the loop goes on with the others if they are positive. -/
inductive Cut : Int64 → List Nat → Prop
  | last {word : Int64} : ¬(0 : Int64) < word >>> 5 → Cut word [low word]
  | more {word : Int64} {rest : List Nat} : (0 : Int64) < word >>> 5 → Cut (word >>> 5) rest →
    Cut word ((low word + 32) :: rest)

/-- Digits of six bits, the sixth of which says that another digit follows. -/
def Delimited (ds : List Nat) : Prop :=
  ds ≠ [] ∧ ∀ i (h : i < ds.length), ds[i] < 64 ∧ (ds[i].testBit 5 = true ↔ i + 1 < ds.length)

variable {word : Int64} {ds : List Nat} {v : Int} {text rest : List Char}

/-- Five bits are less than 32. -/
theorem low_lt (word : Int64) : low word < 32 := by
  have hlow : (low word : Int) = word.toInt % 32 := toNat_low word
  omega

/-- A word has its digits when as many are allowed as it may need. -/
theorem cut_digits {limit : Nat} (hword : word.toInt.toNat < 32 ^ limit) (hlimit : 0 < limit) :
    Cut word (digits limit word) := by
  induction limit generalizing word with
  | zero => exact absurd hlimit (Nat.lt_irrefl 0)
  | succ limit ih =>
    rw [digits]
    by_cases hhigh : (0 : Int64) < word >>> 5
    · rw [if_pos hhigh]
      have hlarge : ¬word.toInt.toNat < 32 := by
        have hword := (high_pos word).mp hhigh
        omega
      have hshift : (word >>> 5).toInt.toNat = word.toInt.toNat / 32 := by
        rw [toInt_high]
        omega
      obtain ⟨hroom, hmore⟩ := room_of_large hword hlarge
      exact .more hhigh (ih (hshift ▸ hroom) hmore)
    · rw [if_neg hhigh]
      exact .last hhigh

/-- Thirteen digits are enough for every word. -/
theorem cut_thirteen (word : Int64) : Cut word (digits 13 word) := by
  refine cut_digits ?_ (by decide)
  have hword := word.toInt_lt
  omega

/-- Every digit but the last is marked. -/
theorem Cut.delimited (h : Cut word ds) : Delimited ds := by
  induction h with
  | @last word _ =>
    refine ⟨by simp, fun i hi => ?_⟩
    have hlow := low_lt word
    obtain rfl : i = 0 := by simpa using hi
    have hbit : (low word).testBit 5 = false := Nat.testBit_lt_two_pow hlow
    rw [List.getElem_singleton]
    exact ⟨by omega, by simp [hbit]⟩
  | @more word rest _ _ ih =>
    have hlow := low_lt word
    obtain ⟨hne, hrest⟩ := ih
    refine ⟨by simp, fun i hi => ?_⟩
    cases i with
    | zero =>
      have hbit : (low word + 32).testBit 5 = true := by
        rw [Nat.add_comm, Nat.testBit_two_pow_add_eq (i := 5), Nat.testBit_lt_two_pow hlow]
        rfl
      have hlength := List.length_pos_iff.mpr hne
      rw [List.getElem_cons_zero, List.length_cons]
      exact ⟨by omega, by simp [hbit, hlength]⟩
    | succ i =>
      simpa using hrest i (by simpa using hi)

/-- A word whose digits have room in some number of digits has no more. -/
theorem Cut.length_le (h : Cut word ds) {n k : Nat} (hword : word.toInt = n) (hn : n < 32 ^ k)
    (hk : 0 < k) : ds.length ≤ k := by
  induction h generalizing n k with
  | last _ => exact hk
  | @more word rest hhigh _ ih =>
    have hlarge := (high_pos word).mp hhigh
    have hshift : (word >>> 5).toInt = (n / 32 : Nat) := by
      rw [toInt_high, hword]
      rfl
    cases k with
    | zero => exact absurd hk (Nat.lt_irrefl 0)
    | succ k =>
      obtain ⟨hroom, hmore⟩ := room_of_large hn (by omega)
      exact Nat.succ_le_succ (ih hshift hroom hmore)

/-- What is read has come from a whole number that has room in the digits that
were read. -/
theorem exists_of_nextFrom? {w scale : Nat} (h : nextFrom? w scale text = some (v, rest)) :
    ∃ n k, v = unsigned (w + n * scale) ∧ n < 32 ^ k ∧ 0 < k ∧
      text.length = k + rest.length := by
  induction text generalizing w scale with
  | nil => cases h
  | cons c text ih =>
    rw [nextFrom?] at h
    cases hc : Base64.digitValue? c with
    | none =>
      rw [hc] at h
      cases h
    | some digit =>
      have hdigit : digit % 32 < 32 := Nat.mod_lt _ (by decide)
      simp only [hc, Option.bind_eq_bind, Option.bind_some, Option.pure_def] at h
      split at h
      · cases h
        exact ⟨digit % 32, 1, rfl, by omega, by decide, by rw [List.length_cons, Nat.add_comm]⟩
      · obtain ⟨n, k, hv, hn, hk, hlength⟩ := ih h
        refine ⟨digit % 32 + n * 32, k + 1, ?_, ?_, by omega, ?_⟩
        · rw [hv, Nat.add_mul, Nat.mul_assoc, Nat.mul_comm 32 scale, Nat.add_assoc]
        · rw [Nat.pow_succ]
          omega
        · rw [List.length_cons, hlength]
          omega

/-- The least whole number that stands for an integer. -/
theorem le_of_unsigned {n : Nat} (h : unsigned n = v) :
    (2 * v.natAbs + if v < 0 then 1 else 0) ≤ n := by
  unfold unsigned at h
  split at h <;> split <;> omega

/-- A magnitude that leaves no room for the sign is cut into one digit. -/
theorem digits_signed_large {v : Int64} (h : 2 ^ 62 ≤ v.toInt.natAbs)
    (hmin : -2 ^ 63 < v.toInt) (limit : Nat) :
    digits (limit + 1) (signed v) =
      [(2 * v.toInt.natAbs + if v.toInt < 0 then 1 else 0) % 32] := by
  have hmax := v.toInt_lt
  have hlow : (low (signed v) : Int) = (signed v).toInt % 32 := toNat_low (signed v)
  have hsigned : (signed v).toInt =
      2 * v.toInt.natAbs + (if v.toInt < 0 then 1 else 0 : Int) - 2 ^ 64 := by
    rw [toInt_signed]
    simp only [Int.bmod]
    split <;> omega
  have hhigh : ¬(0 : Int64) < signed v >>> 5 := by
    rw [high_pos, hsigned]
    split <;> omega
  have hdigit : low (signed v) = (2 * v.toInt.natAbs + if v.toInt < 0 then 1 else 0) % 32 := by
    rw [hsigned] at hlow
    split at hlow <;> split <;> omega
  rw [digits, if_neg hhigh, ← hdigit]
  rfl

/-- What is read is then what is left of the magnitude modulo 16. -/
theorem unsigned_low (v : Int) :
    unsigned ((2 * v.natAbs + if v < 0 then 1 else 0) % 32) = v.tmod 16 := by
  by_cases hv : v < 0
  · have hrest : v.tmod 16 = -(-v % 16) := by
      rw [← Int.tmod_eq_emod_of_nonneg (by omega), Int.neg_tmod, Int.neg_neg]
    rw [hrest, if_pos hv, unsigned, if_neg (by omega)]
    omega
  · rw [Int.tmod_eq_emod_of_nonneg (by omega), if_neg hv, unsigned, if_pos (by omega)]
    omega

/-- What a reader finds in front of any text. -/
theorem next?_encode_of_lt {v : Int64} (hmin : -2 ^ 63 < v.toInt) (rest : List Char) :
    next? (encode v ++ rest) =
      some (if v.toInt.natAbs < 2 ^ 62 then v.toInt else v.toInt.tmod 16, rest) := by
  by_cases hv : v.toInt.natAbs < 2 ^ 62
  · rw [if_pos hv, next?_encode hv]
  · have hdigit : (2 * v.toInt.natAbs + if v.toInt < 0 then 1 else 0) % 32 < 32 :=
      Nat.mod_lt _ (by decide)
    rw [if_neg hv, next?, encode, digits_signed_large (Nat.le_of_not_lt hv) hmin,
      List.map_singleton, List.singleton_append, nextFrom?_last hdigit, Nat.zero_add, Nat.mul_one,
      unsigned_low]

example : next? (encode (.ofInt (2 ^ 62 + 21)) ++ [',']) = some (5, [',']) := by decide +kernel

/-- No text with fewer digits is read as the integer. -/
theorem length_encode_le {v : Int64} (hv : v.toInt.natAbs < 2 ^ 62)
    (h : next? text = some (v.toInt, rest)) :
    (encode v).length + rest.length ≤ text.length := by
  obtain ⟨n, k, hvalue, hn, hk, hlength⟩ := exists_of_nextFrom? h
  rw [Nat.zero_add, Nat.mul_one] at hvalue
  have hleast := le_of_unsigned hvalue.symm
  have hdigits := (cut_thirteen (signed v)).length_le (toInt_signed_of_small hv)
    (Nat.lt_of_le_of_lt hleast hn) hk
  rw [encode, List.length_map]
  omega

/-- What the digits of an integer are, and what a reader makes of them. -/
structure Encoding (v : Int) : Prop where
  /-- The negation that gives the magnitude does not overflow. -/
  negated : (-Int64.ofInt v).toInt = -v
  /-- The loop comes to an end, and it marks every digit but the last. -/
  digits : ∃ ds, Cut (signed (.ofInt v)) ds ∧ Delimited ds ∧
    encode (.ofInt v) = ds.map Base64.digit
  /-- A reader takes exactly these digits, whatever follows them, and finds the integer
  if and only if its magnitude is below 2⁶². -/
  found : ∃ value, (∀ rest, next? (encode (.ofInt v) ++ rest) = some (value, rest)) ∧
    (value = v ↔ v.natAbs < 2 ^ 62)
  /-- There are no fewer digits in front of a text that are read as this integer. -/
  shortest : v.natAbs < 2 ^ 62 → ∀ text rest, next? text = some (v, rest) →
    (encode (.ofInt v)).length + rest.length ≤ text.length

/-- **A quantity is delimited by its digits, and it is read back exactly if its
magnitude is below 2⁶².** This is said of every integer that a word holds together
with its negative. Below 2⁶² the digits are the fewest. -/
theorem encode_delimits {v : Int} (hl : -2 ^ 63 < v) (hu : v < 2 ^ 63) : Encoding v where
  negated := by
    rw [Int64.toInt_neg, Int64.toInt_ofInt_of_le (by omega) hu]
    exact Int.bmod_eq_of_le (by omega) (by omega)
  digits := ⟨_, cut_thirteen _, (cut_thirteen _).delimited, rfl⟩
  found := by
    have hvalue : (Int64.ofInt v).toInt = v := Int64.toInt_ofInt_of_le (by omega) hu
    refine ⟨_, fun rest => next?_encode_of_lt (by rwa [hvalue]) rest, ?_⟩
    rw [hvalue]
    constructor
    · intro hfound
      by_contra hv
      have hmod : (v.tmod 16).natAbs = v.natAbs % 16 := Int.natAbs_tmod v 16
      rw [if_neg hv] at hfound
      omega
    · exact fun hv => if_pos hv
  shortest hv text rest h := by
    have hvalue : (Int64.ofInt v).toInt = v := Int64.toInt_ofInt_of_le (by omega) hu
    exact length_encode_le (by rwa [hvalue]) (by rwa [hvalue])

/-- The least integer that is read back takes all thirteen digits. -/
theorem encode_delimits_least :
    encode (.ofInt (1 - 2 ^ 62)) = "////////////H".toList ∧ -2 ^ 63 < (1 - 2 ^ 62 : Int) ∧
      (1 - 2 ^ 62 : Int) < 2 ^ 63 ∧ Encoding (1 - 2 ^ 62) :=
  ⟨by decide +kernel, by decide, by decide, encode_delimits (by decide) (by decide)⟩

end SourceScribe.Text.Vlq
