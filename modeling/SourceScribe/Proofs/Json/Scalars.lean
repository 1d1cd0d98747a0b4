import SourceScribe.Json.Decode
import SourceScribe.Proofs.Json.Reading

/-!
# Strings and numbers are read back

Every character of a string is read back from the way in which it is written,
and the digits of an unsigned integer of 64 bits are read back as that integer.
-/

namespace SourceScribe.Json

/-- The last two digits of a control character. -/
theorem hexFour?_twoHexDigits {n : Nat} (h : n < 0x20) :
    ∃ a b, twoHexDigits n = [a, b] ∧ hexFour? '0' '0' a b = some n := by
  have hall : ∀ n < 0x20,
      hexFour? '0' '0' (Nat.digitChar (n / 16)) (Nat.digitChar (n % 16)) = some n := by decide
  exact ⟨_, _, rfl, hall n h⟩

/-- The ways in which a character is written: behind a backslash, by its number,
or as itself. -/
theorem escapeChar_cases (c : Char) :
    (∃ e, e ≠ 'u' ∧ escapeChar c = ['\\', e] ∧ plainEscape? e = some c) ∨
      (∃ a b, escapeChar c = ['\\', 'u', '0', '0', a, b] ∧
        hexFour? '0' '0' a b = some c.toNat ∧ c.toNat < 0x20) ∨
      (escapeChar c = [c] ∧ c ≠ '"' ∧ c ≠ '\\' ∧ ¬ c.toNat < 0x20) := by
  unfold escapeChar
  split
  next h =>
    subst h
    exact .inl ⟨'"', by decide, rfl, rfl⟩
  next hquote =>
  split
  next h =>
    subst h
    exact .inl ⟨'\\', by decide, rfl, rfl⟩
  next hslash =>
  split
  next h =>
    subst h
    exact .inl ⟨'b', by decide, rfl, rfl⟩
  next =>
  split
  next h =>
    subst h
    exact .inl ⟨'f', by decide, rfl, rfl⟩
  next =>
  split
  next h =>
    subst h
    exact .inl ⟨'n', by decide, rfl, rfl⟩
  next =>
  split
  next h =>
    subst h
    exact .inl ⟨'r', by decide, rfl, rfl⟩
  next =>
  split
  next h =>
    subst h
    exact .inl ⟨'t', by decide, rfl, rfl⟩
  next =>
  split
  next hsmall =>
    obtain ⟨a, b, htwo, hfour⟩ := hexFour?_twoHexDigits hsmall
    refine .inr (.inl ⟨a, b, ?_, hfour, hsmall⟩)
    rw [htwo]
    rfl
  next hsmall => exact .inr (.inr ⟨rfl, hquote, hslash, hsmall⟩)

/-- A character behind a backslash is read as what it stands for. -/
theorem scanString_escape {e c : Char} (hu : e ≠ 'u') (he : plainEscape? e = some c)
    (rest : List Char) (p : Position) (done : List Char) :
    scanString ('\\' :: e :: rest) p done = scanString rest (p.across 2) (c :: done) := by
  rw [scanString.eq_def]
  simp [he]

/-- A character behind a backslash is gone over. -/
theorem passString_escape {e c : Char} (hu : e ≠ 'u') (he : plainEscape? e = some c)
    (rest : List Char) (p : Position) :
    passString ('\\' :: e :: rest) p = passString rest (p.across 2) := by
  rw [passString.eq_def]
  simp [he]

/-- The number of a control character is read as the character. -/
theorem scanString_number {a b c : Char} (hc : hexFour? '0' '0' a b = some c.toNat)
    (hsmall : c.toNat < 0x20) (rest : List Char) (p : Position) (done : List Char) :
    scanString ('\\' :: 'u' :: '0' :: '0' :: a :: b :: rest) p done =
      scanString rest (p.across 6) (c :: done) := by
  have hfollower : ¬ isFollower c.toNat = true := by
    simp only [isFollower, Bool.and_eq_true, decide_eq_true_eq]
    omega
  have hleading : ¬ isLeading c.toNat = true := by
    simp only [isLeading, Bool.and_eq_true, decide_eq_true_eq]
    omega
  rw [scanString]
  simp only [hc, if_neg hfollower, if_neg hleading, Char.ofNat_toNat]

/-- The number of a character is gone over. -/
theorem passString_number {a b c d : Char} {n : Nat} (hn : hexFour? a b c d = some n)
    (rest : List Char) (p : Position) :
    passString ('\\' :: 'u' :: a :: b :: c :: d :: rest) p = passString rest (p.across 6) := by
  rw [passString]
  simp only [hn]

/-- Any other character is read as itself. -/
theorem scanString_plain {c : Char} (hquote : c ≠ '"') (hslash : c ≠ '\\')
    (hsmall : ¬ c.toNat < 0x20) (rest : List Char) (p : Position) (done : List Char) :
    scanString (c :: rest) p done = scanString rest (p.after c) (c :: done) := by
  rw [scanString, if_neg hsmall]
  all_goals
    intros
    contradiction

/-- Any other character is gone over. -/
theorem passString_plain {c : Char} (hquote : c ≠ '"') (hslash : c ≠ '\\')
    (hsmall : ¬ c.toNat < 0x20) (rest : List Char) (p : Position) :
    passString (c :: rest) p = passString rest (p.after c) := by
  rw [passString, if_neg hsmall]
  all_goals
    intros
    contradiction

/-- The inside of a string is read back behind what has been read. -/
theorem scanString_flatMap (text rest : List Char) (p : Position) (done : List Char) :
    ∃ q, scanString (text.flatMap escapeChar ++ '"' :: rest) p done =
      .ok (String.ofList (done.reverse ++ text), ⟨rest, q⟩) := by
  induction text generalizing p done with
  | nil =>
    refine ⟨p.across 1, ?_⟩
    rw [List.flatMap_nil, List.nil_append, List.append_nil, scanString]
  | cons c text ih =>
    have hdone : done.reverse ++ c :: text = (c :: done).reverse ++ text := by simp
    rw [List.flatMap_cons, List.append_assoc, hdone]
    rcases escapeChar_cases c with
      ⟨e, hu, hescape, hplain⟩ | ⟨a, b, hescape, hfour, hsmall⟩ | ⟨hescape, hquote, hslash, hsmall⟩
    · obtain ⟨q, hq⟩ := ih (p.across 2) (c :: done)
      exact ⟨q, by rw [hescape]; exact (scanString_escape hu hplain _ p done).trans hq⟩
    · obtain ⟨q, hq⟩ := ih (p.across 6) (c :: done)
      exact ⟨q, by rw [hescape]; exact (scanString_number hfour hsmall _ p done).trans hq⟩
    · obtain ⟨q, hq⟩ := ih (p.after c) (c :: done)
      exact ⟨q, by rw [hescape]; exact (scanString_plain hquote hslash hsmall _ p done).trans hq⟩

/-- The inside of a string is gone over. -/
theorem passString_flatMap (text rest : List Char) (p : Position) :
    ∃ q, passString (text.flatMap escapeChar ++ '"' :: rest) p = .ok ⟨rest, q⟩ := by
  induction text generalizing p with
  | nil =>
    refine ⟨p.across 1, ?_⟩
    rw [List.flatMap_nil, List.nil_append, passString]
  | cons c text ih =>
    rw [List.flatMap_cons, List.append_assoc]
    rcases escapeChar_cases c with
      ⟨e, hu, hescape, hplain⟩ | ⟨a, b, hescape, hfour, _⟩ | ⟨hescape, hquote, hslash, hsmall⟩
    · obtain ⟨q, hq⟩ := ih (p.across 2)
      exact ⟨q, by rw [hescape]; exact (passString_escape hu hplain _ p).trans hq⟩
    · obtain ⟨q, hq⟩ := ih (p.across 6)
      exact ⟨q, by rw [hescape]; exact (passString_number hfour _ p).trans hq⟩
    · obtain ⟨q, hq⟩ := ih (p.after c)
      exact ⟨q, by rw [hescape]; exact (passString_plain hquote hslash hsmall _ p).trans hq⟩

/-- The text of a string behind its opening quote. -/
def stringRest (text : String) : List Char := text.toList.flatMap escapeChar ++ ['"']

namespace Decoder

/-- A string is read back behind its opening quote. -/
theorem reads_stringBody (text : String) (rest : List Char) :
    stringBody.Reads (stringRest text) text rest := by
  intro p
  obtain ⟨q, hq⟩ := scanString_flatMap text.toList rest p []
  refine ⟨q, ?_⟩
  rw [List.reverse_nil, List.nil_append, String.ofList_toList] at hq
  simp only [stringBody, stringRest, List.append_assoc, List.singleton_append, hq]

/-- A string is gone over behind its opening quote. -/
theorem reads_passStringBody (text : String) (rest : List Char) :
    passStringBody.Reads (stringRest text) () rest := by
  intro p
  obtain ⟨q, hq⟩ := passString_flatMap text.toList rest p
  refine ⟨q, ?_⟩
  simp only [passStringBody, stringRest, List.append_assoc, List.singleton_append, hq]

/-- A string is taken. -/
theorem takes_string (text : String) : string.Takes (stringChars text) text :=
  takes_token (by decide) fun rest _ =>
    (reads_advance '"' (stringRest text ++ rest)).bind (reads_stringBody text rest)

end Decoder

/-- What follows a value continues no number. -/
theorem Ends.not_digit {rest : List Char} (h : Ends rest) :
    ∀ c ∈ rest.head?, c.isDigit = false ∧ c ≠ '.' ∧ c ≠ 'e' ∧ c ≠ 'E' := by
  intro c hc
  rcases h c hc with hspace | rfl | rfl | rfl
  · simp only [isSpace, Bool.or_eq_true, beq_iff_eq] at hspace
    rcases hspace with ((rfl | rfl) | rfl) | rfl <;> decide
  all_goals decide

/-- Digits are absorbed as long as the number fits into 64 bits. -/
theorem absorb_of_lt {text : List Char} {n : Nat} (h : Nat.ofDigitChars 10 text n < wordBound) :
    absorb n text = (Nat.ofDigitChars 10 text n, 0) := by
  induction text generalizing n with
  | nil => rfl
  | cons c text ih =>
    rw [Nat.ofDigitChars_cons, Nat.mul_comm] at h ⊢
    have hle : n * 10 + (c.toNat - '0'.toNat) ≤
        Nat.ofDigitChars 10 text (n * 10 + (c.toNat - '0'.toNat)) := by
      rw [Nat.ofDigitChars_eq_ofDigitChars_zero]
      exact Nat.le_trans (Nat.le_mul_of_pos_left _ (Nat.pow_pos (by decide))) (Nat.le_add_right _ _)
    have hlt : n * 10 + (c.toNat - '0'.toNat) < wordBound := Nat.lt_of_le_of_lt hle h
    rw [absorb]
    simp only [if_pos hlt, ih h]

/-- The digits of a number do not begin with a zero unless it is zero. -/
theorem head?_toDigits {n : Nat} (h : 0 < n) : ∀ c ∈ (Nat.toDigits 10 n).head?, c ≠ '0' := by
  induction n using Nat.base_induction 10 (by decide) with
  | single n hn =>
    rw [Nat.toDigits_of_lt_base hn]
    rintro c ⟨⟩
    have hall : ∀ n < 10, 0 < n → n.digitChar ≠ '0' := by decide
    exact hall n hn h
  | digit n k hk hn ih =>
    rw [← Nat.toDigits_append_toDigits (by decide) hn hk]
    have hfirst := ih hn
    cases hdigits : Nat.toDigits 10 n with
    | nil => exact absurd hdigits Nat.toDigits_ne_nil
    | cons c text =>
      rw [hdigits] at hfirst
      exact hfirst

/-- The digits of a positive number. -/
theorem toDigits_of_pos {n : Nat} (h : 0 < n) : ∃ c text, Nat.toDigits 10 n = c :: text ∧
    c ≠ '0' ∧ ∀ d ∈ c :: text, d.isDigit = true := by
  cases hdigits : Nat.toDigits 10 n with
  | nil => exact absurd hdigits Nat.toDigits_ne_nil
  | cons c text =>
    refine ⟨c, text, rfl, head?_toDigits h c (by rw [hdigits]; rfl), fun d hd => ?_⟩
    exact Nat.isDigit_of_mem_toDigits (by decide) (by decide) (hdigits ▸ hd)

namespace Decoder

/-- The digits of a number are read as far as they go. -/
theorem reads_wholePart (n : Nat) {rest : List Char} (hr : Ends rest) :
    wholePart.Reads (Nat.toDigits 10 n) (Nat.toDigits 10 n) rest := by
  have hrest : ∀ c ∈ rest.head?, c.isDigit = false := fun c hc => (hr.not_digit c hc).1
  rcases Nat.eq_zero_or_pos n with rfl | hn
  · rw [Nat.toDigits_zero]
    refine (reads_peek? _).before ?_
    refine (reads_advance '0' rest).andThen ((reads_peek? rest).andThen ?_)
    cases rest with
    | nil => exact reads_pure ['0'] []
    | cons c rest =>
      simp only [List.head?_cons, hrest c rfl, Bool.false_eq_true, if_false]
      exact reads_pure ['0'] _
  · obtain ⟨c, text, hdigits, hzero, hall⟩ := toDigits_of_pos hn
    rw [hdigits]
    refine (reads_peek? _).before ?_
    simp only [List.cons_append, List.head?_cons]
    rw [if_pos (hall c List.mem_cons_self)]
    exact reads_digits hall hrest

/-- A number does not begin with a sign. -/
theorem head?_toDigits_ne_minus (n : Nat) (rest : List Char) :
    (Nat.toDigits 10 n ++ rest).head? ≠ some '-' := by
  cases hdigits : Nat.toDigits 10 n with
  | nil => exact absurd hdigits Nat.toDigits_ne_nil
  | cons c text =>
    have hdigit : c.isDigit = true :=
      Nat.isDigit_of_mem_toDigits (by decide) (by decide) (hdigits ▸ List.mem_cons_self)
    rintro heq
    cases Option.some.inj heq
    cases hdigit

/-- An unsigned integer of 64 bits is read back. -/
theorem reads_number {n : Nat} (hn : n < Nat.pow 2 64) {rest : List Char} (hr : Ends rest) :
    number.Reads (Nat.toDigits 10 n) (.integer n) rest := by
  have habsorb : absorb 0 (Nat.toDigits 10 n) = (n, 0) := by
    rw [absorb_of_lt] <;> rw [Nat.ofDigitChars_ten_toDigits]
    exact hn
  have hsign := head?_toDigits_ne_minus n rest
  have hnext := hr.not_digit
  unfold number
  refine (reads_peek? _).before ?_
  simp only [hsign, decide_false, if_false]
  refine (reads_wholePart n hr).andThen ((reads_peek? rest).andThen ?_)
  simp only [habsorb, if_true]
  cases hrest : rest.head? with
  | none => exact reads_pure _ rest
  | some c =>
    obtain ⟨_, hpoint, hsmall, hlarge⟩ := hnext c hrest
    split
    next heq => exact absurd (Option.some.inj heq) hpoint
    next heq => exact absurd (Option.some.inj heq) hsmall
    next heq => exact absurd (Option.some.inj heq) hlarge
    next => exact reads_pure _ rest

/-- The digits of a number are gone over. -/
theorem reads_passNumber (n : Nat) {rest : List Char} (hr : Ends rest) :
    passNumber.Reads (Nat.toDigits 10 n) () rest := by
  unfold passNumber
  refine (reads_peek? _).before ?_
  rw [if_neg (head?_toDigits_ne_minus n rest)]
  refine (reads_peek? _).before ?_
  extract_lets _ finish
  have hfinish : (finish ()).Reads [] () rest := by
    refine (reads_peek? rest).andThen ?_
    cases hrest : rest.head? with
    | none => exact reads_pure () rest
    | some c =>
      obtain ⟨_, hpoint, hsmall, hlarge⟩ := hr.not_digit c hrest
      split
      next heq => exact absurd (Option.some.inj heq) hpoint
      next heq => exact absurd (Option.some.inj heq) hsmall
      next heq => exact absurd (Option.some.inj heq) hlarge
      next => exact reads_pure () rest
  have hrest : ∀ c ∈ rest.head?, c.isDigit = false := fun c hc => (hr.not_digit c hc).1
  rcases Nat.eq_zero_or_pos n with rfl | hn
  · rw [Nat.toDigits_zero]
    refine (reads_advance '0' rest).andThen ((reads_peek? rest).andThen ?_)
    cases rest with
    | nil => exact hfinish
    | cons c rest =>
      simp only [List.head?_cons, hrest c rfl, Bool.false_eq_true, if_false]
      exact hfinish
  · obtain ⟨c, text, hdigits, hzero, hall⟩ := toDigits_of_pos hn
    rw [hdigits]
    simp only [List.cons_append, List.head?_cons]
    rw [if_pos (hall c List.mem_cons_self)]
    exact ((reads_digits hall hrest).map _).andThen hfinish

end Decoder

end SourceScribe.Json
