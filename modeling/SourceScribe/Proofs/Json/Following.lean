import SourceScribe.Proofs.Json.Scalars

/-!
# Decoders that read alike

Where a decoder reads something, its parts have read something one behind the
other, and it is run by running them. One decoder is followed by another if the
other one reads something wherever it does, up to the same place, which lies
some characters further on. Numbers and strings that are read are gone over by
the decoders that do not ask what they stand for, though not conversely: a
number may be too large, and an escape may be half of a surrogate pair.
-/

namespace SourceScribe.Json

/-- Skipping white space leaves no more characters than there were. -/
theorem length_skipSpace (text : List Char) (p : Position) :
    (skipSpace text p).rest.length ≤ text.length := by
  induction text generalizing p with
  | nil => exact Nat.le_refl 0
  | cons c text ih =>
    unfold skipSpace
    split
    next => exact Nat.le_succ_of_le (ih _)
    next => exact Nat.le_refl _

/-- White space is skipped once. -/
theorem skipSpace_skipSpace (text : List Char) (p : Position) :
    skipSpace (skipSpace text p).rest (skipSpace text p).position = skipSpace text p := by
  induction text generalizing p with
  | nil => rfl
  | cons c text ih =>
    by_cases h : isSpace c = true
    · rw [skipSpace, if_pos h]
      exact ih _
    · have hself : skipSpace (c :: text) p = ⟨c :: text, p⟩ := by rw [skipSpace, if_neg h]
      rw [hself]
      exact hself

namespace Cursor

/-- The next character that is not white space is not in front of the cursor. -/
theorem length_atToken (c : Cursor) : c.atToken.rest.length ≤ c.rest.length :=
  length_skipSpace c.rest c.position

/-- At such a character there is nothing to skip. -/
theorem atToken_atToken (c : Cursor) : c.atToken.atToken = c.atToken :=
  skipSpace_skipSpace c.rest c.position

/-- Behind a character there is the rest. -/
theorem rest_next {c : Cursor} {ch : Char} {rest : List Char} (h : c.rest = ch :: rest) :
    c.next.rest = rest := by
  rw [next, h]

end Cursor

namespace Decoder

variable {α β γ δ : Type} {c after : Cursor}

/-- What is read by two decoders is read by one behind the other. -/
theorem of_bind {d : Decoder α} {next : α → Decoder β} {b : β}
    (h : (d >>= next) c = .ok (b, after)) :
    ∃ a mid, d c = .ok (a, mid) ∧ next a mid = .ok (b, after) := by
  change ((d c : Except Failure (α × Cursor)) >>= fun x => next x.1 x.2) = _ at h
  cases hd : d c with
  | error e =>
    rw [hd] at h
    cases h
  | ok x =>
    rw [hd] at h
    exact ⟨x.1, x.2, rfl, h⟩

/-- Behind what has been read the next decoder goes on. -/
theorem bind_of_ok {d : Decoder α} {next : α → Decoder β} {a : α} {mid : Cursor}
    (h : d c = .ok (a, mid)) : (d >>= next) c = next a mid := by
  change ((d c : Except Failure (α × Cursor)) >>= fun x => next x.1 x.2) = _
  rw [h]
  rfl

/-- Behind the next character what comes next goes on. -/
theorem bind_advance (next : Unit → Decoder α) (c : Cursor) :
    (advance >>= next) c = next () c.next := bind_of_ok rfl

/-- What comes next does not matter to where a decoder reads alike. -/
theorem bind_congr_cursor {d : Decoder α} {c' : Cursor} (h : d c = d c') (next : α → Decoder β) :
    (d >>= next) c = (d >>= next) c' := by
  change ((d c : Except Failure (α × Cursor)) >>= fun x => next x.1 x.2) = _
  rw [h]
  rfl

/-- What is changed has been read. -/
theorem of_map {d : Decoder α} {f : α → β} {b : β} (h : (f <$> d) c = .ok (b, after)) :
    ∃ a, d c = .ok (a, after) ∧ f a = b := by
  change ((d c : Except Failure (α × Cursor)) >>= fun x => .ok (f x.1, x.2)) = _ at h
  cases hd : d c with
  | error e =>
    rw [hd] at h
    cases h
  | ok x =>
    rw [hd] at h
    cases h
    exact ⟨x.1, rfl, rfl⟩

/-- What has been read is changed. -/
theorem map_of_ok {d : Decoder α} {f : α → β} {a : α} (h : d c = .ok (a, after)) :
    (f <$> d) c = .ok (f a, after) := by
  change ((d c : Except Failure (α × Cursor)) >>= fun x => .ok (f x.1, x.2)) = _
  rw [h]
  rfl

/-- What goes on from a character has a character to go on from. -/
theorem of_token {atEnd : Reason} {next : Char → Decoder α} {a : α}
    (h : (token atEnd >>= next) c = .ok (a, after)) :
    ∃ ch rest, c.atToken.rest = ch :: rest ∧ next ch c.atToken = .ok (a, after) := by
  obtain ⟨ch, mid, htoken, hnext⟩ := of_bind h
  obtain ⟨o, mid', hpeek, htoken⟩ := of_bind htoken
  cases hpeek
  cases hrest : c.atToken.rest with
  | nil =>
    rw [hrest] at htoken
    cases htoken
  | cons ch rest =>
    rw [hrest] at htoken
    cases htoken
    exact ⟨ch, rest, rfl, hnext⟩

/-- What goes on from a character goes on at the character. -/
theorem token_of_rest (atEnd : Reason) (next : Char → Decoder α) {ch : Char} {rest : List Char}
    (h : c.atToken.rest = ch :: rest) : (token atEnd >>= next) c = next ch c.atToken := by
  have htoken : token atEnd c = .ok (ch, c.atToken) := by
    have hpeek : token? c = .ok (some ch, c.atToken) := by
      rw [token?, h]
      rfl
    exact bind_of_ok hpeek
  exact bind_of_ok htoken

/-- Wherever the first decoder reads something, the other one reads something that
belongs to it, up to the same place, which is some characters further on. -/
def FollowedBy (d : Decoder α) (e : Decoder β) (n : Nat) (R : α → β → Prop) : Prop :=
  ∀ c a after, d c = .ok (a, after) →
    after.rest.length + n ≤ c.rest.length ∧ ∃ b, e c = .ok (b, after) ∧ R a b

variable {d : Decoder α} {e : Decoder β} {n : Nat} {R : α → β → Prop} {S : γ → δ → Prop}

/-- Decoders that are put together follow each other one by one, and their characters add up. -/
theorem FollowedBy.bind_add {m : Nat} (h : d.FollowedBy e m R) {f : α → Decoder γ}
    {g : β → Decoder δ} (hn : ∀ a b, R a b → (f a).FollowedBy (g b) n S) :
    (d >>= f).FollowedBy (e >>= g) (m + n) S := by
  intro c x after heq
  obtain ⟨a, mid, hd, hf⟩ := of_bind heq
  obtain ⟨hmid, b, he, hr⟩ := h c a mid hd
  obtain ⟨hafter, y, hg, hs⟩ := hn a b hr mid x after hf
  exact ⟨by omega, y, (bind_of_ok he).trans hg, hs⟩

/-- The characters may be read by what comes first. -/
theorem FollowedBy.bind (h : d.FollowedBy e n R) {f : α → Decoder γ} {g : β → Decoder δ}
    (hn : ∀ a b, R a b → (f a).FollowedBy (g b) 0 S) : (d >>= f).FollowedBy (e >>= g) n S :=
  h.bind_add hn

/-- The characters may be read by what comes later. -/
theorem FollowedBy.before (h : d.FollowedBy e 0 R) {f : α → Decoder γ} {g : β → Decoder δ}
    (hn : ∀ a b, R a b → (f a).FollowedBy (g b) n S) : (d >>= f).FollowedBy (e >>= g) n S := by
  rw [← Nat.zero_add n]
  exact h.bind_add hn

/-- What is given without reading follows. -/
theorem followedBy_pure {a : α} {b : β} (h : R a b) :
    (pure a : Decoder α).FollowedBy (pure b) 0 R := by
  rintro c _ _ ⟨⟩
  exact ⟨Nat.le_refl _, b, rfl, h⟩

/-- What fails is followed by anything. -/
theorem failHere_followedBy (reason : Reason) : (failHere reason : Decoder α).FollowedBy e n R :=
  nofun

/-- What fails one byte ahead is followed by anything. -/
theorem failAhead_followedBy (reason : Reason) : (failAhead reason : Decoder α).FollowedBy e n R :=
  nofun

/-- Looking at the next character follows itself. -/
theorem followedBy_peek? : peek?.FollowedBy peek? 0 Eq := by
  rintro c _ _ ⟨⟩
  exact ⟨Nat.le_refl _, _, rfl, rfl⟩

/-- The next character leaves no more than there was. -/
theorem length_next (c : Cursor) : c.next.rest.length ≤ c.rest.length := by
  unfold Cursor.next
  split
  next => exact Nat.le_refl _
  next heq =>
    rw [heq]
    exact Nat.le_succ _

/-- Going over the next character follows itself. -/
theorem followedBy_advance : advance.FollowedBy advance 0 Eq := by
  rintro c _ _ ⟨⟩
  exact ⟨length_next c, (), rfl, rfl⟩

/-- Going over digits follows itself. -/
theorem followedBy_digits : digits.FollowedBy digits 0 Eq := by
  rintro c _ _ ⟨⟩
  exact ⟨(List.dropWhile_suffix _).length_le, _, rfl, rfl⟩

/-- Digits are gone over without a result. -/
theorem digits_followedBy_discard : digits.FollowedBy (discard digits) 0 fun _ _ => True := by
  rintro c _ _ ⟨⟩
  exact ⟨(List.dropWhile_suffix _).length_le, (), rfl, trivial⟩

/-- Looking at the place reads nothing. -/
theorem get_followedBy {f : Cursor → Decoder α} (h : ∀ place, (f place).FollowedBy e n R) :
    (get >>= f).FollowedBy e n R := by
  intro c a after heq
  obtain ⟨place, mid, hplace, hf⟩ := of_bind heq
  cases hplace
  exact h c c a after hf

/-- What goes on without reading is followed as if it did not. -/
theorem FollowedBy.andThen (h : d.FollowedBy e n R) {f : α → Decoder γ} {T : γ → β → Prop}
    (hf : ∀ a b, R a b → (f a).FollowedBy (pure b) 0 T) : (d >>= f).FollowedBy e n T := by
  have hbind := h.bind hf
  rwa [bind_pure] at hbind

/-- What follows may be changed. -/
theorem FollowedBy.into (h : d.FollowedBy e n R) {f : β → δ} {T : α → δ → Prop}
    (hf : ∀ a b, R a b → T a (f b)) : d.FollowedBy (e >>= fun b => pure (f b)) n T := by
  intro c a after heq
  obtain ⟨hlength, b, he, hr⟩ := h c a after heq
  exact ⟨hlength, f b, bind_of_ok he, hf a b hr⟩

/-- A number that is computed is at the cursor. -/
theorem floating_followedBy (negative : Bool) (significand : Nat) (exponent : Int) :
    (floating negative significand exponent).FollowedBy (pure ()) 0 fun _ _ => True := by
  unfold floating
  split
  next => exact followedBy_pure trivial
  next => exact failHere_followedBy _

/-- What is read as an exponent is gone over. -/
theorem exponentPart_followedBy (negative : Bool) (significand : Nat) (start : Int) :
    (exponentPart negative significand start).FollowedBy passExponent 0 fun _ _ => True := by
  unfold exponentPart passExponent
  refine followedBy_advance.bind fun _ _ _ => followedBy_peek?.bind fun sign _ hsign => ?_
  subst hsign
  extract_lets down jp jp'
  have hjp : (jp ()).FollowedBy (jp' ()) 0 fun _ _ => True := by
    refine followedBy_peek?.bind fun o _ ho => ?_
    subst ho
    cases o with
    | none => exact failHere_followedBy _
    | some ch =>
      by_cases hdigit : ch.isDigit = true
      · simp only [hdigit, Bool.not_true, Bool.false_eq_true, if_false, if_true]
        refine get_followedBy fun place => digits_followedBy_discard.andThen fun text _ _ => ?_
        split
        next =>
          split
          next => exact nofun
          next => exact followedBy_pure trivial
        next => exact floating_followedBy _ _ _
      · simp only [hdigit, Bool.not_false, if_true]
        exact failAhead_followedBy _
  split
  next => exact followedBy_advance.bind fun _ _ _ => hjp
  next => exact hjp

/-- What goes on from the next character goes over an exponent if the character is the letter
of one. -/
structure PassesExponent (next : Option Char → Decoder Unit) : Prop where
  /-- Behind the small letter there is an exponent. -/
  small : next (some 'e') = passExponent
  /-- Behind the capital letter there is an exponent. -/
  capital : next (some 'E') = passExponent
  /-- Behind anything else there is none. -/
  other : ∀ o, o ≠ some 'e' → o ≠ some 'E' → next o = pure ()

/-- What is read as a fraction is gone over. -/
theorem fractionPart_followedBy (negative : Bool) (significand skipped : Nat)
    {next : Option Char → Decoder Unit} (hnext : PassesExponent next) :
    (fractionPart negative significand skipped).FollowedBy
      (do
        advance
        if (← digits).isEmpty then failAhead .invalidNumber
        next (← peek?)) 0 fun _ _ => True := by
  unfold fractionPart
  refine followedBy_advance.bind fun _ _ _ => followedBy_digits.bind fun text _ htext => ?_
  subst htext
  split
  next =>
    refine fun c a after heq => ?_
    obtain ⟨o, mid, hpeek, hfail⟩ := of_bind heq
    cases o <;> cases hfail
  next =>
    refine followedBy_peek?.bind fun o _ ho => ?_
    subst ho
    split
    next =>
      rw [hnext.small]
      exact exponentPart_followedBy _ _ _
    next =>
      rw [hnext.capital]
      exact exponentPart_followedBy _ _ _
    next hsmall hcapital =>
      rw [hnext.other _ hsmall hcapital]
      exact floating_followedBy _ _ _

/-- What goes on from the next character goes on at the cursor. -/
theorem of_peek? {next : Option Char → Decoder α} {a : α}
    (h : (peek? >>= next) c = .ok (a, after)) :
    ∃ o, c.rest.head? = o ∧ next o c = .ok (a, after) := by
  obtain ⟨o, mid, hpeek, h⟩ := of_bind h
  cases hpeek
  exact ⟨_, rfl, h⟩

/-- A text with a first character is the character and the rest. -/
theorem eq_cons_of_head? {text : List Char} {ch : Char} (h : text.head? = some ch) :
    text = ch :: text.tail := by
  cases text with
  | nil => cases h
  | cons first text =>
    cases h
    rfl

/-- The digits in front of a decimal point are a zero that stands alone, or others. -/
theorem of_wholePart {text : List Char} (h : wholePart c = .ok (text, after)) :
    ∃ ch rest, c.rest = ch :: rest ∧ ch.isDigit = true ∧
      (ch = '0' ∧ after = c.next ∧ (∀ first ∈ rest.head?, first.isDigit = false) ∨
        ch ≠ '0' ∧ digits c = .ok (text, after)) := by
  obtain ⟨o, ho, h⟩ := of_peek? h
  split at h
  next => cases h
  next =>
    have hrest := eq_cons_of_head? ho
    obtain ⟨_, mid, hadvance, h⟩ := of_bind h
    cases hadvance
    obtain ⟨o, ho', h⟩ := of_peek? h
    rw [Cursor.rest_next hrest] at ho'
    refine ⟨'0', _, hrest, by decide, .inl ⟨rfl, ?_⟩⟩
    rw [ho']
    split at h
    next first =>
      split at h
      next => cases h
      next hdigit =>
        cases h
        exact ⟨rfl, by simpa using hdigit⟩
    next =>
      cases h
      exact ⟨rfl, by simp⟩
  next ch hzero =>
    split at h
    next hdigit =>
      exact ⟨ch, _, eq_cons_of_head? ho, hdigit, .inr ⟨fun heq => hzero (heq ▸ rfl), h⟩⟩
    next => cases h

/-- Reads what stands behind the digits in front of a decimal point. -/
def behindWhole (negative : Bool) (text : List Char) : Decoder Number := do
  let (n, left) := absorb 0 text
  match ← peek? with
  | some '.' => fractionPart negative n left
  | some 'e' | some 'E' => exponentPart negative n left
  | _ => if left = 0 then pure (wholeNumber negative n) else floating negative n left

/-- Goes over what stands behind the digits in front of a decimal point. -/
def passBehindWhole : Decoder Unit := do
  match ← peek? with
  | some '.' =>
    advance
    if (← digits).isEmpty then failAhead .invalidNumber
    match ← peek? with
    | some 'e' | some 'E' => passExponent
    | _ => pure ()
  | some 'e' | some 'E' => passExponent
  | _ => pure ()

/-- What is read behind such digits is gone over. -/
theorem behindWhole_followedBy (negative : Bool) (text : List Char) :
    (behindWhole negative text).FollowedBy passBehindWhole 0 fun _ _ => True := by
  refine followedBy_peek?.bind fun o _ ho => ?_
  subst ho
  split
  next =>
    refine fractionPart_followedBy _ _ _ ⟨rfl, rfl, fun o hsmall hcapital => ?_⟩
    split
    next => exact absurd rfl hsmall
    next => exact absurd rfl hcapital
    next => rfl
  next => exact exponentPart_followedBy _ _ _
  next => exact exponentPart_followedBy _ _ _
  next =>
    split
    next => exact followedBy_pure trivial
    next => exact floating_followedBy _ _ _

/-- Digits are followed by what does not begin with one. -/
theorem length_digits {text rest : List Char} {ch : Char} (hrest : c.rest = ch :: rest)
    (hdigit : ch.isDigit = true) (h : digits c = .ok (text, after)) :
    after.rest.length + 1 ≤ c.rest.length := by
  cases h
  rw [hrest, List.dropWhile_cons_of_pos hdigit]
  exact Nat.succ_le_succ (List.dropWhile_suffix _).length_le

/-- What is read as a number is gone over. -/
theorem number_followedBy : number.FollowedBy passNumber 1 fun _ _ => True := by
  unfold number passNumber
  refine followedBy_peek?.before fun o _ ho => ?_
  subst ho
  extract_lets negative jp inner tail jp'
  have hjp : (jp ()).FollowedBy (jp' ()) 1 fun _ _ => True := by
    intro c a after heq
    obtain ⟨text, mid, hwhole, hnumber⟩ := of_bind heq
    obtain ⟨hlength, hpass⟩ := behindWhole_followedBy negative text mid a after hnumber
    obtain ⟨ch, rest, hrest, hdigit, hcases⟩ := of_wholePart hwhole
    have hpeek : peek? c = .ok (some ch, c) := by rw [peek?, hrest]; rfl
    have hmid : mid.rest.length + 1 ≤ c.rest.length ∧ jp' () c = passBehindWhole mid := by
      rcases hcases with ⟨rfl, rfl, hnone⟩ | ⟨hzero, hdigits⟩
      · refine ⟨by rw [Cursor.rest_next hrest, hrest]; exact Nat.le_refl _, ?_⟩
        refine (bind_of_ok hpeek).trans ?_
        have hpeek : peek? c.next = .ok (rest.head?, c.next) := by
          rw [peek?, Cursor.rest_next hrest]
        refine (bind_of_ok (show advance c = .ok ((), c.next) from rfl)).trans ?_
        refine (bind_of_ok hpeek).trans ?_
        cases rest with
        | nil => rfl
        | cons first rest =>
          dsimp only [List.head?_cons]
          rw [if_neg (by simp [hnone first rfl])]
          rfl
      · refine ⟨length_digits hrest hdigit hdigits, ?_⟩
        have hdiscard : discard digits c = .ok ((), mid) := by
          cases hdigits
          rfl
        refine (bind_of_ok hpeek).trans ?_
        generalize ho : some ch = o
        split
        next => cases ho
        next => exact absurd (Option.some.inj ho) hzero
        next =>
          cases ho
          rw [if_pos hdigit]
          exact bind_of_ok hdiscard
    rw [hmid.2]
    exact ⟨by omega, hpass⟩
  split
  next => exact followedBy_advance.before fun _ _ _ => hjp
  next => exact hjp

/-- What is read as the inside of a string is gone over. -/
theorem passString_of_scanString {text done : List Char} {p : Position} {string : String}
    (h : scanString text p done = .ok (string, after)) :
    passString text p = .ok after ∧ after.rest.length < text.length := by
  fun_induction scanString text p done with
  | case2 =>
    cases h
    exact ⟨by rw [passString], Nat.lt_succ_self _⟩
  | case5 p done a b c d unit hunit _ _ e f g i more second hsecond _ ih =>
    obtain ⟨hpass, hlength⟩ := ih h
    rw [passString_number hunit, passString_number hsecond]
    exact ⟨hpass, by simp only [List.length_cons]; omega⟩
  | case9 p done a b c d rest unit hunit _ _ ih =>
    obtain ⟨hpass, hlength⟩ := ih h
    rw [passString_number hunit]
    exact ⟨hpass, by simp only [List.length_cons]; omega⟩
  | case11 c rest p done hu e he ih =>
    obtain ⟨hpass, hlength⟩ := ih h
    rw [passString_escape hu he]
    exact ⟨hpass, by simp only [List.length_cons]; omega⟩
  | case15 c rest p done hquote hu hslash hend hsmall ih =>
    obtain ⟨hpass, hlength⟩ := ih h
    rw [passString, if_neg hsmall]
    · exact ⟨hpass, Nat.lt_succ_of_lt hlength⟩
    all_goals assumption
  | case1 | case3 | case4 | case6 | case7 | case8 | case10 | case12 | case13 | case14 => cases h

/-- What is read as a string is gone over. -/
theorem stringBody_followedBy : stringBody.FollowedBy passStringBody 1 fun _ _ => True := by
  intro c text after h
  unfold stringBody at h
  split at h
  next text after hscan =>
    cases h
    obtain ⟨hpass, hlength⟩ := passString_of_scanString hscan
    exact ⟨hlength, (), by rw [passStringBody, hpass], trivial⟩
  next => cases h

/-- Going over a word leaves no more than there was. -/
theorem length_word {text : List Char} {r : Unit} (h : word text c = .ok (r, after)) :
    after.rest.length ≤ c.rest.length := by
  induction text generalizing c with
  | nil =>
    cases h
    exact Nat.le_refl _
  | cons ch text ih =>
    obtain ⟨o, _, h⟩ := of_peek? h
    split at h
    next => cases h
    next =>
      split at h
      next =>
        obtain ⟨_, mid, hadvance, h⟩ := of_bind h
        cases hadvance
        exact Nat.le_trans (ih h) (length_next c)
      next => cases h

end Decoder

end SourceScribe.Json
