import SourceScribe.Proofs.Reading

/-!
# Literals end where they say

A quote in a text is bare when no backslash escapes it, which is when an even number
of backslashes stands right in front of it. A reader of literals goes from the bare
quote that opens a literal to the next one, whatever the text is. The literal of a
value is read as the value, so its own quotes are the only bare ones in it: no value
can end its literal early, and nothing that follows can change what is read.
-/

namespace SourceScribe.Text.Quoted

/-- Whether a text ends with a backslash that escapes what comes next. -/
def endsEscaping (text : List Char) : Bool :=
  (text.reverse.takeWhile (· == '\\')).length % 2 == 1

/-- A quote stands at the place, and no backslash escapes it. -/
def BareQuote (text : List Char) (i : Nat) : Prop :=
  text[i]? = some '"' ∧ endsEscaping (text.take i) = false

instance (text : List Char) (i : Nat) : Decidable (BareQuote text i) :=
  inferInstanceAs (Decidable (_ ∧ _))

/-- A backslash escapes what comes next unless it is escaped itself. -/
theorem endsEscaping_concat (text : List Char) (c : Char) :
    endsEscaping (text ++ [c]) = (c == '\\' && !endsEscaping text) := by
  unfold endsEscaping
  rw [List.reverse_append, List.reverse_singleton, List.singleton_append, List.takeWhile_cons]
  by_cases hc : c = '\\'
  · simp only [hc, beq_self_eq_true, if_true, List.length_cons, Bool.true_and]
    grind
  · simp [hc]

/-- What follows a text of whole characters begins with a bare quote if it begins with a
quote. -/
theorem bareQuote_behind {before : List Char} (h : endsEscaping before = false) (c : Char)
    (text : List Char) : BareQuote (before ++ c :: text) before.length ↔ c = '"' := by
  simp [BareQuote, h]

/-- An escaped character is no bare quote. -/
theorem not_bareQuote_escaped {before : List Char} (h : endsEscaping before = false)
    (text : List Char) : ¬ BareQuote (before ++ '\\' :: text) (before.length + 1) := by
  have htake : (before ++ '\\' :: text).take (before.length + 1) = before ++ ['\\'] := by
    rw [List.append_cons, List.take_left' (by simp)]
  rw [BareQuote, htake, endsEscaping_concat, h]
  simp

/-- Behind a text, the first bare quote stands so many characters on. -/
def FirstBareQuote (before text : List Char) (n : Nat) : Prop :=
  ∀ i, before.length ≤ i → i ≤ before.length + n →
    (BareQuote (before ++ text) i ↔ i = before.length + n)

/-- Characters without a bare quote may stand in front of the first one. -/
theorem FirstBareQuote.behind {before chunk text : List Char} {n : Nat}
    (h : FirstBareQuote (before ++ chunk) text n)
    (hchunk : ∀ i, before.length ≤ i → i < before.length + chunk.length →
      ¬ BareQuote (before ++ (chunk ++ text)) i) :
    FirstBareQuote before (chunk ++ text) (chunk.length + n) := by
  intro i hle hge
  rcases Nat.lt_or_ge i (before.length + chunk.length) with hinside | hbehind
  · exact iff_of_false (hchunk i hle hinside) (by omega)
  · have hrest := h i
    rw [List.length_append, List.append_assoc, Nat.add_assoc] at hrest
    exact hrest hbehind hge

/-- The inside of a literal ends in front of the first bare quote. -/
theorem decodeBody_stops {before text value w : List Char} (hbefore : endsEscaping before = false)
    (h : decodeBody text = some (value, w)) :
    ∃ body, text = body ++ '"' :: w ∧ FirstBareQuote before text body.length := by
  fun_induction decodeBody text generalizing before value with
  | case1 => cases h
  | case2 text =>
    cases h
    refine ⟨[], rfl, fun i hle hge => ?_⟩
    obtain rfl : i = before.length := Nat.le_antisymm hge hle
    simp [bareQuote_behind hbefore]
  | case3 e text inner after c hinner hc ih =>
    cases h
    have hpair : endsEscaping (before ++ ['\\', e]) = false := by
      rw [List.append_cons before, endsEscaping_concat, endsEscaping_concat, hbefore]
      simp
    obtain ⟨body, rfl, hbody⟩ := ih hpair hinner
    refine ⟨'\\' :: e :: body, rfl, ?_⟩
    have hfirst : FirstBareQuote before (['\\', e] ++ (body ++ '"' :: w)) (2 + body.length) := by
      refine hbody.behind fun i hle hlt => ?_
      rcases Nat.eq_or_lt_of_le hle with rfl | hsecond
      · simp [bareQuote_behind hbefore]
      · obtain rfl : i = before.length + 1 := Nat.le_antisymm (Nat.le_of_lt_succ hlt) hsecond
        exact not_bareQuote_escaped hbefore _
    rwa [Nat.add_comm] at hfirst
  | case4 => cases h
  | case5 c text hquote hescape ih =>
    obtain ⟨⟨inner, after⟩, hinner, heq⟩ := Option.map_eq_some_iff.mp h
    cases heq
    have hplain : c ≠ '\\' := by
      rintro rfl
      cases text with
      | nil => cases hinner
      | cons e text => exact hescape e text rfl rfl
    have hsingle : endsEscaping (before ++ [c]) = false := by
      rw [endsEscaping_concat]
      simp [hplain]
    obtain ⟨body, rfl, hbody⟩ := ih hsingle hinner
    refine ⟨c :: body, rfl, ?_⟩
    have hfirst : FirstBareQuote before ([c] ++ (body ++ '"' :: w)) (1 + body.length) := by
      refine hbody.behind fun i hle hlt => ?_
      obtain rfl : i = before.length := Nat.le_antisymm (Nat.le_of_lt_succ hlt) hle
      exact fun hbare => hquote ((bareQuote_behind hbefore c _).mp hbare)
    rwa [Nat.add_comm] at hfirst

/-- A literal that is read goes from a bare quote to the next one. -/
theorem decode_stops {text value w : List Char} (h : decode text = some (value, w)) :
    ∃ body, text = '"' :: body ++ '"' :: w ∧
      ∀ i ≤ body.length + 1, BareQuote text i ↔ i = 0 ∨ i = body.length + 1 := by
  unfold decode at h
  split at h
  next text =>
    have hopen : endsEscaping ['"'] = false := by decide
    obtain ⟨body, rfl, hbody⟩ := decodeBody_stops hopen h
    refine ⟨body, rfl, fun i hle => ?_⟩
    rcases Nat.eq_zero_or_pos i with rfl | hpos
    · exact iff_of_true ⟨rfl, rfl⟩ (.inl rfl)
    · have hinside := hbody i hpos (by simp only [List.length_singleton]; omega)
      rw [List.singleton_append, List.length_singleton, Nat.add_comm 1] at hinside
      rw [hinside]
      exact (or_iff_right (Nat.ne_of_gt hpos)).symm
  next => cases h

/-- No line ends and tabs are left in an escaped character. -/
theorem visible_of_mem_escape {c x : Char} (h : x ∈ escape c) : x ∉ ['\n', '\r', '\t'] := by
  unfold escape at h
  split at h
  case h_6 hnewline hreturn htab =>
    rw [List.mem_singleton.mp h]
    simpa using ⟨hnewline, hreturn, htab⟩
  all_goals
    rcases List.mem_cons.mp h with rfl | h
    · decide
    · rw [List.mem_singleton.mp h]
      decide

/-- No line ends and tabs are left in a literal. -/
theorem visible_of_mem_encode {value : List Char} {x : Char} (h : x ∈ encode value) :
    x ∉ ['\n', '\r', '\t'] := by
  have hbody : x = '"' ∨ x ∈ value.flatMap escape := by
    simpa [encode, or_comm, or_assoc] using h
  rcases hbody with rfl | hbody
  · decide
  · obtain ⟨c, -, hc⟩ := List.mem_flatMap.mp hbody
    exact visible_of_mem_escape hc

/-- **Literals are read back.** Whatever follows the literal of a value, a reader takes
up exactly the literal and gives the value. In the literal there are no line ends and
tabs, and of its characters the first and the last are the only bare quotes. So a text
begins with the literal of at most one value. -/
theorem literal_reads_back (value : String) (w : List Char) :
    decode ((literal value).toList ++ w) = some (value.toList, w) ∧
      (∀ c ∈ (literal value).toList, c ∉ ['\n', '\r', '\t']) ∧
      (∀ i < (literal value).length, BareQuote ((literal value).toList ++ w) i ↔
        i = 0 ∨ i + 1 = (literal value).length) ∧
      ∀ other w', (literal other).toList ++ w' = (literal value).toList ++ w →
        other = value ∧ w' = w := by
  have hlist : ∀ text, (literal text).toList = encode text.toList := fun text =>
    String.toList_ofList
  have hread := decode_encode value.toList w
  simp only [← String.length_toList, hlist]
  refine ⟨hread, fun c hc => visible_of_mem_encode hc, fun i hi => ?_, fun other w' hsame => ?_⟩
  · obtain ⟨body, hbody, hquotes⟩ := decode_stops hread
    have hliteral : encode value.toList = '"' :: body ++ ['"'] := by
      rw [List.append_cons] at hbody
      exact List.append_cancel_right hbody
    have hlength : (encode value.toList).length = body.length + 2 := by simp [hliteral]
    rw [hlength] at hi ⊢
    rw [hquotes i (by omega)]
    omega
  · have hother := decode_encode other.toList w'
    rw [hsame, hread] at hother
    cases Prod.mk.inj (Option.some.inj hother) with
    | intro htext hw => exact ⟨String.toList_inj.mp htext.symm, hw.symm⟩

/-- A backslash in front of a quote, as a value and behind its literal. -/
theorem literal_reads_back_escapedQuote :
    (literal "\\\"").toList = "\"\\\\\\\"\"".toList ∧
      decode ((literal "\\\"").toList ++ "\\\"".toList) = some (['\\', '"'], ['\\', '"']) ∧
      ¬ BareQuote ((literal "\\\"").toList ++ "\\\"".toList) 4 ∧
      BareQuote ((literal "\\\"").toList ++ "\\\"".toList) 5 := by
  obtain ⟨hread, _, hquotes, _⟩ := literal_reads_back "\\\"" "\\\"".toList
  have hlength : (literal "\\\"").length = 6 := by decide
  rw [hlength] at hquotes
  exact ⟨by decide, hread, (hquotes 4 (by decide)).not.mpr (by decide),
    (hquotes 5 (by decide)).mpr (by decide)⟩

end SourceScribe.Text.Quoted
