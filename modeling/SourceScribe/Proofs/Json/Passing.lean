import SourceScribe.Proofs.Json.Values

/-!
# Plain values are gone over

Going over a value keeps the brackets around the place in a list and needs no
more steps than the text has characters, so that a value may have any number of
brackets. What goes over a text goes on behind it as something else; this
relation is composed along the text.
-/

namespace SourceScribe.Json

namespace Decoder

variable {α β : Type} {text more rest : List Char}

/-- The decoder goes over the text in front of the rest and goes on there like
the other one. -/
def GoesOn (d : Decoder α) (text rest : List Char) (e : Decoder α) : Prop :=
  ∀ p, ∃ q, d ⟨text ++ rest, p⟩ = e ⟨rest, q⟩

/-- Texts are gone over one behind the other. -/
theorem GoesOn.trans {d e f : Decoder α} (h : d.GoesOn text (more ++ rest) e)
    (h' : e.GoesOn more rest f) : d.GoesOn (text ++ more) rest f := by
  intro p
  obtain ⟨q, hq⟩ := h p
  obtain ⟨r, hr⟩ := h' q
  exact ⟨r, by rw [List.append_assoc, hq, hr]⟩

/-- Behind a text that has been read there is what comes next. -/
theorem Reads.goesOn {d : Decoder α} {a : α} (h : d.Reads text a rest) (next : α → Decoder β) :
    (d >>= next).GoesOn text rest (next a) := by
  intro p
  obtain ⟨q, hq⟩ := h p
  refine ⟨q, ?_⟩
  change ((d ⟨text ++ rest, p⟩ : Except Failure (α × Cursor)) >>= fun x => next x.1 x.2) = _
  rw [hq]
  rfl

/-- What is gone over is read if nothing comes behind it. -/
theorem GoesOn.reads {d e : Decoder α} {a : α} (h : d.GoesOn text rest e)
    (he : e.Reads [] a rest) : d.Reads text a rest := by
  intro p
  obtain ⟨q, hq⟩ := h p
  obtain ⟨r, hr⟩ := he q
  exact ⟨r, hq.trans hr⟩

/-- The text of an item or of a member is gone over, behind white space, with no
more steps than it has characters. -/
def Passes (b : Bracket) (text : List Char) : Prop :=
  ∀ (steps : Nat) (around : List Bracket) (blank rest : List Char), Blank blank → Ends rest →
    text.length ≤ steps → ∃ left, steps ≤ left + text.length ∧
      (passLoop.passName b >>= fun _ => passLoop steps true around).GoesOn (blank ++ text) rest
        (passLoop left false around)

variable (s : Spacing) (depth : Nat)

/-- The name of a member is gone over in front of its value. -/
theorem Passes.member {name : String} (h : Passes .list text) :
    Passes .object (s.member name text) := by
  intro steps around blank rest hb hr hsteps
  have hlength : text.length ≤ (s.member name text).length := by
    rw [Spacing.member, List.length_append]
    omega
  obtain ⟨left, hleft, hvalue⟩ := h steps around s.gap rest s.blank_gap hr
    (Nat.le_trans hlength hsteps)
  have hname : (passLoop.passName .object).Reads (blank ++ (stringChars name ++ [':'])) ()
      (s.gap ++ text ++ rest) := by
    unfold passLoop.passName
    refine (reads_token (c := '"') hb (by decide) _ _).bind ?_
    refine (reads_advance '"' _).bind ?_
    exact (reads_passStringBody name _).bind (reads_colon _)
  have htext : blank ++ s.member name text =
      (blank ++ (stringChars name ++ [':'])) ++ (s.gap ++ text) := by
    simp only [Spacing.member, List.append_assoc, List.cons_append, List.nil_append]
  refine ⟨left, Nat.le_trans hleft (Nat.add_le_add_left hlength left), ?_⟩
  rw [htext]
  exact (hname.goesOn _).trans hvalue

/-- A comma is gone over in front of the next text. -/
theorem passLoop_comma (b : Bracket) (steps : Nat) (around : List Bracket) {blank : List Char}
    (hb : Blank blank) (rest : List Char) :
    (passLoop (steps + 1) false (b :: around)).GoesOn (blank ++ [',']) rest
      (passLoop.passName b >>= fun _ => passLoop steps true (b :: around)) := by
  rw [passLoop]
  refine ((reads_token (c := ',') hb (by decide) _ rest).goesOn _).trans ?_
  exact (reads_advance ',' rest).goesOn _

/-- A closing bracket is gone over behind white space. -/
theorem passLoop_closer (b : Bracket) (steps : Nat) (around : List Bracket) {blank : List Char}
    (hb : Blank blank) (rest : List Char) :
    (passLoop (steps + 1) false (b :: around)).GoesOn (blank ++ [b.closer]) rest
      (passLoop steps false around) := by
  have hspace : isSpace b.closer = false := by cases b <;> rfl
  have hcomma : b.closer ≠ ',' := by cases b <;> decide
  rw [passLoop]
  refine ((reads_token hb hspace _ rest).goesOn _).trans ?_
  rw [if_neg hcomma, if_pos rfl]
  exact (reads_advance _ rest).goesOn _

/-- Behind the first text the others and the closing bracket are gone over. -/
theorem passLoop_more (b : Bracket) {texts : List (List Char)} (h : ∀ text ∈ texts, Passes b text)
    {steps : Nat} (around : List Bracket) (rest : List Char)
    (hsteps : (s.more depth texts).length < steps) :
    ∃ left, steps ≤ left + (s.more depth texts).length + 1 ∧
      (passLoop steps false (b :: around)).GoesOn (s.more depth texts ++ [b.closer]) rest
        (passLoop left false around) := by
  obtain ⟨steps, rfl⟩ := Nat.exists_eq_add_one.mpr (Nat.zero_lt_of_lt hsteps)
  induction texts generalizing steps with
  | nil =>
    refine ⟨steps, by omega, ?_⟩
    exact passLoop_closer b steps around (s.blank_line depth) rest
  | cons text texts ih =>
    rw [Spacing.more, List.length_append, List.length_append, List.length_cons] at hsteps
    obtain ⟨next, hnext, htext⟩ := h text List.mem_cons_self steps (b :: around) _ _
      (s.blank_line (depth + 1)) (s.ends_more depth texts (ends_closer b rest)) (by omega)
    obtain ⟨next, rfl⟩ := Nat.exists_eq_add_one.mpr (show 0 < next by omega)
    obtain ⟨left, hleft, hmore⟩ := ih (fun text hmem => h text (List.mem_cons_of_mem _ hmem)) next
      (by omega)
    refine ⟨left, ?_, ?_⟩
    · rw [Spacing.more, List.length_append, List.length_append, List.length_cons]
      omega
    · have heq : s.more depth (text :: texts) ++ [b.closer] =
          ([] ++ [',']) ++
            ((s.line (depth + 1) ++ text) ++ (s.more depth texts ++ [b.closer])) := by
        simp only [Spacing.more, List.append_assoc, List.cons_append, List.nil_append]
      rw [List.append_cons _ b.closer] at htext
      rw [heq]
      exact (passLoop_comma b steps around blank_nil _).trans (htext.trans hmore)

/-- What stands between brackets is gone over up to the closing one. -/
theorem opened_goesOn (b : Bracket) {texts : List (List Char)}
    (h : ∀ text ∈ texts, Passes b text ∧ Opens text) {steps : Nat} {around : List Bracket}
    (hsteps : (s.inner depth texts).length < steps) :
    ∃ left, steps ≤ left + (s.inner depth texts).length + 1 ∧
      (passLoop.opened steps b around).GoesOn (s.inner depth texts ++ [b.closer]) rest
        (passLoop left false around) := by
  have hspace : isSpace b.closer = false := by cases b <;> rfl
  cases texts with
  | nil =>
    refine ⟨steps, by omega, ?_⟩
    unfold passLoop.opened
    refine ((reads_token blank_nil hspace _ _).goesOn _).trans ?_
    rw [if_pos rfl]
    exact (reads_advance _ rest).goesOn _
  | cons text texts =>
    obtain ⟨hpasses, c, tail, rfl, hfirst, hlist, hobject, _⟩ := h text List.mem_cons_self
    have hcloser : c ≠ b.closer := by cases b with
      | list => exact hlist
      | object => exact hobject
    rw [Spacing.inner, List.length_append, List.length_append] at hsteps
    obtain ⟨next, hnext, htext⟩ := hpasses steps (b :: around) [] _ blank_nil
      (s.ends_more depth texts (ends_closer b rest)) (by omega)
    have hlength : (s.more depth texts).length < next := by omega
    obtain ⟨left, hleft, hmore⟩ := passLoop_more s depth b
      (fun text hmem => (h text (List.mem_cons_of_mem _ hmem)).1) around rest hlength
    refine ⟨left, ?_, ?_⟩
    · rw [Spacing.inner, List.length_append, List.length_append]
      omega
    · have heq : s.inner depth ((c :: tail) :: texts) ++ [b.closer] =
          s.line (depth + 1) ++ (([] ++ c :: tail) ++ (s.more depth texts ++ [b.closer])) := by
        simp only [Spacing.inner, List.append_assoc, List.nil_append]
      rw [List.append_cons _ b.closer] at htext
      rw [heq]
      unfold passLoop.opened
      refine ((reads_token (s.blank_line (depth + 1)) hfirst _ _).goesOn _).trans ?_
      rw [if_neg hcloser]
      exact htext.trans hmore

/-- A text passes as an item if it does from its first character on. -/
theorem passes_of_first {c : Char} (hc : isSpace c = false)
    (h : ∀ (steps : Nat) (around : List Bracket) (rest : List Char), Ends rest →
      text.length ≤ steps → ∃ left, steps ≤ left + text.length ∧
        ∃ next, passLoop (steps + 1) true around = (token .endInValue >>= next) ∧
          (next c).GoesOn (c :: text) rest (passLoop left false around)) :
    Passes .list (c :: text) := by
  intro steps around blank rest hb hr hsteps
  rw [List.length_cons] at hsteps
  obtain ⟨steps, rfl⟩ := Nat.exists_eq_add_one.mpr (Nat.zero_lt_of_lt hsteps)
  obtain ⟨left, hleft, next, heq, hnext⟩ := h steps around rest hr (Nat.le_of_succ_le_succ hsteps)
  refine ⟨left, by rw [List.length_cons]; omega, ?_⟩
  have htoken := reads_token hb hc .endInValue (text ++ rest)
  have hstart := (reads_pure () (blank ++ c :: text ++ rest)).goesOn fun _ =>
    passLoop (steps + 1) true around
  rw [heq] at hstart ⊢
  exact hstart.trans ((htoken.goesOn next).trans hnext)

mutual

/-- A plain value is gone over. -/
theorem passes_chars : (v : Value) → {depth : Nat} → v.Plain → Passes .list (s.chars depth v)
  | .null, _, _ => by
    refine passes_of_first (by decide) fun steps around rest _ _ =>
      ⟨steps, Nat.le_add_right _ _, _, by rw [passLoop], ?_⟩
    exact ((reads_advance 'n' _).goesOn _).trans ((reads_word _ rest).goesOn _)
  | .bool true, _, _ => by
    refine passes_of_first (by decide) fun steps around rest _ _ =>
      ⟨steps, Nat.le_add_right _ _, _, by rw [passLoop], ?_⟩
    exact ((reads_advance 't' _).goesOn _).trans ((reads_word _ rest).goesOn _)
  | .bool false, _, _ => by
    refine passes_of_first (by decide) fun steps around rest _ _ =>
      ⟨steps, Nat.le_add_right _ _, _, by rw [passLoop], ?_⟩
    exact ((reads_advance 'f' _).goesOn _).trans ((reads_word _ rest).goesOn _)
  | .number (.float _), _, hv => absurd hv id
  | .number (.integer n), _, hv => by
    obtain ⟨c, text, hdigits, hdigit, hchars⟩ := chars_integer hv.1
    have hread : ∀ rest, Ends rest → passNumber.Reads (c :: text) () rest := fun rest hr =>
      hdigits ▸ reads_passNumber n.toNat hr
    rw [Spacing.chars, hchars]
    refine passes_of_first (isSpace_of_isDigit hdigit) fun steps around rest hr _ =>
      ⟨steps, Nat.le_add_right _ _, _, by rw [passLoop], ?_⟩
    split
    next => cases ne_of_isDigit hdigit (d := 'n') (by decide) rfl
    next => cases ne_of_isDigit hdigit (d := 't') (by decide) rfl
    next => cases ne_of_isDigit hdigit (d := 'f') (by decide) rfl
    next => cases ne_of_isDigit hdigit (d := '"') (by decide) rfl
    next => cases ne_of_isDigit hdigit (d := '[') (by decide) rfl
    next => cases ne_of_isDigit hdigit (d := '\x7b') (by decide) rfl
    next =>
      rw [if_pos (by simp [hdigit])]
      exact (hread rest hr).goesOn _
  | .string text, _, _ => by
    refine passes_of_first (by decide) fun steps around rest _ _ =>
      ⟨steps, Nat.le_add_right _ _, _, by rw [passLoop], ?_⟩
    exact ((reads_advance '"' _).goesOn _).trans ((reads_passStringBody text rest).goesOn _)
  | .array items, depth, hv => by
    rw [s.chars_array, List.cons_append]
    refine passes_of_first (by decide) fun steps around rest hr hsteps => ?_
    rw [List.length_append, List.length_singleton] at hsteps ⊢
    obtain ⟨left, hleft, hinner⟩ := opened_goesOn s depth .list (passes_items items hv) hsteps
    refine ⟨left, hleft, _, by rw [passLoop], ?_⟩
    exact ((reads_advance '[' _).goesOn _).trans hinner
  | .object members, depth, hv => by
    rw [s.chars_object, List.cons_append]
    refine passes_of_first (by decide) fun steps around rest hr hsteps => ?_
    rw [List.length_append, List.length_singleton] at hsteps ⊢
    obtain ⟨left, hleft, hinner⟩ := opened_goesOn s depth .object (passes_members members hv) hsteps
    refine ⟨left, hleft, _, by rw [passLoop], ?_⟩
    exact ((reads_advance '\x7b' _).goesOn _).trans hinner

/-- Plain items are gone over one by one. -/
theorem passes_items : (items : List Value) → {depth : Nat} → Value.PlainItems items →
    ∀ text ∈ s.itemTexts depth items, Passes .list text ∧ Opens text
  | [], _, _ => by simp [Spacing.itemTexts]
  | v :: items, depth, hv => by
    intro text hmem
    rw [Spacing.itemTexts] at hmem
    rcases List.mem_cons.mp hmem with rfl | hmem
    · exact ⟨passes_chars v hv.1, hv.1.opens s depth⟩
    · exact passes_items items hv.2 text hmem

/-- Plain members are gone over one by one. -/
theorem passes_members : (members : List (String × Value)) → {depth : Nat} →
    Value.PlainMembers members →
    ∀ text ∈ s.memberTexts depth members, Passes .object text ∧ Opens text
  | [], _, _ => by simp [Spacing.memberTexts]
  | (name, v) :: members, depth, hv => by
    intro text hmem
    rw [Spacing.memberTexts] at hmem
    rcases List.mem_cons.mp hmem with rfl | hmem
    · exact ⟨(passes_chars v hv.1).member s, opens_member s name _⟩
    · exact passes_members members hv.2 text hmem

end

/-- A plain value whose text is no longer than the steps allow is passed over. -/
theorem takes_pass {l : Limits} {v : Value} {depth : Nat} (hv : v.Plain)
    (hsteps : (s.chars depth v).length < l.steps) : (pass l).Takes (s.chars depth v) () := by
  intro blank rest hb hr
  have hpasses : Passes .list (s.chars depth v) := passes_chars s v hv
  obtain ⟨left, hleft, hpass⟩ := hpasses (2 * l.steps) [] blank rest hb hr (by omega)
  obtain ⟨left, rfl⟩ := Nat.exists_eq_add_one.mpr (show 0 < left by omega)
  refine GoesOn.reads hpass ?_
  rw [passLoop]
  exact reads_pure () rest

end Decoder

end SourceScribe.Json
