import SourceScribe.Proofs.Json.Spacing

/-!
# What decoders read

A decoder reads a text as a value in front of some rest if it succeeds there
with the value and leaves the rest, wherever the text stands. Decoders that are
bound together read texts that stand one behind the other. A decoder takes the
text of a value if it reads it behind any white space and in front of anything
that may follow a value.
-/

namespace SourceScribe.Json

/-- What may follow the text of a value. -/
def Ends (rest : List Char) : Prop :=
  ∀ c ∈ rest.head?, isSpace c = true ∨ c = ',' ∨ c = ']' ∨ c = '\x7d'

/-- The end of the text follows a value. -/
theorem ends_nil : Ends [] := by
  intro c hc
  cases hc

/-- A comma follows a value. -/
theorem ends_comma (rest : List Char) : Ends (',' :: rest) := by
  rintro c ⟨⟩
  exact .inr (.inl rfl)

/-- White space in front of what follows a value follows a value. -/
theorem Blank.ends_append {blank rest : List Char} (h : Blank blank) (hr : Ends rest) :
    Ends (blank ++ rest) := by
  cases blank with
  | nil => exact hr
  | cons c blank =>
    rintro c ⟨⟩
    exact .inl (h c List.mem_cons_self)

/-- What follows the first of some texts between brackets follows a value. -/
theorem Spacing.ends_more (s : Spacing) (depth : Nat) (texts : List (List Char)) {rest : List Char}
    (hr : Ends rest) : Ends (s.more depth texts ++ rest) := by
  cases texts with
  | nil => exact (s.blank_line depth).ends_append hr
  | cons text texts => exact ends_comma _

namespace Decoder

variable {α β : Type} {text more rest : List Char} {a : α} {b : β}

/-- The decoder reads the text as the value in front of the rest. -/
def Reads (d : Decoder α) (text : List Char) (a : α) (rest : List Char) : Prop :=
  ∀ p, ∃ q, d ⟨text ++ rest, p⟩ = .ok (a, ⟨rest, q⟩)

/-- Without a text nothing is read. -/
theorem reads_pure (a : α) (rest : List Char) : Reads (pure a) [] a rest := fun p => ⟨p, rfl⟩

/-- Texts are read one behind the other. -/
theorem Reads.bind {d : Decoder α} {next : α → Decoder β} (h : d.Reads text a (more ++ rest))
    (hn : (next a).Reads more b rest) : (d >>= next).Reads (text ++ more) b rest := by
  intro p
  obtain ⟨q, hq⟩ := h p
  obtain ⟨r, hr⟩ := hn q
  refine ⟨r, ?_⟩
  change ((d ⟨text ++ more ++ rest, p⟩ : Except Failure (α × Cursor)) >>= fun x => next x.1 x.2) = _
  rw [List.append_assoc, hq]
  exact hr

/-- What comes behind the text may read nothing. -/
theorem Reads.andThen {d : Decoder α} {next : α → Decoder β} (h : d.Reads text a rest)
    (hn : (next a).Reads [] b rest) : (d >>= next).Reads text b rest := by
  have hboth : (d >>= next).Reads (text ++ []) b rest := Reads.bind h hn
  rwa [List.append_nil] at hboth

/-- What comes in front of the text may read nothing. -/
theorem Reads.before {d : Decoder α} {next : α → Decoder β} (h : d.Reads [] a (more ++ rest))
    (hn : (next a).Reads more b rest) : (d >>= next).Reads more b rest := Reads.bind h hn

/-- The value that is read may be changed. -/
theorem Reads.map {d : Decoder α} (h : d.Reads text a rest) (f : α → β) :
    (f <$> d).Reads text (f a) rest := by
  intro p
  obtain ⟨q, hq⟩ := h p
  refine ⟨q, ?_⟩
  change ((d ⟨text ++ rest, p⟩ : Except Failure (α × Cursor)) >>= fun x => .ok (f x.1, x.2)) = _
  rw [hq]
  rfl

/-- White space is skipped up to what follows it. -/
theorem skipSpace_append {blank : List Char} (h : Blank blank) (rest : List Char) (p : Position) :
    ∃ q, skipSpace (blank ++ rest) p = skipSpace rest q := by
  induction blank generalizing p with
  | nil => exact ⟨p, rfl⟩
  | cons c blank ih =>
    obtain ⟨q, hq⟩ := ih (fun c hc => h c (List.mem_cons_of_mem _ hc)) (p.after c)
    refine ⟨q, ?_⟩
    rw [List.cons_append, skipSpace, if_pos (h c List.mem_cons_self)]
    exact hq

/-- Anything else is not skipped. -/
theorem skipSpace_cons {c : Char} (h : isSpace c = false) (rest : List Char) (p : Position) :
    skipSpace (c :: rest) p = ⟨c :: rest, p⟩ := by
  rw [skipSpace, if_neg (by simp [h])]

/-- The next character behind white space, if there may be none. -/
theorem reads_token? {blank : List Char} (h : Blank blank) {c : Char} (hc : isSpace c = false)
    (rest : List Char) : token?.Reads blank (some c) (c :: rest) := by
  intro p
  obtain ⟨q, hq⟩ := skipSpace_append h (c :: rest) p
  rw [skipSpace_cons hc] at hq
  refine ⟨q, ?_⟩
  simp only [token?, Cursor.atToken, hq]
  rfl

/-- The next character behind white space. -/
theorem reads_token {blank : List Char} (h : Blank blank) {c : Char} (hc : isSpace c = false)
    (atEnd : Reason) (rest : List Char) : (token atEnd).Reads blank c (c :: rest) :=
  (reads_token? h hc rest).andThen (reads_pure c _)

/-- The next character is looked at. -/
theorem reads_peek? (rest : List Char) : peek?.Reads [] rest.head? rest := fun p => ⟨p, rfl⟩

/-- The next character is gone over. -/
theorem reads_advance (c : Char) (rest : List Char) : advance.Reads [c] () rest :=
  fun p => ⟨p.after c, rfl⟩

/-- A word is gone over. -/
theorem reads_word (text rest : List Char) : (word text).Reads text () rest := by
  induction text with
  | nil => exact reads_pure () rest
  | cons c text ih =>
    unfold word
    refine (reads_peek? _).before ?_
    rw [List.cons_append, List.head?_cons]
    simp only [if_true]
    exact (reads_advance c _).bind ih

/-- Digits are gone over up to something else. -/
theorem reads_digits (h : ∀ c ∈ text, c.isDigit = true) (hr : ∀ c ∈ rest.head?, c.isDigit = false) :
    digits.Reads text text rest := by
  intro p
  have htake : (text ++ rest).takeWhile Char.isDigit = text ∧
      (text ++ rest).dropWhile Char.isDigit = rest := by
    rw [List.takeWhile_append_of_pos h, List.dropWhile_append_of_pos h]
    cases rest with
    | nil => simp
    | cons c rest => simp [hr c rfl]
  exact ⟨_, by simp only [digits, htake]; rfl⟩

/-- The decoder takes the text of a value: behind white space, and in front of
what may follow a value. -/
def Takes (d : Decoder α) (text : List Char) (a : α) : Prop :=
  ∀ blank rest, Blank blank → Ends rest → d.Reads (blank ++ text) a rest

/-- A text that begins with no white space is taken as soon as it is read. -/
theorem Takes.reads {d : Decoder α} (h : d.Takes text a) (hr : Ends rest) : d.Reads text a rest :=
  h [] rest (fun c hc => by cases hc) hr

/-- The value that is taken may be changed. -/
theorem Takes.map {d : Decoder α} (h : d.Takes text a) (f : α → β) : (f <$> d).Takes text (f a) :=
  fun blank rest hb hr => (h blank rest hb hr).map f

/-- What comes behind the text may read nothing. -/
theorem Takes.andThen {d : Decoder α} {next : α → Decoder β} (h : d.Takes text a)
    (hn : ∀ rest, (next a).Reads [] b rest) : (d >>= next).Takes text b :=
  fun blank rest hb hr => (h blank rest hb hr).andThen (hn rest)

/-- A text is taken by what goes on behind its first character. -/
theorem takes_token {atEnd : Reason} {next : Char → Decoder α} {c : Char} (hc : isSpace c = false)
    (h : ∀ rest, Ends rest → (next c).Reads (c :: text) a rest) :
    Takes (token atEnd >>= next) (c :: text) a :=
  fun _ rest hb hr => (reads_token hb hc atEnd (text ++ rest)).bind (h rest hr)

/-- So it is by what goes on behind the first character of a text that may be at
its end. -/
theorem takes_token? {next : Option Char → Decoder α} {c : Char} (hc : isSpace c = false)
    (h : ∀ rest, Ends rest → (next (some c)).Reads (c :: text) a rest) :
    Takes (token? >>= next) (c :: text) a :=
  fun _ rest hb hr => (reads_token? hb hc (text ++ rest)).bind (h rest hr)

end Decoder

/-- A whole text is decoded by what takes it. -/
theorem decode_of_takes {α : Type} {read : Limits → Decoder α} {text : List Char} {a : α}
    (h : (read (.ofText text)).Takes text a) : decode read (String.ofList text) = .ok a := by
  obtain ⟨q, hq⟩ := h.reads ends_nil .start
  rw [List.append_nil] at hq
  unfold decode
  rw [String.toList_ofList]
  simp only [hq, Cursor.atToken, skipSpace]

end SourceScribe.Json
