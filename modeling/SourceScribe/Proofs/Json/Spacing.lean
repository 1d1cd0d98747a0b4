import SourceScribe.Json.Cursor
import SourceScribe.Json.Printer

/-!
# Texts of values, up to white space

The compact and the pretty text of a value differ in white space only. A spacing
says where it stands, and with it there is one text of a value to prove things
about: brackets around the texts of its items or members, with commas between
them. Values are plain if their numbers are unsigned integers of 64 bits, which
is what documents hold.
-/

namespace SourceScribe.Json

/-- White space and nothing else. -/
def Blank (text : List Char) : Prop := ∀ c ∈ text, isSpace c = true

/-- No text is white space. -/
theorem blank_nil : Blank [] := by simp [Blank]

/-- The white space that stands in the text of a value. -/
structure Spacing where
  /-- In front of an item or a member at a depth, and of a bracket that closes
  at the depth. -/
  line : Nat → List Char
  /-- Behind the colon of a member. -/
  gap : List Char
  /-- Lines begin with white space. -/
  blank_line : ∀ depth, Blank (line depth)
  /-- Gaps are white space. -/
  blank_gap : Blank gap

namespace Spacing

/-- No white space. -/
def compact : Spacing where
  line _ := []
  gap := []
  blank_line _ := blank_nil
  blank_gap := blank_nil

/-- A line for every item and member, indented by two spaces a depth. -/
def pretty : Spacing where
  line := Value.lineStart
  gap := [' ']
  blank_line depth := by
    intro c hc
    rcases List.mem_cons.mp hc with rfl | hc
    · rfl
    · rw [List.eq_of_mem_replicate hc]
      rfl
  blank_gap := by
    intro c hc
    rw [List.mem_singleton.mp hc]
    rfl

/-- What stands behind the first of some texts between brackets, up to the
closing one. -/
def more (s : Spacing) (depth : Nat) : List (List Char) → List Char
  | [] => s.line depth
  | text :: rest => ',' :: s.line (depth + 1) ++ text ++ s.more depth rest

/-- Texts between brackets, with commas between them. -/
def inner (s : Spacing) (depth : Nat) : List (List Char) → List Char
  | [] => []
  | text :: rest => s.line (depth + 1) ++ text ++ s.more depth rest

/-- The text of a member. -/
def member (s : Spacing) (name : String) (value : List Char) : List Char :=
  stringChars name ++ ':' :: s.gap ++ value

mutual

/-- The text of a value at a depth. -/
def chars (s : Spacing) (depth : Nat) : Value → List Char
  | .null => ['n', 'u', 'l', 'l']
  | .bool true => ['t', 'r', 'u', 'e']
  | .bool false => ['f', 'a', 'l', 's', 'e']
  | .number n => n.chars
  | .string text => stringChars text
  | .array items => '[' :: s.inner depth (itemTexts s (depth + 1) items) ++ [']']
  | .object members => '\x7b' :: s.inner depth (memberTexts s (depth + 1) members) ++ ['\x7d']

/-- The texts of items at a depth. -/
def itemTexts (s : Spacing) (depth : Nat) : List Value → List (List Char)
  | [] => []
  | v :: rest => chars s depth v :: itemTexts s depth rest

/-- The texts of members at a depth. -/
def memberTexts (s : Spacing) (depth : Nat) : List (String × Value) → List (List Char)
  | [] => []
  | (name, v) :: rest => s.member name (chars s depth v) :: memberTexts s depth rest

end

/-- The texts of items are those of the values. -/
theorem itemTexts_eq_map (s : Spacing) (depth : Nat) (items : List Value) :
    s.itemTexts depth items = items.map (s.chars depth) := by
  induction items with
  | nil => rfl
  | cons v items ih => rw [itemTexts, ih, List.map_cons]

/-- The texts of members are those of the values behind their names. -/
theorem memberTexts_eq_map (s : Spacing) (depth : Nat) (members : List (String × Value)) :
    s.memberTexts depth members = members.map fun m => s.member m.1 (s.chars depth m.2) := by
  induction members with
  | nil => rfl
  | cons m members ih => rw [memberTexts, ih, List.map_cons]

end Spacing

namespace Value

mutual

/-- The compact text has no white space. -/
theorem compactChars_eq (depth : Nat) : (v : Value) → v.compactChars = Spacing.compact.chars depth v
  | .null | .bool true | .bool false | .number _ | .string _ | .array [] | .object [] => rfl
  | .array (item :: rest) => by
    rw [compactChars, compactChars_eq (depth + 1) item, compactItems_eq depth rest]
    simp only [Spacing.chars, Spacing.itemTexts, Spacing.inner, Spacing.compact, List.nil_append,
      List.append_assoc, List.cons_append]
  | .object ((name, value) :: rest) => by
    rw [compactChars, compactChars_eq (depth + 1) value, compactMembers_eq depth rest]
    simp only [Spacing.chars, Spacing.memberTexts, Spacing.inner, Spacing.member, Spacing.compact,
      List.nil_append, List.append_assoc, List.cons_append]

/-- So it is behind the first item. -/
theorem compactItems_eq (depth : Nat) : (items : List Value) →
    compactItems items =
      Spacing.compact.more depth (Spacing.compact.itemTexts (depth + 1) items) ++ [']']
  | [] => rfl
  | item :: rest => by
    rw [compactItems, compactChars_eq (depth + 1) item, compactItems_eq depth rest]
    simp only [Spacing.itemTexts, Spacing.more, Spacing.compact, List.nil_append,
      List.append_assoc, List.cons_append]

/-- So it is behind the first member. -/
theorem compactMembers_eq (depth : Nat) : (members : List (String × Value)) →
    compactMembers members =
      Spacing.compact.more depth (Spacing.compact.memberTexts (depth + 1) members) ++ ['\x7d']
  | [] => rfl
  | (name, value) :: rest => by
    rw [compactMembers, compactChars_eq (depth + 1) value, compactMembers_eq depth rest]
    simp only [Spacing.memberTexts, Spacing.more, Spacing.member, Spacing.compact,
      List.nil_append, List.append_assoc, List.cons_append]

end

mutual

/-- The pretty text has lines. -/
theorem prettyChars_eq (depth : Nat) : (v : Value) →
    v.prettyChars depth = Spacing.pretty.chars depth v
  | .null | .bool true | .bool false | .number _ | .string _ | .array [] | .object [] => rfl
  | .array (item :: rest) => by
    rw [prettyChars, prettyChars_eq (depth + 1) item, prettyItems_eq depth rest]
    simp only [Spacing.chars, Spacing.itemTexts, Spacing.inner, Spacing.pretty,
      List.append_assoc, List.cons_append]
  | .object ((name, value) :: rest) => by
    rw [prettyChars, prettyChars_eq (depth + 1) value, prettyMembers_eq depth rest]
    simp only [Spacing.chars, Spacing.memberTexts, Spacing.inner, Spacing.member, Spacing.pretty,
      List.append_assoc, List.cons_append, List.nil_append]

/-- So it has behind the first item. -/
theorem prettyItems_eq (depth : Nat) : (items : List Value) →
    prettyItems depth items =
      Spacing.pretty.more depth (Spacing.pretty.itemTexts (depth + 1) items) ++ [']']
  | [] => rfl
  | item :: rest => by
    rw [prettyItems, prettyChars_eq (depth + 1) item, prettyItems_eq depth rest]
    simp only [Spacing.itemTexts, Spacing.more, Spacing.pretty, List.append_assoc,
      List.cons_append]

/-- So it has behind the first member. -/
theorem prettyMembers_eq (depth : Nat) : (members : List (String × Value)) →
    prettyMembers depth members =
      Spacing.pretty.more depth (Spacing.pretty.memberTexts (depth + 1) members) ++ ['\x7d']
  | [] => rfl
  | (name, value) :: rest => by
    rw [prettyMembers, prettyChars_eq (depth + 1) value, prettyMembers_eq depth rest]
    simp only [Spacing.memberTexts, Spacing.more, Spacing.member, Spacing.pretty,
      List.append_assoc, List.cons_append, List.nil_append]

end

mutual

/-- All numbers of the value are unsigned integers of 64 bits. -/
def Plain : Value → Prop
  | .number (.integer n) => 0 ≤ n ∧ n < Nat.pow 2 64
  | .number (.float _) => False
  | .array items => PlainItems items
  | .object members => PlainMembers members
  | _ => True

/-- All items are plain. -/
def PlainItems : List Value → Prop
  | [] => True
  | v :: rest => v.Plain ∧ PlainItems rest

/-- All values of members are plain. -/
def PlainMembers : List (String × Value) → Prop
  | [] => True
  | (_, v) :: rest => v.Plain ∧ PlainMembers rest

end

/-- Items are plain one by one. -/
theorem plainItems_iff {items : List Value} : PlainItems items ↔ ∀ v ∈ items, v.Plain := by
  induction items with
  | nil => simp [PlainItems]
  | cons v items ih => simp [PlainItems, ih]

/-- Members are plain one by one. -/
theorem plainMembers_iff {members : List (String × Value)} :
    PlainMembers members ↔ ∀ m ∈ members, m.2.Plain := by
  induction members with
  | nil => simp [PlainMembers]
  | cons m members ih => simp [PlainMembers, ih]

/-- Members are plain if those in front and those behind are. -/
theorem PlainMembers.append {members more : List (String × Value)} (h : PlainMembers members)
    (h' : PlainMembers more) : PlainMembers (members ++ more) :=
  plainMembers_iff.mpr fun m hm =>
    (List.mem_append.mp hm).elim (plainMembers_iff.mp h m) (plainMembers_iff.mp h' m)

/-- A member that may be left out stands for what is there. -/
theorem of_mem_optionalMember {α : Type} {name : String} {write : α → Value} {o : Option α}
    {m : String × Value} (h : m ∈ optionalMember name write o) :
    ∃ a ∈ o, m = (name, write a) := by
  cases o with
  | none => cases h
  | some a => exact ⟨a, rfl, List.mem_singleton.mp h⟩

/-- A member that may be left out is plain if it is there. -/
theorem plain_optionalMember {α : Type} {name : String} {write : α → Value} {o : Option α}
    (h : ∀ a ∈ o, (write a).Plain) : PlainMembers (optionalMember name write o) := by
  refine plainMembers_iff.mpr fun m hm => ?_
  obtain ⟨a, ha, rfl⟩ := of_mem_optionalMember hm
  exact h a ha

/-- An unsigned integer of 64 bits is plain. -/
theorem plain_ofNat {n : Nat} (h : n < Nat.pow 2 64) : (ofNat n).Plain :=
  ⟨Int.natCast_nonneg n, Int.ofNat_lt.mpr h⟩

mutual

/-- The number of brackets around the innermost value. -/
def levels : Value → Nat
  | .array items => levelsOfItems items + 1
  | .object members => levelsOfMembers members + 1
  | _ => 0

/-- The greatest number of brackets in an item. -/
def levelsOfItems : List Value → Nat
  | [] => 0
  | v :: rest => max v.levels (levelsOfItems rest)

/-- The greatest number of brackets in the value of a member. -/
def levelsOfMembers : List (String × Value) → Nat
  | [] => 0
  | (_, v) :: rest => max v.levels (levelsOfMembers rest)

end

/-- Items have no more brackets than each of them. -/
theorem levelsOfItems_le_iff {items : List Value} {n : Nat} :
    levelsOfItems items ≤ n ↔ ∀ v ∈ items, v.levels ≤ n := by
  induction items with
  | nil => simp [levelsOfItems]
  | cons v items ih => rw [levelsOfItems, Nat.max_le, ih, List.forall_mem_cons]

/-- Members have no more brackets than the value of each of them. -/
theorem levelsOfMembers_le_iff {members : List (String × Value)} {n : Nat} :
    levelsOfMembers members ≤ n ↔ ∀ m ∈ members, m.2.levels ≤ n := by
  induction members with
  | nil => simp [levelsOfMembers]
  | cons m members ih => rw [levelsOfMembers, Nat.max_le, ih, List.forall_mem_cons]

end Value

/-- The text begins with a character that begins a value or a name. -/
def Opens (text : List Char) : Prop :=
  ∃ c rest, text = c :: rest ∧ isSpace c = false ∧ c ≠ ']' ∧ c ≠ '\x7d' ∧ c ≠ ','

/-- More text does not change how a text begins. -/
theorem Opens.append {text : List Char} (h : Opens text) (more : List Char) :
    Opens (text ++ more) := by
  obtain ⟨c, rest, rfl, hc⟩ := h
  exact ⟨c, rest ++ more, rfl, hc⟩

/-- A member opens with the quote of its name. -/
theorem opens_member (s : Spacing) (name : String) (value : List Char) :
    Opens (s.member name value) :=
  ⟨'"', _, rfl, rfl, by decide, by decide, by decide⟩

/-- A digit is none of the characters that begin anything else. -/
theorem ne_of_isDigit {c : Char} (h : c.isDigit = true) {d : Char} (hd : d.isDigit = false) :
    c ≠ d := by
  rintro rfl
  rw [h] at hd
  cases hd

/-- A digit is no white space. -/
theorem isSpace_of_isDigit {c : Char} (h : c.isDigit = true) : isSpace c = false := by
  simp [isSpace, ne_of_isDigit h]

/-- Digits are the only characters that begin an unsigned integer. -/
theorem chars_integer {n : Int} (h : 0 ≤ n) :
    ∃ c text, Nat.toDigits 10 n.toNat = c :: text ∧ c.isDigit = true ∧
      Number.chars (.integer n) = c :: text := by
  have hnot : ¬ n < 0 := Int.not_lt.mpr h
  have habs : n.natAbs = n.toNat := by omega
  cases hdigits : Nat.toDigits 10 n.toNat with
  | nil => exact absurd hdigits Nat.toDigits_ne_nil
  | cons c text =>
    have hmem : c ∈ Nat.toDigits 10 n.toNat := hdigits ▸ List.mem_cons_self
    refine ⟨c, text, rfl, Nat.isDigit_of_mem_toDigits (by decide) (by decide) hmem, ?_⟩
    rw [Number.chars, integerChars, if_neg hnot, habs, hdigits]

/-- The text of a plain value begins with a character that begins a value, and only
that of `null` with an `n`. -/
theorem Value.Plain.first {v : Value} (h : v.Plain) (s : Spacing) (depth : Nat) :
    ∃ c rest, s.chars depth v = c :: rest ∧ (isSpace c = false ∧ c ≠ ']' ∧ c ≠ '\x7d' ∧ c ≠ ',') ∧
      (c = 'n' → v = .null) := by
  cases v with
  | null => exact ⟨'n', _, rfl, by decide, fun _ => rfl⟩
  | bool b =>
    cases b with
    | true => exact ⟨'t', _, rfl, by decide, nofun⟩
    | false => exact ⟨'f', _, rfl, by decide, nofun⟩
  | number n =>
    cases n with
    | float x => exact absurd h id
    | integer n =>
      obtain ⟨c, rest, _, hdigit, hchars⟩ := chars_integer h.1
      refine ⟨c, rest, hchars, ⟨isSpace_of_isDigit hdigit, ?_, ?_, ?_⟩, fun hn => ?_⟩
      · exact ne_of_isDigit hdigit (by decide)
      · exact ne_of_isDigit hdigit (by decide)
      · exact ne_of_isDigit hdigit (by decide)
      · exact absurd hn (ne_of_isDigit hdigit (by decide))
  | string text => exact ⟨'"', _, rfl, by decide, nofun⟩
  | array items => exact ⟨'[', _, rfl, by decide, nofun⟩
  | object members => exact ⟨'\x7b', _, rfl, by decide, nofun⟩

/-- The text of a plain value opens one. -/
theorem Value.Plain.opens {v : Value} (h : v.Plain) (s : Spacing) (depth : Nat) :
    Opens (s.chars depth v) := by
  obtain ⟨c, rest, hchars, hc, _⟩ := h.first s depth
  exact ⟨c, rest, hchars, hc⟩

end SourceScribe.Json
