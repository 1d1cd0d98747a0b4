import SourceScribe.Proofs.Json.Brackets

/-!
# Plain values are read back

A value without brackets is read from its first character on, and every plain
value is read back from its text if as many brackets may be opened as it has.
-/

namespace SourceScribe.Json

namespace Decoder

variable {rest : List Char} (s : Spacing)

/-- Behind a digit there is a number. -/
theorem plainValue_of_isDigit {c : Char} (h : c.isDigit = true) :
    plainValue c = Value.number <$> number := by
  unfold plainValue
  split
  next => cases ne_of_isDigit h (d := 'n') (by decide) rfl
  next => cases ne_of_isDigit h (d := 't') (by decide) rfl
  next => cases ne_of_isDigit h (d := 'f') (by decide) rfl
  next => cases ne_of_isDigit h (d := '"') (by decide) rfl
  next => rw [if_pos (by simp [h])]

/-- A value without brackets is read from its first character on. -/
theorem reads_plainValue {v : Value} (hv : v.Plain) (hlevels : v.levels = 0) (depth : Nat)
    (hr : Ends rest) : ∃ c text, s.chars depth v = c :: text ∧ isSpace c = false ∧ c ≠ '[' ∧
      c ≠ '\x7b' ∧ (plainValue c).Reads (c :: text) v rest := by
  cases v with
  | null =>
    refine ⟨'n', _, rfl, by decide, by decide, by decide, ?_⟩
    exact (reads_advance 'n' _).bind ((reads_word ['u', 'l', 'l'] rest).andThen (reads_pure _ rest))
  | bool b =>
    cases b with
    | true =>
      refine ⟨'t', _, rfl, by decide, by decide, by decide, ?_⟩
      exact (reads_advance 't' _).bind
        ((reads_word ['r', 'u', 'e'] rest).andThen (reads_pure _ rest))
    | false =>
      refine ⟨'f', _, rfl, by decide, by decide, by decide, ?_⟩
      exact (reads_advance 'f' _).bind
        ((reads_word ['a', 'l', 's', 'e'] rest).andThen (reads_pure _ rest))
  | number n =>
    cases n with
    | float x => exact absurd hv id
    | integer n =>
      obtain ⟨hnonneg, hlt⟩ := hv
      obtain ⟨c, text, hdigits, hdigit, hchars⟩ := chars_integer hnonneg
      have hread := reads_number (n := n.toNat) (by omega) hr
      rw [hdigits, Int.toNat_of_nonneg hnonneg] at hread
      refine ⟨c, text, hchars, isSpace_of_isDigit hdigit, ne_of_isDigit hdigit (by decide),
        ne_of_isDigit hdigit (by decide), ?_⟩
      rw [plainValue_of_isDigit hdigit]
      exact hread.map Value.number
  | string text =>
    refine ⟨'"', stringRest text, rfl, by decide, by decide, by decide, ?_⟩
    exact (reads_advance '"' _).bind ((reads_stringBody text rest).map Value.string)
  | array items => cases hlevels
  | object members => cases hlevels

/-- A value without brackets is taken, however many may be opened. -/
theorem takes_valueAt_plain {v : Value} (hv : v.Plain) (hlevels : v.levels = 0)
    (steps d depth : Nat) : (valueAt steps d).Takes (s.chars depth v) v := by
  intro blank rest hb hr
  obtain ⟨c, text, hchars, hspace, hlist, hobject, hread⟩ := reads_plainValue s hv hlevels depth hr
  rw [hchars]
  cases d with
  | zero =>
    refine (reads_token hb hspace _ (text ++ rest)).bind ?_
    split
    next => exact absurd rfl hlist
    next => exact absurd rfl hobject
    next => exact hread
  | succ d =>
    refine (reads_token hb hspace _ (text ++ rest)).bind ?_
    split
    next => exact absurd rfl hlist
    next => exact absurd rfl hobject
    next => exact hread

/-- How the members of an object are collected, the last of them first. -/
def collect (steps d : Nat) (name : String) (members : List (String × Value)) :
    Decoder (List (String × Value)) := do
  colon
  return (name, ← valueAt steps d) :: members

mutual

/-- A plain value is taken if as many brackets may be opened as it has. -/
theorem takes_valueAt {steps : Nat} : (v : Value) → {d depth : Nat} → v.Plain → v.levels ≤ d →
    (s.chars depth v).length < steps → (valueAt steps d).Takes (s.chars depth v) v
  | .null, d, depth, hv, _, _ => takes_valueAt_plain s hv rfl steps d depth
  | .bool _, d, depth, hv, _, _ => takes_valueAt_plain s hv rfl steps d depth
  | .number _, d, depth, hv, _, _ => takes_valueAt_plain s hv rfl steps d depth
  | .string _, d, depth, hv, _, _ => takes_valueAt_plain s hv rfl steps d depth
  | .array items, 0, _, _, hd, _ => absurd hd (Nat.not_succ_le_zero _)
  | .array items, d + 1, depth, hv, hd, hsteps => by
    have hitems := takes_items items hv (Nat.le_of_succ_le_succ hd) fun v hmem =>
      Nat.lt_trans (s.length_chars_item depth hmem) hsteps
    have hlength : items.length < steps := Nat.lt_trans (s.length_items depth items) hsteps
    rw [s.chars_array, s.itemTexts_eq_map]
    refine takes_token (by decide) fun rest _ => ?_
    exact (reads_list (l := ⟨steps, d + 1⟩) s depth (Nat.succ_pos d) hitems hlength rest).map
      Value.array
  | .object members, 0, _, _, hd, _ => absurd hd (Nat.not_succ_le_zero _)
  | .object members, d + 1, depth, hv, hd, hsteps => by
    have hmembers := fills_collect members hv (Nat.le_of_succ_le_succ hd)
      (fun m hmem => Nat.lt_trans (s.length_chars_member depth hmem) hsteps) []
    have hlength : (named s depth members).length < steps := by
      rw [named, List.length_map]
      exact Nat.lt_trans (s.length_members depth members) hsteps
    rw [chars_object_named]
    refine takes_token (by decide) fun rest _ => ?_
    have hloop := reads_membersLoop s depth hmembers hlength (ends_closer .object rest)
    rw [List.append_nil] at hloop
    have hread := reads_enclosed (l := ⟨steps, d + 1⟩) (b := .object) (Nat.succ_pos d) '\x7b' hloop
    have hvalue := hread.map fun (members : List (String × Value)) => Value.object members.reverse
    rwa [List.reverse_reverse] at hvalue

/-- Plain items are taken one by one. -/
theorem takes_items {steps : Nat} : (items : List Value) → {d depth : Nat} →
    Value.PlainItems items → Value.levelsOfItems items ≤ d →
    (∀ v ∈ items, (s.chars depth v).length < steps) →
    ∀ v ∈ items, (valueAt steps d).Takes (s.chars depth v) v ∧ Opens (s.chars depth v)
  | [], _, _, _, _, _ => by simp
  | first :: items, d, depth, hv, hd, hsteps => by
    have hfirst : (valueAt steps d).Takes (s.chars depth first) first :=
      takes_valueAt first hv.1 (Nat.le_trans (Nat.le_max_left _ _) hd)
        (hsteps first List.mem_cons_self)
    have hitems : ∀ v ∈ items, (valueAt steps d).Takes (s.chars depth v) v ∧
        Opens (s.chars depth v) := takes_items items hv.2
      (Nat.le_trans (Nat.le_max_right _ _) hd) fun v hmem => hsteps v (List.mem_cons_of_mem _ hmem)
    intro v hmem
    rcases List.mem_cons.mp hmem with rfl | hmem
    · exact ⟨hfirst, hv.1.opens s depth⟩
    · exact hitems v hmem

/-- Plain members are collected one by one. -/
theorem fills_collect {steps : Nat} : (members : List (String × Value)) → {d depth : Nat} →
    Value.PlainMembers members → Value.levelsOfMembers members ≤ d →
    (∀ m ∈ members, (s.chars (depth + 1) m.2).length < steps) → (done : List (String × Value)) →
    Fills s (collect steps d) done (named s depth members) (members.reverse ++ done)
  | [], _, _, _, _, _, done => .nil done
  | (name, v) :: members, d, depth, hv, hd, hsteps, done => by
    have hfirst : (valueAt steps d).Takes (s.chars (depth + 1) v) v :=
      takes_valueAt v hv.1 (Nat.le_trans (Nat.le_max_left _ _) hd) (hsteps _ List.mem_cons_self)
    have hmembers : Fills s (collect steps d) ((name, v) :: done) (named s depth members)
        (members.reverse ++ (name, v) :: done) :=
      fills_collect members hv.2 (Nat.le_trans (Nat.le_max_right _ _) hd)
        (fun m hmem => hsteps m (List.mem_cons_of_mem _ hmem)) ((name, v) :: done)
    rw [List.reverse_cons, List.append_assoc]
    refine .cons (fun rest hr => ?_) hmembers
    exact reads_behind_colon s (hfirst.andThen fun rest => reads_pure ((name, v) :: done) rest) hr

end

end Decoder

end SourceScribe.Json
