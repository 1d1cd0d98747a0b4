import SourceScribe.Proofs.Json.Scalars

/-!
# Arrays and objects are read back

The loops over items and members read texts between brackets one after the
other, as long as they are given more steps than there are texts.
-/

namespace SourceScribe.Json

namespace Spacing

variable (s : Spacing) (depth : Nat)

/-- There are no more texts than characters behind the first of them. -/
theorem length_le_more (texts : List (List Char)) : texts.length ≤ (s.more depth texts).length := by
  induction texts with
  | nil => exact Nat.zero_le _
  | cons text texts ih =>
    rw [more, List.length_append, List.length_append, List.length_cons, List.length_cons]
    omega

/-- A text behind the first is shorter than all that stands there. -/
theorem length_lt_more {text : List Char} {texts : List (List Char)} (h : text ∈ texts) :
    text.length < (s.more depth texts).length := by
  induction texts with
  | nil => cases h
  | cons first texts ih =>
    rw [more, List.length_append, List.length_append, List.length_cons]
    rcases List.mem_cons.mp h with rfl | h
    · omega
    · have hlt := ih h
      omega

/-- There is at most one text more than characters between brackets. -/
theorem length_le_inner (texts : List (List Char)) :
    texts.length ≤ (s.inner depth texts).length + 1 := by
  cases texts with
  | nil => exact Nat.zero_le _
  | cons text texts =>
    have hmore := s.length_le_more depth texts
    rw [inner, List.length_append, List.length_append, List.length_cons]
    omega

/-- A text is no longer than all that stands between brackets. -/
theorem length_le_inner_of_mem {text : List Char} {texts : List (List Char)} (h : text ∈ texts) :
    text.length ≤ (s.inner depth texts).length := by
  cases texts with
  | nil => cases h
  | cons first texts =>
    rw [inner, List.length_append, List.length_append]
    rcases List.mem_cons.mp h with rfl | h
    · omega
    · have hlt := s.length_lt_more depth h
      omega

/-- The text of an array. -/
theorem chars_array (items : List Value) :
    s.chars depth (.array items) = '[' :: s.inner depth (s.itemTexts (depth + 1) items) ++ [']'] :=
  rfl

/-- The text of an object. -/
theorem chars_object (members : List (String × Value)) :
    s.chars depth (.object members) =
      '\x7b' :: s.inner depth (s.memberTexts (depth + 1) members) ++ ['\x7d'] := rfl

/-- The text of an item is shorter than that of its array. -/
theorem length_chars_item {v : Value} {items : List Value} (h : v ∈ items) :
    (s.chars (depth + 1) v).length < (s.chars depth (.array items)).length := by
  have hmem : s.chars (depth + 1) v ∈ s.itemTexts (depth + 1) items := by
    rw [itemTexts_eq_map]
    exact List.mem_map_of_mem h
  have hle := s.length_le_inner_of_mem depth hmem
  rw [chars_array, List.length_append, List.length_cons]
  omega

/-- The text of a value is shorter than that of its object. -/
theorem length_chars_member {m : String × Value} {members : List (String × Value)}
    (h : m ∈ members) :
    (s.chars (depth + 1) m.2).length < (s.chars depth (.object members)).length := by
  have hmem : s.member m.1 (s.chars (depth + 1) m.2) ∈ s.memberTexts (depth + 1) members := by
    rw [memberTexts_eq_map]
    exact List.mem_map.mpr ⟨m, h, rfl⟩
  have hle := s.length_le_inner_of_mem depth hmem
  have hvalue : (s.chars (depth + 1) m.2).length ≤
      (s.member m.1 (s.chars (depth + 1) m.2)).length := by
    rw [member, List.length_append]
    omega
  rw [chars_object, List.length_append, List.length_cons]
  omega

/-- There are fewer items than characters. -/
theorem length_items (items : List Value) :
    items.length < (s.chars depth (.array items)).length := by
  have hle := s.length_le_inner depth (s.itemTexts (depth + 1) items)
  rw [itemTexts_eq_map, List.length_map] at hle
  rw [chars_array, itemTexts_eq_map, List.length_append, List.length_cons, List.length_singleton]
  omega

/-- There are fewer members than characters. -/
theorem length_members (members : List (String × Value)) :
    members.length < (s.chars depth (.object members)).length := by
  have hle := s.length_le_inner depth (s.memberTexts (depth + 1) members)
  rw [memberTexts_eq_map, List.length_map] at hle
  rw [chars_object, memberTexts_eq_map, List.length_append, List.length_cons,
    List.length_singleton]
  omega

end Spacing

namespace Decoder

variable {α σ : Type} {rest : List Char}

/-- The closing bracket is taken behind white space. -/
theorem close_append {b : Bracket} {blank : List Char} (h : Blank blank) (rest : List Char)
    (p : Position) : ∃ q, b.close ⟨blank ++ b.closer :: rest, p⟩ = (.ok (), ⟨rest, q⟩) := by
  have hspace : isSpace b.closer = false := by cases b <;> rfl
  obtain ⟨q, hq⟩ := skipSpace_append h (b.closer :: rest) p
  rw [skipSpace_cons hspace] at hq
  refine ⟨q.after b.closer, ?_⟩
  simp only [Bracket.close, Cursor.atToken, hq, if_true]
  rfl

/-- What stands between brackets is read up to the closing one. -/
theorem reads_enclosed {l : Limits} (hl : 0 < l.depth) {b : Bracket} {inside : Decoder α} {a : α}
    (opener : Char) {text : List Char} (h : inside.Reads text a (b.closer :: rest)) :
    (enclosed l b inside).Reads (opener :: text ++ [b.closer]) a rest := by
  unfold enclosed
  rw [if_neg (Nat.ne_of_gt hl)]
  have hclosing : (closing b inside).Reads (text ++ [b.closer]) a rest := by
    intro p
    obtain ⟨q, hq⟩ := h p
    obtain ⟨r, hr⟩ := close_append (b := b) blank_nil rest q
    refine ⟨r, ?_⟩
    rw [List.nil_append] at hr
    simp only [closing, List.append_assoc, List.singleton_append, hq, hr]
  exact (reads_advance opener _).bind hclosing

/-- A closing bracket follows a value. -/
theorem ends_closer (b : Bracket) (rest : List Char) : Ends (b.closer :: rest) := by
  rintro c ⟨⟩
  cases b with
  | list => exact .inr (.inr (.inl rfl))
  | object => exact .inr (.inr (.inr rfl))

section Items

variable {item : Decoder α} {write : α → List Char} (s : Spacing) (depth : Nat)

/-- Behind the first item there is another behind a comma. -/
theorem reads_nextItem_comma {next : List Char} (h : Opens next) :
    (nextItem false).Reads (',' :: s.line (depth + 1)) true next := by
  obtain ⟨c, more, rfl, hspace, hlist, _, _⟩ := h
  unfold nextItem
  refine (reads_token blank_nil (by decide) _ _).before ?_
  refine (reads_advance ',' _).bind ?_
  refine (reads_token (s.blank_line (depth + 1)) hspace _ _).andThen ?_
  rw [if_neg hlist]
  exact reads_pure true _

/-- There is no other item in front of the closing bracket. -/
theorem reads_nextItem_close {blank : List Char} (h : Blank blank) (first : Bool)
    (rest : List Char) : (nextItem first).Reads blank false (']' :: rest) :=
  (reads_token h (by decide) _ rest).andThen (reads_pure false _)

/-- There is a first item where one begins. -/
theorem reads_nextItem_first {next : List Char} (h : Opens next) :
    (nextItem true).Reads (s.line (depth + 1)) true next := by
  obtain ⟨c, more, rfl, hspace, hlist, _, _⟩ := h
  unfold nextItem
  refine (reads_token (s.blank_line (depth + 1)) hspace _ _).andThen ?_
  split
  next => exact absurd rfl hlist
  next => exact reads_pure true _
  next => exact reads_pure true _

/-- Behind the first item the loop reads the others. -/
theorem reads_itemsLoop_more {as : List α}
    (h : ∀ a ∈ as, item.Takes (write a) a ∧ Opens (write a)) {steps : Nat}
    (hsteps : as.length < steps) (hr : Ends (']' :: rest)) :
    (itemsLoop item steps false).Reads (s.more depth (as.map write)) as (']' :: rest) := by
  induction as generalizing steps with
  | nil =>
    obtain ⟨steps, rfl⟩ := Nat.exists_eq_add_one.mpr hsteps
    exact (reads_nextItem_close (s.blank_line depth) false rest).andThen (reads_pure [] _)
  | cons a as ih =>
    obtain ⟨steps, rfl⟩ := Nat.exists_eq_add_one.mpr (Nat.zero_lt_of_lt hsteps)
    obtain ⟨htakes, hopens⟩ := h a List.mem_cons_self
    have hmore := ih (fun a ha => h a (List.mem_cons_of_mem _ ha)) (Nat.lt_of_succ_lt_succ hsteps)
    rw [List.map_cons, Spacing.more, List.append_assoc]
    unfold itemsLoop
    refine (reads_nextItem_comma s depth ((hopens.append _).append _)).bind ?_
    refine (htakes.reads (s.ends_more depth _ hr)).bind ?_
    exact hmore.andThen (reads_pure (a :: as) _)

/-- The loop reads the items between brackets. -/
theorem reads_itemsLoop {as : List α} (h : ∀ a ∈ as, item.Takes (write a) a ∧ Opens (write a))
    {steps : Nat} (hsteps : as.length < steps) (hr : Ends (']' :: rest)) :
    (itemsLoop item steps true).Reads (s.inner depth (as.map write)) as (']' :: rest) := by
  obtain ⟨steps, rfl⟩ := Nat.exists_eq_add_one.mpr (Nat.zero_lt_of_lt hsteps)
  cases as with
  | nil =>
    exact (reads_nextItem_close blank_nil true rest).andThen (reads_pure [] _)
  | cons a as =>
    obtain ⟨htakes, hopens⟩ := h a List.mem_cons_self
    have hmore := reads_itemsLoop_more s depth (fun a ha => h a (List.mem_cons_of_mem _ ha))
      (Nat.lt_of_succ_lt_succ hsteps) hr
    rw [List.map_cons, Spacing.inner, List.append_assoc]
    unfold itemsLoop
    refine (reads_nextItem_first s depth ((hopens.append _).append _)).bind ?_
    refine (htakes.reads (s.ends_more depth _ hr)).bind ?_
    exact hmore.andThen (reads_pure (a :: as) _)

/-- Items are read between brackets. -/
theorem reads_list {l : Limits} (hl : 0 < l.depth) {as : List α}
    (h : ∀ a ∈ as, item.Takes (write a) a ∧ Opens (write a)) (hsteps : as.length < l.steps)
    (rest : List Char) :
    (enclosed l .list (itemsLoop item l.steps true)).Reads
      ('[' :: s.inner depth (as.map write) ++ [']']) as rest :=
  reads_enclosed hl _ (reads_itemsLoop s depth h hsteps (ends_closer .list rest))

/-- An array is taken if its items are. -/
theorem takes_list {l : Limits} (hl : 0 < l.depth) {as : List α}
    (h : ∀ a ∈ as, item.Takes (write a) a ∧ Opens (write a)) (hsteps : as.length < l.steps) :
    (list l item).Takes ('[' :: s.inner depth (as.map write) ++ [']']) as :=
  takes_token (by decide) fun rest _ => reads_list s depth hl h hsteps rest

end Items

section Members

variable {member : String → σ → Decoder σ} (s : Spacing) (depth : Nat)

/-- The colon behind a name. -/
theorem reads_colon (rest : List Char) : colon.Reads [':'] () rest := by
  unfold colon
  refine (reads_token blank_nil (by decide) _ _).before ?_
  exact reads_advance ':' rest

/-- A value is read behind a colon and the gap. -/
theorem reads_behind_colon {d : Decoder α} {text : List Char} {a : α} (h : d.Takes text a)
    (hr : Ends rest) : (colon >>= fun _ => d).Reads (':' :: s.gap ++ text) a rest := by
  have hvalue : d.Reads (s.gap ++ text) a rest := h s.gap rest s.blank_gap hr
  exact (reads_colon _).bind hvalue

/-- A name is read between its quotes. -/
theorem reads_named (name : String) (rest : List Char) :
    nextName.named.Reads (stringChars name) (some name) rest := by
  unfold nextName.named
  exact (reads_advance '"' _).bind ((reads_stringBody name rest).map some)

/-- Behind the first member there is another behind a comma. -/
theorem reads_nextName_comma (name : String) (rest : List Char) :
    (nextName false).Reads (',' :: s.line (depth + 1) ++ stringChars name) (some name) rest := by
  have hcomma := reads_advance ',' (s.line (depth + 1) ++ stringChars name ++ rest)
  have hquote := reads_token (c := '"') (s.blank_line (depth + 1)) (by decide) .endInValue
    (stringRest name ++ rest)
  unfold nextName
  refine (reads_token blank_nil (by decide) _ _).before ?_
  refine hcomma.bind ?_
  refine hquote.bind ?_
  exact reads_named name rest

/-- There is a first member where a name begins. -/
theorem reads_nextName_first (name : String) (rest : List Char) :
    (nextName true).Reads (s.line (depth + 1) ++ stringChars name) (some name) rest := by
  unfold nextName
  refine (reads_token (c := '"') (s.blank_line (depth + 1)) (by decide) _ _).bind ?_
  exact reads_named name rest

/-- There is no other member in front of the closing brace. -/
theorem reads_nextName_close {blank : List Char} (h : Blank blank) (first : Bool)
    (rest : List Char) : (nextName first).Reads blank none ('\x7d' :: rest) :=
  (reads_token h (by decide) _ rest).andThen (reads_pure none _)

/-- Members, as names and texts, lead from one state to another. -/
inductive Fills (s : Spacing) (member : String → σ → Decoder σ) :
    σ → List (String × List Char) → σ → Prop
  | nil (state : σ) : Fills s member state [] state
  | cons {name : String} {text : List Char} {more : List (String × List Char)}
    {state next final : σ} :
    (∀ rest, Ends rest → (member name state).Reads (':' :: s.gap ++ text) next rest) →
      Fills s member next more final → Fills s member state ((name, text) :: more) final

/-- The text of a member. -/
abbrev memberText (m : String × List Char) : List Char := s.member m.1 m.2

/-- The members of an object, as names and texts. -/
def named (members : List (String × Value)) : List (String × List Char) :=
  members.map fun m => (m.1, s.chars (depth + 1) m.2)

/-- The text of an object is that of its members. -/
theorem chars_object_named (members : List (String × Value)) :
    s.chars depth (.object members) =
      '\x7b' :: s.inner depth ((named s depth members).map (memberText s)) ++ ['\x7d'] := by
  rw [s.chars_object, s.memberTexts_eq_map, named, List.map_map]
  rfl

/-- Behind the first member the loop reads the others. -/
theorem reads_membersLoop_more {members : List (String × List Char)} {state final : σ}
    (h : Fills s member state members final) {steps : Nat} (hsteps : members.length < steps)
    (hr : Ends ('\x7d' :: rest)) :
    (membersLoop member steps false state).Reads (s.more depth (members.map (memberText s))) final
      ('\x7d' :: rest) := by
  induction h generalizing steps with
  | nil state =>
    obtain ⟨steps, rfl⟩ := Nat.exists_eq_add_one.mpr hsteps
    exact (reads_nextName_close (s.blank_line depth) false rest).andThen (reads_pure state _)
  | @cons name text members state _ _ hread _ ih =>
    obtain ⟨steps, rfl⟩ := Nat.exists_eq_add_one.mpr (Nat.zero_lt_of_lt hsteps)
    have hmore := ih (Nat.lt_of_succ_lt_succ hsteps)
    have htext : s.more depth (((name, text) :: members).map (memberText s)) =
        (',' :: s.line (depth + 1) ++ stringChars name) ++
          ((':' :: s.gap ++ text) ++ s.more depth (members.map (memberText s))) := by
      simp only [List.map_cons, Spacing.more, Spacing.member, List.append_assoc, List.cons_append]
    rw [htext]
    unfold membersLoop
    refine (reads_nextName_comma s depth name _).bind ?_
    exact (hread _ (s.ends_more depth _ hr)).bind hmore

/-- The loop reads the members between braces. -/
theorem reads_membersLoop {members : List (String × List Char)} {state final : σ}
    (h : Fills s member state members final) {steps : Nat} (hsteps : members.length < steps)
    (hr : Ends ('\x7d' :: rest)) :
    (membersLoop member steps true state).Reads (s.inner depth (members.map (memberText s))) final
      ('\x7d' :: rest) := by
  obtain ⟨steps, rfl⟩ := Nat.exists_eq_add_one.mpr (Nat.zero_lt_of_lt hsteps)
  cases h with
  | nil =>
    exact (reads_nextName_close blank_nil true rest).andThen (reads_pure state _)
  | @cons name text members _ _ _ hread hmore =>
    have hrest := reads_membersLoop_more s depth hmore (Nat.lt_of_succ_lt_succ hsteps) hr
    have htext : s.inner depth (((name, text) :: members).map (memberText s)) =
        (s.line (depth + 1) ++ stringChars name) ++
          ((':' :: s.gap ++ text) ++ s.more depth (members.map (memberText s))) := by
      simp only [List.map_cons, Spacing.inner, Spacing.member, List.append_assoc, List.cons_append]
    rw [htext]
    unfold membersLoop
    refine (reads_nextName_first s depth name _).bind ?_
    exact (hread _ (s.ends_more depth _ hr)).bind hrest

/-- Members are read between braces. -/
theorem reads_object {l : Limits} (hl : 0 < l.depth) {members : List (String × List Char)}
    {state final : σ} (h : Fills s member state members final) {steps : Nat}
    (hsteps : members.length < steps) {next : σ → Decoder α} {a : α}
    (hn : ∀ rest, (next final).Reads [] a rest) (rest : List Char) :
    (enclosed l .object (membersLoop member steps true state >>= next)).Reads
      ('\x7b' :: s.inner depth (members.map (memberText s)) ++ ['\x7d']) a rest :=
  reads_enclosed hl _ ((reads_membersLoop s depth h hsteps (ends_closer .object rest)).andThen
    (hn ('\x7d' :: rest)))

end Members

end Decoder

end SourceScribe.Json
