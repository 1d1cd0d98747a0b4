import SourceScribe.Proofs.Json.Passing

/-!
# Typed values are restored

A decoder restores something from a value if it takes every text of the value,
whatever its spacing and its depth, that is shorter than the steps allow. What
a record holds is restored member by member: a known member is restored into
what is known so far, and a member that nobody asks for is passed over.
-/

namespace SourceScribe.Json

namespace Decoder

variable {α β σ : Type} {steps : Nat} {d : Decoder α} {v : Value} {a : α}

/-- The decoder takes every text of the value that is shorter than the number of
steps. -/
def Restores (steps : Nat) (d : Decoder α) (v : Value) (a : α) : Prop :=
  ∀ (s : Spacing) (depth : Nat), (s.chars depth v).length < steps → d.Takes (s.chars depth v) a

/-- What is restored may be changed. -/
theorem Restores.map (h : d.Restores steps v a) (f : α → β) : (f <$> d).Restores steps v (f a) :=
  fun s depth hsteps => (h s depth hsteps).map f

/-- An unsigned integer is restored from a number. -/
theorem restores_natural {w : WordSize} {n : Nat} (hw : n < w.bound) (hn : n < Nat.pow 2 64) :
    (natural w).Restores steps (.ofNat n) n := by
  intro s depth _
  obtain ⟨c, text, hdigits, hdigit, hchars⟩ := chars_integer (Int.natCast_nonneg n)
  have hword : (Number.integer n).toWord w = .ok n := by
    rw [Number.toWord, if_pos]
    · rfl
    · simp [hw]
  rw [Value.ofNat, Spacing.chars, hchars]
  refine takes_token (isSpace_of_isDigit hdigit) fun rest hr => ?_
  rw [if_pos (by simp [hdigit]), ← hdigits]
  refine (reads_number hn hr).andThen ?_
  rw [hword]
  exact reads_pure n rest

/-- A string is restored. -/
theorem restores_string (text : String) : string.Restores steps (.string text) text :=
  fun _ _ _ => takes_string text

/-- What is `null` is restored as absent. -/
theorem restores_absent : (nullable d).Restores steps .null none := fun _ _ _ =>
  takes_token? (by decide) fun rest _ =>
    (reads_advance 'n' _).bind ((reads_word ['u', 'l', 'l'] rest).andThen (reads_pure _ rest))

/-- What may be `null` is restored if it is not. -/
theorem restores_present (h : d.Restores steps v a) (hplain : v.Plain) (hnull : v ≠ .null) :
    (nullable d).Restores steps v (some a) := by
  intro s depth hsteps
  obtain ⟨c, text, hchars, ⟨hspace, _⟩, hn⟩ := hplain.first s depth
  have htakes := h s depth hsteps
  rw [hchars] at htakes ⊢
  refine takes_token? hspace fun rest hr => ?_
  rw [if_neg fun heq => hnull (hn (Option.some.inj heq))]
  exact (htakes.reads hr).map some

/-- A value is restored if as many brackets may be opened as it has. -/
theorem restores_value {l : Limits} (hv : v.Plain) (hlevels : v.levels ≤ l.depth) :
    (value l).Restores l.steps v v :=
  fun s _ hsteps => takes_valueAt s v hv hlevels hsteps

/-- A list is restored if its items are. -/
theorem restores_list {l : Limits} (hl : 0 < l.depth) {item : Decoder α} {write : α → Value}
    {as : List α} (h : ∀ a ∈ as, item.Restores l.steps (write a) a ∧ (write a).Plain) :
    (list l item).Restores l.steps (.array (as.map write)) as := by
  intro s depth hsteps
  have hitems : ∀ a ∈ as, item.Takes (s.chars (depth + 1) (write a)) a ∧
      Opens (s.chars (depth + 1) (write a)) := by
    intro a ha
    have hlength := s.length_chars_item depth (List.mem_map_of_mem (f := write) ha)
    exact ⟨(h a ha).1 s (depth + 1) (Nat.lt_trans hlength hsteps), (h a ha).2.opens s (depth + 1)⟩
  have hlength := Nat.lt_trans (s.length_items depth (as.map write)) hsteps
  rw [List.length_map] at hlength
  rw [s.chars_array, s.itemTexts_eq_map, List.map_map]
  exact takes_list s depth hl hitems hlength

/-- Members lead from one state of a record to another: known ones are restored
into the state, and others are passed over. -/
inductive Fields (l : Limits) (fields : List (Member σ)) :
    σ → List (String × Value) → σ → Prop
  | nil (state : σ) : Fields l fields state [] state
  | known {name : String} {v : Value} {field : Member σ} {members : List (String × Value)}
    {state final : σ} (next : σ) :
    fields.find? (·.name == name) = some field → field.given state = false →
      (field.read l state).Restores l.steps v next → Fields l fields next members final →
      Fields l fields state ((name, v) :: members) final
  | unknown {name : String} {v : Value} {members : List (String × Value)} {state final : σ} :
    fields.find? (·.name == name) = none → v.Plain → Fields l fields state members final →
      Fields l fields state ((name, v) :: members) final

/-- Members are restored one after the other. -/
theorem Fields.append {l : Limits} {fields : List (Member σ)} {first more : List (String × Value)}
    {state next final : σ} (h : Fields l fields state first next)
    (h' : Fields l fields next more final) : Fields l fields state (first ++ more) final := by
  induction h with
  | nil => exact h'
  | known next hfind hgiven hread _ ih => exact .known next hfind hgiven hread (ih h')
  | unknown hfind hplain _ ih => exact .unknown hfind hplain (ih h')

/-- The texts of members fill a record. -/
theorem Fields.fills {l : Limits} {fields : List (Member σ)} {members : List (String × Value)}
    {state final : σ} (h : Fields l fields state members final) (s : Spacing) (depth : Nat)
    (hsteps : ∀ m ∈ members, (s.chars (depth + 1) m.2).length < l.steps) :
    Fills s (recordMember l fields) state (named s depth members) final := by
  induction h with
  | nil state => exact .nil state
  | known next hfind hgiven hread _ ih =>
    refine .cons (fun rest hr => ?_) (ih fun m hm => hsteps m (List.mem_cons_of_mem _ hm))
    have htakes := hread s (depth + 1) (hsteps _ List.mem_cons_self)
    unfold recordMember
    simp only [hfind, hgiven, Bool.false_eq_true, if_false]
    exact reads_behind_colon s htakes hr
  | @unknown name v members state final hfind hplain _ ih =>
    refine .cons (fun rest hr => ?_) (ih fun m hm => hsteps m (List.mem_cons_of_mem _ hm))
    have htakes := takes_pass s hplain (hsteps _ List.mem_cons_self)
    unfold recordMember
    simp only [hfind]
    exact reads_behind_colon s (htakes.andThen fun rest => reads_pure state rest) hr

/-- A record is restored if its members are. -/
theorem restores_record {l : Limits} (hl : 0 < l.depth) {expected : String}
    {fields : List (Member σ)} {start final : σ} {members : List (String × Value)}
    (h : Fields l.inside fields start members final) {finish : σ → Except Reason α}
    (hfinish : finish final = .ok a) :
    (record l expected fields start finish).Restores l.steps (.object members) a := by
  intro s depth hsteps
  have hfills := h.fills s depth fun m hm =>
    Nat.lt_trans (s.length_chars_member depth hm) hsteps
  have hlength : (named s depth members).length < l.steps := by
    rw [named, List.length_map]
    exact Nat.lt_trans (s.length_members depth members) hsteps
  rw [chars_object_named]
  refine takes_token (by decide) fun rest _ => ?_
  refine reads_object s depth hl hfills hlength (fun rest => ?_) rest
  rw [hfinish]
  exact reads_pure a rest

/-- A member is restored into its place. -/
theorem restores_member {l : Limits} {name : String} {optional : Bool} {read : Limits → Decoder α}
    {get : σ → Option α} {put : α → σ → σ} (h : (read l).Restores steps v a) (state : σ) :
    ((Member.of name optional read get put).read l state).Restores steps v (put a state) :=
  h.map fun a => put a state

/-- A member that may be left out is restored if it is there. -/
theorem Fields.optional {l : Limits} {fields : List (Member σ)} {name : String}
    {field : Member σ} (next : Option α → σ)
    (hfind : fields.find? (·.name == name) = some field)
    (hgiven : field.given (next none) = false) {write : α → Value} (o : Option α)
    (h : ∀ a ∈ o, (field.read l (next none)).Restores l.steps (write a) (next (some a))) :
    Fields l fields (next none) (optionalMember name write o) (next o) := by
  cases o with
  | none => exact .nil (next none)
  | some a => exact .known (next (some a)) hfind hgiven (h a rfl) (.nil (next (some a)))

end Decoder

/-- What is restored within the limits for a text is decoded from every text of
its value. -/
theorem decode_of_restores {α : Type} (read : Limits → Decoder α) {v : Value} {a : α}
    (h : ∀ l : Limits, l.depth = 127 → (read l).Restores l.steps v a) (s : Spacing) :
    decode read (String.ofList (s.chars 0 v)) = .ok a :=
  decode_of_takes (h (.ofText (s.chars 0 v)) rfl s 0 (Nat.lt_succ_self _))

end SourceScribe.Json
