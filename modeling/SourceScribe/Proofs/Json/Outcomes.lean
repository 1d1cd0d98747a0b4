import SourceScribe.Json.Decode

/-!
# What holds of all that is read

A decoder yields things with a property if every value that it reads, from
whatever text, has the property. What decoders yield is composed along the ways
in which they are put together; nothing is said about whether they succeed.
-/

namespace SourceScribe.Json

/-- A number that is a word is below the bound of the word. -/
theorem Number.lt_of_toWord {n : Number} {w : WordSize} {m : Nat} (h : n.toWord w = .ok m) :
    m < w.bound := by
  cases n with
  | float x => cases h
  | integer i =>
    rw [Number.toWord] at h
    split at h
    next hrange =>
      cases h
      simp only [Bool.and_eq_true, decide_eq_true_eq] at hrange
      omega
    next => cases h

namespace Decoder

variable {α β σ : Type} {P : α → Prop} {Q : β → Prop} {d : Decoder α}

/-- Everything that the decoder reads has the property. -/
def Yields (d : Decoder α) (P : α → Prop) : Prop :=
  ∀ (c : Cursor) (a : α) (after : Cursor), d c = .ok (a, after) → P a

/-- What is given without reading has its properties. -/
theorem yields_pure {a : α} (h : P a) : (pure a : Decoder α).Yields P := by
  rintro _ _ _ ⟨⟩
  exact h

/-- Properties are handed on to what comes next. -/
theorem Yields.bind {next : α → Decoder β} (h : d.Yields P) (hn : ∀ a, P a → (next a).Yields Q) :
    (d >>= next).Yields Q := by
  intro c b after heq
  change ((d c : Except Failure (α × Cursor)) >>= fun x => next x.1 x.2) = _ at heq
  cases hd : d c with
  | error e =>
    rw [hd] at heq
    cases heq
  | ok x =>
    rw [hd] at heq
    exact hn x.1 (h _ _ _ hd) _ _ _ heq

/-- What has been read in front need not have a property. -/
theorem yields_bind {next : α → Decoder β} (hn : ∀ a, (next a).Yields Q) : (d >>= next).Yields Q :=
  Yields.bind (P := fun _ => True) (fun _ _ _ _ => trivial) fun a _ => hn a

/-- What has been read is changed. -/
theorem Yields.map {f : α → β} (h : d.Yields fun a => Q (f a)) : (f <$> d).Yields Q := by
  intro c b after heq
  change ((d c : Except Failure (α × Cursor)) >>= fun x => .ok (f x.1, x.2)) = _ at heq
  cases hd : d c with
  | error e =>
    rw [hd] at heq
    cases heq
  | ok x =>
    rw [hd] at heq
    cases heq
    exact h _ _ _ hd

/-- Less may be said. -/
theorem Yields.weaken {P' : α → Prop} (h : d.Yields P) (hp : ∀ a, P a → P' a) : d.Yields P' :=
  fun _ _ _ heq => hp _ (h _ _ _ heq)

/-- Nothing is read by what fails. -/
theorem yields_failHere (reason : Reason) : (failHere reason : Decoder α).Yields P := nofun

/-- Nothing is read by what fails one byte ahead. -/
theorem yields_failAhead (reason : Reason) : (failAhead reason : Decoder α).Yields P := nofun

/-- Nothing is read by what fails with a reason that waits. -/
theorem yields_reject (reason : Reason) : (reject reason : Decoder α).Yields P := nofun

/-- Nothing is read where another type is expected. -/
theorem yields_mismatch (expected : String) : (mismatch expected : Decoder α).Yields P :=
  yields_bind fun _ => yields_failHere _

/-- What a check gives has the properties that the check makes sure of. -/
theorem yields_ofExcept {x : Except Reason α} (h : ∀ a, x = .ok a → P a) :
    (ofExcept x).Yields P := by
  cases x with
  | error reason => exact yields_reject reason
  | ok a => exact yields_pure (h a rfl)

/-- What is read between brackets has been read inside. -/
theorem Yields.enclosed (h : d.Yields P) (l : Limits) (b : Bracket) :
    (enclosed l b d).Yields P := by
  have hclosing : (closing b d).Yields P := by
    intro c a after heq
    unfold closing at heq
    split at heq
    next hd =>
      split at heq
      next =>
        cases heq
        exact h _ _ _ hd
      next => cases heq
    next => cases heq
    next => cases heq
  unfold Decoder.enclosed
  split
  next => exact yields_failAhead _
  next => exact yields_bind fun _ => hclosing

/-- A bracket was left for what is read between brackets. -/
theorem yields_enclosed_depth (l : Limits) (b : Bracket) :
    (enclosed l b d).Yields fun _ => 0 < l.depth := by
  unfold enclosed
  split
  next => exact yields_failAhead _
  next hdepth => exact yields_bind fun _ _ _ _ _ => Nat.pos_of_ne_zero hdepth

/-- Items have what each of them has. -/
theorem Yields.itemsLoop {item : Decoder α} (h : item.Yields P) (steps : Nat) (first : Bool) :
    (itemsLoop item steps first).Yields fun as => ∀ a ∈ as, P a := by
  induction steps generalizing first with
  | zero => exact yields_failHere _
  | succ steps ih =>
    unfold Decoder.itemsLoop
    refine yields_bind fun more => ?_
    split
    next =>
      refine h.bind fun a ha => (ih false).bind fun rest hrest => yields_pure ?_
      exact List.forall_mem_cons.mpr ⟨ha, hrest⟩
    next => exact yields_pure (by simp)

/-- A list has what each of its items has. -/
theorem Yields.list {item : Decoder α} (h : item.Yields P) (l : Limits) :
    (list l item).Yields fun as => ∀ a ∈ as, P a := by
  unfold Decoder.list
  refine yields_bind fun c => ?_
  split
  next => exact (h.itemsLoop l.steps true).enclosed l .list
  next => exact yields_mismatch _

/-- A bracket was left for a list. -/
theorem yields_list_depth (l : Limits) (item : Decoder α) :
    (list l item).Yields fun _ => 0 < l.depth := by
  unfold list
  refine yields_bind fun c => ?_
  split
  next => exact yields_enclosed_depth l .list
  next => exact yields_mismatch _

/-- What may be `null` has the property unless it is. -/
theorem Yields.nullable (h : d.Yields P) : (nullable d).Yields fun o => ∀ a ∈ o, P a := by
  unfold Decoder.nullable
  refine yields_bind fun c => ?_
  split
  next => exact yields_bind fun _ => yields_bind fun _ => yields_pure (by simp)
  next =>
    refine Yields.map (h.weaken fun a ha b hb => ?_)
    rwa [← Option.some.inj hb]

/-- An unsigned integer fits into its word. -/
theorem yields_natural (w : WordSize) : (natural w).Yields fun n => n < w.bound := by
  unfold natural
  refine yields_bind fun c => ?_
  split
  next =>
    refine yields_bind fun n => ?_
    split
    next m hm => exact yields_pure (Number.lt_of_toWord hm)
    next => exact yields_failHere _
  next => exact yields_mismatch _

variable {Good : σ → Prop}

/-- The loop over members keeps what each of them keeps. -/
theorem yields_membersLoop {member : String → σ → Decoder σ}
    (h : ∀ name s, Good s → (member name s).Yields Good) (steps : Nat) (first : Bool) {s : σ}
    (hs : Good s) : (membersLoop member steps first s).Yields Good := by
  induction steps generalizing first s with
  | zero => exact yields_failHere _
  | succ steps ih =>
    unfold membersLoop
    refine yields_bind fun name => ?_
    split
    next => exact yields_pure hs
    next name => exact (h name s hs).bind fun s hs => ih false hs

/-- Every field of the record keeps what is known of its state. -/
def Keeps (l : Limits) (fields : List (Member σ)) (Good : σ → Prop) : Prop :=
  ∀ field ∈ fields, ∀ s, Good s → (field.read l s).Yields Good

/-- Without fields there is nothing to keep. -/
theorem Keeps.nil {l : Limits} : Keeps l ([] : List (Member σ)) Good := by
  simp [Keeps]

/-- Fields keep what each of them keeps. -/
theorem Keeps.cons {l : Limits} {field : Member σ} {fields : List (Member σ)}
    (h : ∀ s, Good s → (field.read l s).Yields Good) (h' : Keeps l fields Good) :
    Keeps l (field :: fields) Good :=
  List.forall_mem_cons.mpr ⟨h, h'⟩

/-- Members of a record keep what its fields keep. -/
theorem Keeps.recordMember {l : Limits} {fields : List (Member σ)} (h : Keeps l fields Good)
    (name : String) {s : σ} (hs : Good s) : (recordMember l fields name s).Yields Good := by
  unfold Decoder.recordMember
  split
  next field hfind =>
    split
    next => exact yields_reject _
    next => exact yields_bind fun _ => h field (List.mem_of_find?_eq_some hfind) s hs
  next => exact yields_bind fun _ => yields_bind fun _ => yields_pure hs

/-- Items of a record keep what its fields keep. -/
theorem Keeps.recordItems {l : Limits} {expected : String} {fields : List (Member σ)}
    (h : Keeps l fields Good) (index : Nat) (first : Bool) {s : σ} (hs : Good s) :
    (recordItems l expected index first fields s).Yields Good := by
  induction fields generalizing index first s with
  | nil => exact yields_pure hs
  | cons field fields ih =>
    have hrest : Keeps l fields Good := fun field hfield => h field (List.mem_cons_of_mem _ hfield)
    unfold Decoder.recordItems
    refine yields_bind fun more => ?_
    split
    next => exact (h field List.mem_cons_self s hs).bind fun s hs => ih hrest _ _ hs
    next =>
      split
      next => exact ih hrest _ _ hs
      next => exact yields_reject _

/-- A record has what its check makes sure of, given what its fields keep. -/
theorem Keeps.record {l : Limits} {fields : List (Member σ)} (h : Keeps l.inside fields Good)
    {start : σ} (hs : Good start) {finish : σ → Except Reason α}
    (hf : ∀ s a, Good s → finish s = .ok a → P a) (expected : String) :
    (record l expected fields start finish).Yields P := by
  unfold Decoder.record
  refine yields_bind fun c => ?_
  split
  next =>
    refine Yields.enclosed ?_ l .list
    exact (h.recordItems 0 true hs).bind fun s hs => yields_ofExcept fun a => hf s a hs
  next =>
    refine Yields.enclosed ?_ l .object
    exact (yields_membersLoop (fun name s hs => h.recordMember name hs) l.steps true hs).bind
      fun s hs => yields_ofExcept fun a => hf s a hs
  next => exact yields_mismatch _

/-- A member puts what it reads into its place. -/
theorem yields_member {l : Limits} {name : String} {optional : Bool} {read : Limits → Decoder α}
    {get : σ → Option α} {put : α → σ → σ} (h : (read l).Yields P) {s : σ}
    (hput : ∀ a, P a → Good (put a s)) :
    ((Member.of name optional read get put).read l s).Yields Good :=
  h.bind fun a ha => yields_pure (hput a ha)

end Decoder

/-- A required member is there. -/
theorem of_required {α β : Type} {name : String} {o : Option α} {next : α → Except Reason β} {b : β}
    (h : (required name o >>= next) = .ok b) : ∃ a ∈ o, next a = .ok b := by
  cases o with
  | none => cases h
  | some a => exact ⟨a, rfl, h⟩

/-- What is decoded has what everything has that is read. -/
theorem of_decode {α : Type} {read : Limits → Decoder α} {text : String} {a : α} {P : α → Prop}
    (h : decode read text = .ok a) (hread : ∀ l : Limits, l.depth = 127 → (read l).Yields P) :
    P a := by
  simp only [decode] at h
  split at h
  next => cases h
  next => cases h
  next b c heq =>
    split at h
    next =>
      cases h
      exact hread _ rfl _ _ _ heq
    next => cases h

end SourceScribe.Json
