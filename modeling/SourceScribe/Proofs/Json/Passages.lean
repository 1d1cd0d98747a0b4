import SourceScribe.Proofs.Json.Following

/-!
# What is read is gone over

Going over a value keeps the brackets around the place in a list, whereas reading
it calls itself for the values inside. Wherever a value is read, going over it
stops at the same place after no more steps than the value has characters: the
items of an array and the members of an object are entries alike, each behind a
comma, up to what closes the bracket.
-/

namespace SourceScribe.Json

namespace Decoder

variable {α : Type} {c after : Cursor}

/-- What goes on from a character goes on from the same one at it. -/
theorem token_atToken (atEnd : Reason) (next : Char → Decoder α) (c : Cursor) :
    (token atEnd >>= next) c.atToken = (token atEnd >>= next) c := by
  have hpeek : token? c.atToken = token? c := by rw [token?, token?, c.atToken_atToken]
  exact bind_congr_cursor (bind_congr_cursor hpeek _) next

/-- A place behind a value that stands at another place: going over the value keeps the
brackets around it and needs no more steps than it has characters. -/
def PassedOver (c after : Cursor) : Prop :=
  ∃ used, used + 1 + after.rest.length ≤ c.rest.length ∧ ∀ steps around,
    passLoop (steps + used + 1) true around c = passLoop steps false around after

/-- White space in front of a value is gone over with it. -/
theorem PassedOver.of_atToken (h : PassedOver c.atToken after) : PassedOver c after := by
  obtain ⟨used, hlength, hpass⟩ := h
  refine ⟨used, Nat.le_trans hlength c.length_atToken, fun steps around => ?_⟩
  rw [← hpass steps around, passLoop, token_atToken]

/-- A value may be gone over in one step. -/
theorem PassedOver.of_step (hlength : after.rest.length + 1 ≤ c.atToken.rest.length)
    (h : ∀ steps around, passLoop (steps + 1) true around c = passLoop steps false around after) :
    PassedOver c after := by
  have htoken := c.length_atToken
  exact ⟨0, by omega, h⟩

/-- What a value without brackets is read as, from its first character on. -/
inductive PlainRead (c after : Cursor) : Char → Value → Prop
  | null : word ['u', 'l', 'l'] c.next = .ok ((), after) → PlainRead c after 'n' .null
  | true : word ['r', 'u', 'e'] c.next = .ok ((), after) → PlainRead c after 't' (.bool true)
  | false : word ['a', 'l', 's', 'e'] c.next = .ok ((), after) →
    PlainRead c after 'f' (.bool false)
  | string {text : String} : stringBody c.next = .ok (text, after) →
    PlainRead c after '"' (.string text)
  | number {ch : Char} {n : Number} : (ch = '-' || ch.isDigit) = true →
    Decoder.number c = .ok (n, after) → PlainRead c after ch (.number n)

/-- A value without brackets is read as a word, a string or a number. -/
theorem of_plainValue {ch : Char} {v : Value} (h : plainValue ch c = .ok (v, after)) :
    PlainRead c after ch v := by
  unfold plainValue at h
  split at h
  next =>
    rw [bind_advance] at h
    obtain ⟨_, mid, hword, h⟩ := of_bind h
    cases h
    exact .null hword
  next =>
    rw [bind_advance] at h
    obtain ⟨_, mid, hword, h⟩ := of_bind h
    cases h
    exact .true hword
  next =>
    rw [bind_advance] at h
    obtain ⟨_, mid, hword, h⟩ := of_bind h
    cases h
    exact .false hword
  next =>
    rw [bind_advance] at h
    obtain ⟨text, hbody, rfl⟩ := of_map h
    exact .string hbody
  next =>
    split at h
    next hfirst =>
      obtain ⟨n, hnumber, rfl⟩ := of_map h
      exact .number hfirst hnumber
    next => cases h

/-- What is read as a word, a string or a number is a value without brackets. -/
theorem plainValue_of_read {ch : Char} {v : Value} (h : PlainRead c after ch v) :
    plainValue ch c = .ok (v, after) := by
  cases h with
  | null hword | true hword | false hword => exact (bind_advance _ _).trans (bind_of_ok hword)
  | string hbody => exact (bind_advance _ _).trans (map_of_ok hbody)
  | number hfirst hnumber =>
    unfold plainValue
    split
    next => cases hfirst
    next => cases hfirst
    next => cases hfirst
    next => cases hfirst
    next =>
      rw [if_pos hfirst]
      exact map_of_ok hnumber

/-- A value without brackets is gone over. -/
theorem passedOver_of_plainValue {ch : Char} {rest : List Char} {v : Value}
    (hrest : c.atToken.rest = ch :: rest) (h : plainValue ch c.atToken = .ok (v, after)) :
    PassedOver c after := by
  have hstep : ∀ steps around, passLoop (steps + 1) true around c = _ := fun steps around => by
    rw [passLoop, token_of_rest _ _ hrest]
  have hnext : c.atToken.next.rest.length + 1 = c.atToken.rest.length := by
    rw [Cursor.rest_next hrest, hrest, List.length_cons]
  cases of_plainValue h with
  | null hword | true hword | false hword =>
    have hlength := length_word hword
    exact .of_step (by omega) fun steps around =>
      (hstep steps around).trans ((bind_advance _ _).trans (bind_of_ok hword))
  | string hbody =>
    obtain ⟨hlength, _, hpass, -⟩ := stringBody_followedBy _ _ _ hbody
    exact .of_step (by omega) fun steps around =>
      (hstep steps around).trans ((bind_advance _ _).trans (bind_of_ok hpass))
  | number hfirst hnumber =>
    obtain ⟨hlength, _, hpass, -⟩ := number_followedBy _ _ _ hnumber
    refine .of_step hlength fun steps around => (hstep steps around).trans ?_
    split
    next => cases hfirst
    next => cases hfirst
    next => cases hfirst
    next => cases hfirst
    next => cases hfirst
    next => cases hfirst
    next =>
      rw [if_pos hfirst]
      exact bind_of_ok hpass

/-- Behind an entry between brackets come others, each behind a comma, and then what
closes the bracket. -/
inductive Entries (b : Bracket) : Cursor → Cursor → Prop
  | close {c : Cursor} {rest : List Char} :
    c.atToken.rest = b.closer :: rest → Entries b c c.atToken.next
  | more {c start mid closed : Cursor} {rest : List Char} :
    c.atToken.rest = ',' :: rest → passLoop.passName b c.atToken.next = .ok ((), start) →
      start.rest.length ≤ rest.length → PassedOver start mid → Entries b mid closed →
      Entries b c closed

/-- Entries are gone over up to the bracket that closes. -/
theorem Entries.passed {b : Bracket} {closed : Cursor} (h : Entries b c closed) :
    ∃ used, used + closed.rest.length ≤ c.rest.length ∧ ∀ steps around,
      passLoop (steps + used) false (b :: around) c = passLoop steps false around closed := by
  induction h with
  | @close c rest hrest =>
    have htoken := c.length_atToken
    refine ⟨1, ?_, fun steps around => ?_⟩
    · rw [Cursor.rest_next hrest]
      rw [hrest, List.length_cons] at htoken
      omega
    · have hcomma : b.closer ≠ ',' := by cases b <;> decide
      rw [passLoop, token_of_rest _ _ hrest, if_neg hcomma, if_pos rfl]
      exact bind_advance _ _
  | @more c start mid closed rest hrest hname hstart hvalue _ ih =>
    obtain ⟨used, hused, hpass⟩ := hvalue
    obtain ⟨more, hmore, hrun⟩ := ih
    have htoken := c.length_atToken
    rw [hrest, List.length_cons] at htoken
    refine ⟨more + used + 1 + 1, by omega, fun steps around => ?_⟩
    rw [← Nat.add_assoc, passLoop, token_of_rest _ _ hrest, if_pos rfl]
    refine (bind_advance _ _).trans ((bind_of_ok hname).trans ?_)
    rw [← Nat.add_assoc, ← Nat.add_assoc, hpass, hrun]

/-- What stands between brackets: nothing, or an entry and others. -/
inductive Inside (b : Bracket) : Cursor → Cursor → Prop
  | none {c : Cursor} {rest : List Char} :
    c.atToken.rest = b.closer :: rest → Inside b c c.atToken.next
  | some {c start mid closed : Cursor} {ch : Char} {rest : List Char} :
    c.atToken.rest = ch :: rest → ch ≠ b.closer →
      passLoop.passName b c.atToken = .ok ((), start) →
      start.rest.length ≤ c.atToken.rest.length → PassedOver start mid → Entries b mid closed →
      Inside b c closed

/-- What stands between brackets is gone over up to the bracket that closes. -/
theorem Inside.passed {b : Bracket} {closed : Cursor} (h : Inside b c closed) :
    ∃ used, used + closed.rest.length ≤ c.rest.length ∧ ∀ steps around,
      passLoop.opened (steps + used) b around c = passLoop steps false around closed := by
  have htoken := c.length_atToken
  cases h with
  | none hrest =>
    refine ⟨0, ?_, fun steps around => ?_⟩
    · have hnext := length_next c.atToken
      omega
    · rw [passLoop.opened, token_of_rest _ _ hrest, if_pos rfl]
      exact bind_advance _ _
  | some hrest hcloser hname hstart hvalue hentries =>
    obtain ⟨used, hused, hpass⟩ := hvalue
    obtain ⟨more, hmore, hrun⟩ := hentries.passed
    refine ⟨more + used + 1, by omega, fun steps around => ?_⟩
    rw [passLoop.opened, token_of_rest _ _ hrest, if_neg hcloser]
    refine (bind_of_ok hname).trans ?_
    rw [← Nat.add_assoc, ← Nat.add_assoc, hpass, hrun]

/-- Whether another item follows, and where it stands. -/
theorem of_nextItem {first more : Bool} (h : nextItem first c = .ok (more, after)) :
    ∃ ch rest, c.atToken.rest = ch :: rest ∧
      (ch = ']' ∧ more = false ∧ after = c.atToken ∨
        ch ≠ ']' ∧ more = true ∧ (first = true ∧ after = c.atToken ∨
          first = false ∧ ch = ',' ∧ after = c.atToken.next.atToken)) := by
  obtain ⟨ch, rest, hrest, h⟩ := of_token h
  refine ⟨ch, rest, hrest, ?_⟩
  split at h
  next =>
    cases h
    exact .inl ⟨rfl, rfl, rfl⟩
  next =>
    split at h
    next hfirst =>
      cases h
      exact .inr ⟨by decide, rfl, .inl ⟨hfirst, rfl⟩⟩
    next hfirst =>
      rw [bind_advance] at h
      obtain ⟨next, more', _, h⟩ := of_token h
      split at h
      next => cases h
      next =>
        cases h
        exact .inr ⟨by decide, rfl, .inr ⟨by simpa using hfirst, rfl, rfl⟩⟩
  next hbracket _ =>
    split at h
    next hfirst =>
      cases h
      exact .inr ⟨hbracket, rfl, .inl ⟨hfirst, rfl⟩⟩
    next => cases h

/-- Items that have been read are entries. -/
theorem entries_of_itemsLoop {item : Decoder α}
    (hitem : ∀ c a after, item c = .ok (a, after) → PassedOver c after) {steps : Nat}
    {as : List α} {rest : List Char} (h : itemsLoop item steps false c = .ok (as, after))
    (hafter : after.atToken.rest = ']' :: rest) : Entries .list c after.atToken.next := by
  induction steps generalizing c as with
  | zero => cases h
  | succ steps ih =>
    obtain ⟨more, mid, hnext, h⟩ := of_bind h
    obtain ⟨ch, text, hrest, hcases⟩ := of_nextItem hnext
    rcases hcases with ⟨rfl, rfl, rfl⟩ | ⟨_, rfl, ⟨hfirst, _⟩ | ⟨_, rfl, rfl⟩⟩
    · cases h
      rw [c.atToken_atToken]
      exact .close hrest
    · cases hfirst
    · obtain ⟨a, last, ha, h⟩ := of_bind h
      obtain ⟨more, end', hmore, h⟩ := of_bind h
      cases h
      have hlength : c.atToken.next.rest.length ≤ text.length :=
        Nat.le_of_eq (congrArg List.length (Cursor.rest_next hrest))
      exact .more hrest rfl hlength (hitem _ _ _ ha).of_atToken (ih hmore)

/-- Items that have been read stand between brackets. -/
theorem inside_of_itemsLoop {item : Decoder α}
    (hitem : ∀ c a after, item c = .ok (a, after) → PassedOver c after) {steps : Nat}
    {as : List α} {rest : List Char} (h : itemsLoop item steps true c = .ok (as, after))
    (hafter : after.atToken.rest = ']' :: rest) : Inside .list c after.atToken.next := by
  cases steps with
  | zero => cases h
  | succ steps =>
    obtain ⟨more, mid, hnext, h⟩ := of_bind h
    obtain ⟨ch, text, hrest, hcases⟩ := of_nextItem hnext
    rcases hcases with ⟨rfl, rfl, rfl⟩ | ⟨hcloser, rfl, ⟨_, rfl⟩ | ⟨hfirst, _⟩⟩
    · cases h
      rw [c.atToken_atToken]
      exact .none hrest
    · obtain ⟨a, last, ha, h⟩ := of_bind h
      obtain ⟨more, end', hmore, h⟩ := of_bind h
      cases h
      exact .some hrest hcloser rfl (Nat.le_refl _) (hitem _ _ _ ha)
        (entries_of_itemsLoop hitem hmore hafter)
    · cases hfirst

/-- A colon leaves no more than there was. -/
theorem length_colon {r : Unit} (h : colon c = .ok (r, after)) :
    after.rest.length ≤ c.rest.length := by
  obtain ⟨ch, rest, hrest, h⟩ := of_token h
  split at h
  next =>
    cases h
    exact Nat.le_trans (length_next _) c.length_atToken
  next => cases h

/-- Whether another member follows, and what its name is. -/
theorem of_nextName {first : Bool} {name : Option String}
    (h : nextName first c = .ok (name, after)) :
    ∃ ch rest, c.atToken.rest = ch :: rest ∧
      (ch = '\x7d' ∧ name = none ∧ after = c.atToken ∨
        ∃ text, name = some text ∧ (first = true ∧ ch = '"' ∧
            stringBody c.atToken.next = .ok (text, after) ∨
          first = false ∧ ch = ',' ∧ ∃ more, c.atToken.next.atToken.rest = '"' :: more ∧
            stringBody c.atToken.next.atToken.next = .ok (text, after))) := by
  have hnamed : ∀ c : Cursor, nextName.named c = .ok (name, after) →
      ∃ text, name = some text ∧ stringBody c.next = .ok (text, after) := by
    intro c h
    rw [nextName.named, bind_advance] at h
    obtain ⟨text, hbody, rfl⟩ := of_map h
    exact ⟨text, rfl, hbody⟩
  obtain ⟨ch, rest, hrest, h⟩ := of_token h
  refine ⟨ch, rest, hrest, ?_⟩
  split at h
  next hclose =>
    cases h
    exact .inl ⟨hclose, rfl, rfl⟩
  next =>
  split at h
  next hcomma =>
    simp only [Bool.and_eq_true, decide_eq_true_eq, Bool.not_eq_true'] at hcomma
    rw [bind_advance] at h
    obtain ⟨quote, more, hmore, h⟩ := of_token h
    split at h
    next =>
      obtain ⟨text, hname, hbody⟩ := hnamed _ h
      exact .inr ⟨text, hname, .inr ⟨hcomma.2, hcomma.1, more, hmore, hbody⟩⟩
    next => cases h
    next => cases h
  next =>
  split at h
  next => cases h
  next hfirst =>
    split at h
    next hquote =>
      obtain ⟨text, hname, hbody⟩ := hnamed _ h
      exact .inr ⟨text, hname, .inl ⟨by simpa using hfirst, hquote, hbody⟩⟩
    next => cases h

/-- The name of a member that has been read is gone over with its colon. -/
theorem passName_of_stringBody {name : String} {mid start : Cursor} {rest : List Char}
    (hquote : c.atToken.rest = '"' :: rest) (hbody : stringBody c.atToken.next = .ok (name, mid))
    (hcolon : colon mid = .ok ((), start)) :
    passLoop.passName .object c = .ok ((), start) ∧ start.rest.length ≤ c.atToken.rest.length := by
  obtain ⟨hmid, _, hpass, -⟩ := stringBody_followedBy _ _ _ hbody
  have hstart := length_colon hcolon
  have hnext := length_next c.atToken
  refine ⟨?_, by omega⟩
  rw [passLoop.passName, token_of_rest _ _ hquote, if_pos rfl]
  exact (bind_advance _ _).trans ((bind_of_ok hpass).trans hcolon)

section Members

variable {σ : Type} {member : String → σ → Decoder σ}

/-- A reader of members goes over a colon and something that is gone over as a value. -/
def ReadsMembers (member : String → σ → Decoder σ) : Prop :=
  ∀ name s c s' after, member name s c = .ok (s', after) →
    ∃ start, colon c = .ok ((), start) ∧ PassedOver start after

/-- Members that have been read are entries. -/
theorem ReadsMembers.entries (hmember : ReadsMembers member) {steps : Nat} {s s' : σ}
    {rest : List Char} (h : membersLoop member steps false s c = .ok (s', after))
    (hafter : after.atToken.rest = '\x7d' :: rest) : Entries .object c after.atToken.next := by
  induction steps generalizing c s with
  | zero => cases h
  | succ steps ih =>
    obtain ⟨name, mid, hnext, h⟩ := of_bind h
    obtain ⟨ch, text, hrest, hcases⟩ := of_nextName hnext
    rcases hcases with ⟨rfl, rfl, rfl⟩ | ⟨name, rfl, ⟨hfirst, _⟩ | ⟨_, rfl, more, hmore, hbody⟩⟩
    · cases h
      rw [c.atToken_atToken]
      exact .close hrest
    · cases hfirst
    · obtain ⟨s, last, hs, h⟩ := of_bind h
      obtain ⟨start, hcolon, hvalue⟩ := hmember _ _ _ _ _ hs
      obtain ⟨hname, hlength⟩ := passName_of_stringBody hmore hbody hcolon
      have htoken := c.atToken.next.length_atToken
      rw [Cursor.rest_next hrest] at htoken
      exact .more hrest hname (Nat.le_trans hlength htoken) hvalue (ih h)

/-- Members that have been read stand between brackets. -/
theorem ReadsMembers.inside (hmember : ReadsMembers member) {steps : Nat} {s s' : σ}
    {rest : List Char} (h : membersLoop member steps true s c = .ok (s', after))
    (hafter : after.atToken.rest = '\x7d' :: rest) : Inside .object c after.atToken.next := by
  cases steps with
  | zero => cases h
  | succ steps =>
    obtain ⟨name, mid, hnext, h⟩ := of_bind h
    obtain ⟨ch, text, hrest, hcases⟩ := of_nextName hnext
    rcases hcases with ⟨rfl, rfl, rfl⟩ | ⟨name, rfl, ⟨_, rfl, hbody⟩ | ⟨hfirst, _⟩⟩
    · cases h
      rw [c.atToken_atToken]
      exact .none hrest
    · obtain ⟨s, last, hs, h⟩ := of_bind h
      obtain ⟨start, hcolon, hvalue⟩ := hmember _ _ _ _ _ hs
      have htoken := c.atToken_atToken
      rw [← htoken] at hrest hbody
      obtain ⟨hname, hlength⟩ := passName_of_stringBody hrest hbody hcolon
      rw [htoken] at hrest hlength
      exact .some hrest (by decide) hname hlength hvalue (hmember.entries h hafter)
    · cases hfirst

end Members

/-- A bracket is closed at what closes it. -/
theorem of_close {b : Bracket} {r : Unit} (h : b.close c = (.ok r, after)) :
    c.atToken.rest.head? = some b.closer ∧ after = c.atToken.next := by
  unfold Bracket.close at h
  cases hrest : c.atToken.rest with
  | nil =>
    simp only [hrest] at h
    cases h
  | cons ch rest =>
    simp only [hrest] at h
    split at h
    next hcloser =>
      cases h
      exact ⟨congrArg some hcloser, rfl⟩
    next =>
    split at h
    next => cases b <;> cases h
    next => cases h

/-- What closes a bracket closes it. -/
theorem close_of_head? {b : Bracket} (h : c.atToken.rest.head? = some b.closer) :
    b.close c = (.ok (), c.atToken.next) := by
  obtain ⟨rest, hrest⟩ : ∃ rest, c.atToken.rest = b.closer :: rest := ⟨_, eq_cons_of_head? h⟩
  unfold Bracket.close
  simp only [hrest, if_true]

/-- What stands between brackets has been read up to the bracket that closes. -/
theorem of_enclosed {l : Limits} {b : Bracket} {inside : Decoder α} {a : α}
    (h : enclosed l b inside c = .ok (a, after)) : l.depth ≠ 0 ∧ ∃ mid,
      inside c.next = .ok (a, mid) ∧ mid.atToken.rest.head? = some b.closer ∧
        after = mid.atToken.next := by
  unfold enclosed at h
  split at h
  next => cases h
  next hdepth =>
    rw [bind_advance, closing] at h
    split at h
    next a mid hinside =>
      split at h
      next closed hclose =>
        cases h
        exact ⟨hdepth, mid, hinside, of_close hclose⟩
      next => cases h
    next => cases h
    next => cases h

/-- What is read between brackets is read up to the bracket that closes. -/
theorem enclosed_of_ok {l : Limits} (hdepth : l.depth ≠ 0) {b : Bracket} {inside : Decoder α}
    {a : α} {mid : Cursor} (h : inside c.next = .ok (a, mid))
    (hmid : mid.atToken.rest.head? = some b.closer) :
    enclosed l b inside c = .ok (a, mid.atToken.next) := by
  have hclose := close_of_head? hmid
  rw [enclosed, if_neg hdepth, bind_advance, closing, h]
  dsimp only
  rw [hclose]

/-- Brackets are gone over with what stands between them. -/
theorem PassedOver.of_inside {b : Bracket} {ch : Char} {rest : List Char}
    (hrest : c.atToken.rest = ch :: rest) (h : Inside b c.atToken.next after)
    (hpass : ∀ steps around, passLoop (steps + 1) true around c =
      passLoop.opened steps b around c.atToken.next) : PassedOver c after := by
  obtain ⟨used, hused, hopened⟩ := h.passed
  have htoken := c.length_atToken
  rw [Cursor.rest_next hrest] at hused
  rw [hrest, List.length_cons] at htoken
  refine ⟨used, by omega, fun steps around => ?_⟩
  rw [hpass, hopened]

/-- Every value that is read is gone over. -/
theorem passedOver_of_valueAt {steps depth : Nat} {v : Value}
    (h : valueAt steps depth c = .ok (v, after)) : PassedOver c after := by
  induction depth generalizing c v after with
  | zero =>
    obtain ⟨ch, rest, hrest, h⟩ := of_token h
    split at h
    next => cases h
    next => cases h
    next => exact passedOver_of_plainValue hrest h
  | succ depth ih =>
    obtain ⟨ch, rest, hrest, h⟩ := of_token h
    split at h
    next =>
      obtain ⟨items, h, -⟩ := of_map h
      obtain ⟨-, mid, hitems, hcloser, rfl⟩ := of_enclosed h
      refine .of_inside hrest
        (inside_of_itemsLoop (fun _ _ _ h => ih h) hitems (eq_cons_of_head? hcloser)) ?_
      intro steps around
      rw [passLoop, token_of_rest _ _ hrest]
      exact bind_advance _ _
    next =>
      obtain ⟨members, h, -⟩ := of_map h
      obtain ⟨-, mid, hmembers, hcloser, rfl⟩ := of_enclosed h
      refine .of_inside hrest (ReadsMembers.inside ?_ hmembers (eq_cons_of_head? hcloser)) ?_
      · intro name members c members' after h
        obtain ⟨_, start, hcolon, h⟩ := of_bind h
        obtain ⟨v, last, hv, h⟩ := of_bind h
        cases h
        exact ⟨start, hcolon, ih hv⟩
      · intro steps around
        rw [passLoop, token_of_rest _ _ hrest]
        exact bind_advance _ _
    next => exact passedOver_of_plainValue hrest h

/-- A value that is read in a text within the limits is passed over. -/
theorem pass_of_passedOver {l : Limits} (h : PassedOver c after)
    (hlength : c.rest.length < 2 * l.steps) : pass l c = .ok ((), after) := by
  obtain ⟨used, hused, hpass⟩ := h
  obtain ⟨left, hleft⟩ := Nat.exists_eq_add_of_lt (show used + 1 < 2 * l.steps by omega)
  have hsteps : 2 * l.steps = left + 1 + used + 1 := by omega
  rw [pass, hsteps, hpass, passLoop]
  rfl

end Decoder

end SourceScribe.Json
