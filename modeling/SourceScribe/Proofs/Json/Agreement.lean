import SourceScribe.Json.Typed
import SourceScribe.Proofs.Json.Passages
import SourceScribe.Proofs.Json.Values

/-!
# Typed readers and values agree

What is read as something of a known type is read as a value, up to the same
place, and what is read as a value is read as something of a known type if the
value is of that type. Both go through the members of an object in the same way,
so that what is done with the members while they are read can as well be done
with their values.
-/

namespace SourceScribe.Json

/-- A text is decoded if something is read from its start and nothing but white space is
left. -/
theorem decode_eq_ok_iff {α : Type} {read : Limits → Decoder α} {text : String} {a : α} :
    decode read text = .ok a ↔ ∃ after : Cursor,
      read (.ofText text.toList) ⟨text.toList, .start⟩ = .ok (a, after) ∧
        after.atToken.rest = [] := by
  unfold decode
  constructor
  · intro h
    dsimp only at h
    split at h
    next => cases h
    next => cases h
    next a' after heq =>
      split at h
      next hrest =>
        cases h
        exact ⟨after, heq, hrest⟩
      next => cases h
  · rintro ⟨after, hread, hrest⟩
    simp only [hread, hrest]

namespace Decoder

variable {α σ τ : Type} {c after : Cursor} {steps depth : Nat} {v : Value}

/-- What is read as a value without brackets is read as a value. -/
theorem valueAt_of_read {ch : Char} {rest : List Char} (hrest : c.atToken.rest = ch :: rest)
    (h : PlainRead c.atToken after ch v) : valueAt steps depth c = .ok (v, after) := by
  have hbracket : ch ≠ '[' ∧ ch ≠ '\x7b' := by
    cases h with
    | number hfirst _ => constructor <;> (rintro rfl; cases hfirst)
    | _ => decide
  cases depth with
  | zero =>
    rw [valueAt, token_of_rest _ _ hrest]
    split
    next => exact absurd rfl hbracket.1
    next => exact absurd rfl hbracket.2
    next => exact plainValue_of_read h
  | succ depth =>
    rw [valueAt, token_of_rest _ _ hrest]
    split
    next => exact absurd rfl hbracket.1
    next => exact absurd rfl hbracket.2
    next => exact plainValue_of_read h

/-- White space in front of a value does not matter to it. -/
theorem valueAt_atToken (c : Cursor) : valueAt steps depth c.atToken = valueAt steps depth c := by
  cases depth with
  | zero => rw [valueAt, token_atToken]
  | succ depth => rw [valueAt, token_atToken]

/-- Nothing is read where another type is expected. -/
theorem mismatch_ne_ok {expected : String} {a : α} : mismatch expected c ≠ .ok (a, after) := by
  intro h
  obtain ⟨_, _, _, h⟩ := of_bind h
  cases h

/-- A decoder reads what are values if a value is read wherever it reads something. -/
def ReadsValues (d : Decoder α) : Prop :=
  ∀ steps depth, d.FollowedBy (valueAt steps depth) 0 fun _ _ => True

/-- What is read up to the end of a value is not longer than the value. -/
theorem readsValues_of {d : Decoder α} (h : ∀ c a after steps depth, d c = .ok (a, after) →
    ∃ v, valueAt steps depth c = .ok (v, after)) : d.ReadsValues := by
  intro steps depth c a after hd
  obtain ⟨v, hv⟩ := h c a after steps depth hd
  obtain ⟨used, hlength, -⟩ := passedOver_of_valueAt hv
  exact ⟨by omega, v, hv, trivial⟩

/-- Truth values are values. -/
theorem bool_readsValues : bool.ReadsValues := by
  refine readsValues_of fun c b after steps depth h => ⟨.bool b, ?_⟩
  obtain ⟨ch, rest, hrest, h⟩ := of_token h
  split at h
  next =>
    obtain ⟨_, mid, hword, h⟩ := of_bind ((bind_advance _ _).symm.trans h)
    cases h
    exact valueAt_of_read hrest (.true hword)
  next =>
    obtain ⟨_, mid, hword, h⟩ := of_bind ((bind_advance _ _).symm.trans h)
    cases h
    exact valueAt_of_read hrest (.false hword)
  next => exact absurd h mismatch_ne_ok

/-- What may be `null` is a value if it is one otherwise. -/
theorem ReadsValues.nullable {d : Decoder α} (h : d.ReadsValues) : (nullable d).ReadsValues := by
  refine readsValues_of fun c o after steps depth heq => ?_
  obtain ⟨o', mid, hpeek, heq⟩ := of_bind heq
  cases hpeek
  split at heq
  next hnull =>
    have hrest := eq_cons_of_head? hnull
    obtain ⟨_, mid, hword, heq⟩ := of_bind ((bind_advance _ _).symm.trans heq)
    cases heq
    exact ⟨.null, valueAt_of_read hrest (.null hword)⟩
  next =>
    obtain ⟨a, hd, -⟩ := of_map heq
    obtain ⟨-, v, hv, -⟩ := h steps depth _ _ _ hd
    exact ⟨v, (valueAt_atToken c).symm.trans hv⟩

/-- A value that is neither an array nor an object is read without brackets. -/
theorem read_of_valueAt (h : valueAt steps depth c = .ok (v, after))
    (hlist : ∀ items, v ≠ .array items) (hobject : ∀ members, v ≠ .object members) :
    ∃ ch rest, c.atToken.rest = ch :: rest ∧ PlainRead c.atToken after ch v := by
  cases depth with
  | zero =>
    obtain ⟨ch, rest, hrest, h⟩ := of_token h
    split at h
    next => cases h
    next => cases h
    next => exact ⟨_, rest, hrest, of_plainValue h⟩
  | succ depth =>
    obtain ⟨ch, rest, hrest, h⟩ := of_token h
    split at h
    next =>
      obtain ⟨items, -, rfl⟩ := of_map h
      exact absurd rfl (hlist items)
    next =>
      obtain ⟨members, -, rfl⟩ := of_map h
      exact absurd rfl (hobject _)
    next => exact ⟨_, rest, hrest, of_plainValue h⟩

/-- A value that is a string is read as one. -/
theorem string_of_valueAt {text : String} (h : valueAt steps depth c = .ok (.string text, after)) :
    string c = .ok (text, after) := by
  obtain ⟨ch, rest, hrest, hread⟩ := read_of_valueAt h nofun nofun
  cases hread with
  | string hbody =>
    rw [string, token_of_rest _ _ hrest, if_pos rfl]
    exact (bind_advance _ _).trans hbody

/-- A value that is a truth value is read as one. -/
theorem bool_of_valueAt {b : Bool} (h : valueAt steps depth c = .ok (.bool b, after)) :
    bool c = .ok (b, after) := by
  obtain ⟨ch, rest, hrest, hread⟩ := read_of_valueAt h nofun nofun
  cases hread with
  | true hword | false hword =>
    rw [bool, token_of_rest _ _ hrest]
    exact (bind_advance _ _).trans (bind_of_ok hword)

/-- A value that is an unsigned integer of a word size is read as one. -/
theorem natural_of_valueAt {w : WordSize} {n : Nat} (h : valueAt steps depth c = .ok (v, after))
    (hn : v.toWord w = .ok n) : natural w c = .ok (n, after) := by
  cases v with
  | number x =>
    obtain ⟨ch, rest, hrest, hread⟩ := read_of_valueAt h nofun nofun
    cases hread with
    | number hfirst hnumber =>
      rw [natural, token_of_rest _ _ hrest, if_pos hfirst, bind_of_ok hnumber]
      have hword : x.toWord w = .ok n := hn
      rw [hword]
      rfl
  | _ => cases hn

/-- Looking for the name of the next member follows itself. -/
theorem followedBy_nextName (first : Bool) : (nextName first).FollowedBy (nextName first) 0 Eq := by
  intro c name after h
  refine ⟨?_, name, h, rfl⟩
  obtain ⟨ch, rest, hrest, hcases⟩ := of_nextName h
  have htoken := c.length_atToken
  have hnext := length_next c.atToken
  rcases hcases with ⟨-, -, rfl⟩ | ⟨text, -, ⟨-, -, hbody⟩ | ⟨-, -, more, hmore, hbody⟩⟩
  · exact htoken
  · obtain ⟨hlength, -⟩ := stringBody_followedBy _ _ _ hbody
    omega
  · obtain ⟨hlength, -⟩ := stringBody_followedBy _ _ _ hbody
    have htoken' := c.atToken.next.length_atToken
    have hnext' := length_next c.atToken.next.atToken
    omega

/-- A colon follows itself. -/
theorem followedBy_colon : colon.FollowedBy colon 0 Eq :=
  fun _ _ _ h => ⟨length_colon h, _, h, rfl⟩

/-- A value follows itself. -/
theorem followedBy_valueAt (steps depth : Nat) :
    (valueAt steps depth).FollowedBy (valueAt steps depth) 0 Eq := by
  intro c v after h
  obtain ⟨used, hlength, -⟩ := passedOver_of_valueAt h
  exact ⟨by omega, v, h, rfl⟩

/-- The members of an object are followed if each of them is, in whatever states. -/
theorem followedBy_membersLoop {member : String → σ → Decoder σ} {member' : String → τ → Decoder τ}
    {R : σ → τ → Prop} (h : ∀ name s t, R s t → (member name s).FollowedBy (member' name t) 0 R)
    (steps : Nat) (first : Bool) {s : σ} {t : τ} (hs : R s t) :
    (membersLoop member steps first s).FollowedBy (membersLoop member' steps first t) 0 R := by
  induction steps generalizing first s t with
  | zero => exact failHere_followedBy _
  | succ steps ih =>
    refine (followedBy_nextName first).bind fun name _ hname => ?_
    subst hname
    split
    next => exact followedBy_pure hs
    next name => exact (h name s t hs).bind fun s t hs => ih false hs

/-- An object is read as the members between its brackets. -/
theorem valueAt_of_members {members : List (String × Value)} {mid : Cursor} {rest : List Char}
    (hrest : c.atToken.rest = '\x7b' :: rest)
    (h : membersLoop (collect steps depth) steps true [] c.atToken.next = .ok (members, mid))
    (hmid : mid.atToken.rest.head? = some '\x7d') :
    valueAt steps (depth + 1) c = .ok (.object members.reverse, mid.atToken.next) := by
  rw [valueAt, token_of_rest _ _ hrest]
  exact map_of_ok (enclosed_of_ok (b := .object) (Nat.succ_ne_zero depth) h hmid)

/-- An object that is read stands between brackets. -/
theorem of_valueAt_object {members : List (String × Value)}
    (h : valueAt steps (depth + 1) c = .ok (.object members, after)) :
    ∃ rest found mid, c.atToken.rest = '\x7b' :: rest ∧ members = found.reverse ∧
      membersLoop (collect steps depth) steps true [] c.atToken.next = .ok (found, mid) ∧
        mid.atToken.rest.head? = some '\x7d' ∧ after = mid.atToken.next := by
  obtain ⟨ch, rest, hrest, h⟩ := of_token h
  split at h
  next =>
    obtain ⟨items, -, heq⟩ := of_map h
    cases heq
  next =>
    obtain ⟨found, hfound, heq⟩ := of_map h
    cases heq
    obtain ⟨-, mid, hmembers, hmid, rfl⟩ := of_enclosed hfound
    exact ⟨rest, found, mid, hrest, rfl, hmembers, hmid, rfl⟩
  next => cases of_plainValue h

/-- What is done with values one after the other can be done while they are read: the members
that are added are those that are read, and a state that they lead to is reached by any reader
that does with a member what is done with its value. -/
theorem membersLoop_of_collect {member : String → σ → Decoder σ}
    {take : σ → String → Value → Except Reason σ} {limit : Nat}
    (hmember : ∀ name v s s' c mid after, c.rest.length ≤ limit → colon c = .ok ((), mid) →
      valueAt steps depth mid = .ok (v, after) → take s name v = .ok s' →
        member name s c = .ok (s', after))
    (loops : Nat) (first : Bool) {members found : List (String × Value)}
    (hlength : c.rest.length ≤ limit)
    (h : membersLoop (collect steps depth) loops first members c = .ok (found, after)) :
    ∃ added : List (String × Value), found = added.reverse ++ members ∧ ∀ s s',
      added.foldlM (fun s m => take s m.1 m.2) s = .ok s' →
        membersLoop member loops first s c = .ok (s', after) := by
  induction loops generalizing first members c with
  | zero => cases h
  | succ loops ih =>
    obtain ⟨name, start, hname, h⟩ := of_bind h
    obtain ⟨hstart, -⟩ := followedBy_nextName first c name start hname
    cases name with
    | none =>
      cases h
      refine ⟨[], rfl, fun s s' hs => ?_⟩
      cases hs
      exact bind_of_ok hname
    | some name =>
      obtain ⟨next, last, hcollect, h⟩ := of_bind h
      obtain ⟨_, mid, hcolon, hcollect⟩ := of_bind hcollect
      obtain ⟨v, last', hv, hcollect⟩ := of_bind hcollect
      cases hcollect
      obtain ⟨used, hused, -⟩ := passedOver_of_valueAt hv
      have hmid := length_colon hcolon
      obtain ⟨added, rfl, hadded⟩ := ih false (by omega) h
      refine ⟨(name, v) :: added, by simp, fun s s' hs => ?_⟩
      rw [List.foldlM_cons] at hs
      cases htake : take s name v with
      | error reason =>
        rw [htake] at hs
        cases hs
      | ok next =>
        rw [htake] at hs
        have hread := hmember name v s next start mid last (by omega) hcolon hv htake
        exact (bind_of_ok hname).trans ((bind_of_ok hread).trans (hadded next s' hs))

end Decoder

end SourceScribe.Json
