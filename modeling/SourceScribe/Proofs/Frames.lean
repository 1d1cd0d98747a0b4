import Mathlib.Data.List.Nodup
import SourceScribe.Proofs.Courses
import SourceScribe.Proofs.Settled

/-!
# Frames

The frame of a node is the stretch of a log from where the node is entered to
where it is finished. Where every node is entered at most once, two such
stretches lie one in the other or have no node in common. What is written in a
stretch is written by the nodes that are entered in it. This is kept by every
step when it is said of the unfinished stretches of the nodes that are being
written as well: each of them lies in the stretch of the next one.
-/

namespace SourceScribe

namespace Event

/-- The node that is finished. -/
def ended? : Event → Option NodeId
  | .opened _ _ => none
  | .finished id _ => some id

/-- The nodes that are finished, in order. -/
def ended (log : List Event) : List NodeId := log.filterMap ended?

/-- In a log a node is entered, something goes on inside, and the node is
finished. -/
def Stretch (log : List Event) (id : NodeId) (written : Buffer) (inside : List Event) : Prop :=
  ∃ before outer after,
    log = before ++ .opened outer id :: (inside ++ .finished id written :: after)

/-- Some parts and the nodes that are entered inside belong to a node. -/
structure Within (id : NodeId) (inside : List Event) (parts : List Part) : Prop where
  /-- The parts are of the node or of nodes that are entered inside. -/
  origins : ∀ part ∈ parts, ∃ o ∈ id :: entered inside, part.origin = some o
  /-- What is entered inside is entered under the node or under another one that
  is entered inside. -/
  under : ∀ outer child, .opened outer child ∈ inside →
    ∃ o ∈ id :: entered inside, outer = some o
  /-- What is finished inside is entered inside. -/
  closed : ∀ child ∈ ended inside, child ∈ entered inside

variable {log more before after inside inner : List Event} {id child : NodeId} {written : Buffer}
  {parts : List Part}

@[simp]
theorem ended_append : ended (log ++ more) = ended log ++ ended more := List.filterMap_append

@[simp]
theorem ended_opened (outer : Option NodeId) (id : NodeId) (more : List Event) :
    ended (.opened outer id :: more) = ended more := rfl

@[simp]
theorem ended_finished (id : NodeId) (written : Buffer) (more : List Event) :
    ended (.finished id written :: more) = id :: ended more := rfl

/-- A node is finished exactly when a log says so. -/
theorem mem_ended : id ∈ ended log ↔ ∃ written, .finished id written ∈ log := by
  simp only [ended, List.mem_filterMap]
  constructor
  · rintro ⟨e, hm, he⟩
    cases e with
    | opened outer x => cases he
    | finished x written =>
      cases he
      exact ⟨written, hm⟩
  · rintro ⟨written, hm⟩
    exact ⟨_, hm, rfl⟩

/-- An entry whose key no other entry has stands at one place of a list. -/
theorem split_unique {α β : Type} {key : α → Option β} {front front' back back' : List α}
    {x y : α} {k : β} (hn : ((front ++ x :: back).filterMap key).Nodup)
    (h : front ++ x :: back = front' ++ y :: back') (hx : key x = some k) (hy : key y = some k) :
    front = front' ∧ x = y ∧ back = back' := by
  have hother {rest : List α} {v w : α} (hn : ((v :: rest).filterMap key).Nodup)
      (hv : key v = some k) (hw : key w = some k) : w ∉ rest := by
    rw [List.filterMap_cons_some hv] at hn
    exact fun hm => (List.nodup_cons.mp hn).1 (List.mem_filterMap.mpr ⟨w, hm, hw⟩)
  induction front generalizing front' with
  | nil =>
    cases front' with
    | nil =>
      obtain ⟨hxy, hback⟩ := List.cons.inj h
      exact ⟨rfl, hxy, hback⟩
    | cons u front' =>
      obtain ⟨hxu, hback⟩ := List.cons.inj h
      refine absurd ?_ (hother hn hx hy)
      rw [hback]
      exact List.mem_append_right _ List.mem_cons_self
  | cons v front ih =>
    cases front' with
    | nil =>
      obtain ⟨hvy, hback⟩ := List.cons.inj h
      rw [← hvy] at hy
      exact absurd (List.mem_append_right _ List.mem_cons_self) (hother hn hy hx)
    | cons u front' =>
      obtain ⟨hvu, hrest⟩ := List.cons.inj h
      have hsub : (front ++ x :: back).Sublist (v :: (front ++ x :: back)) :=
        List.sublist_cons_self v _
      obtain ⟨hfront, hxy, hback⟩ := ih (hn.sublist (hsub.filterMap key)) hrest
      exact ⟨by rw [hvu, hfront], hxy, hback⟩

/-- Of two entries of a list one stands in front of the other. -/
theorem split_of_ne {α : Type} {front front' back back' : List α} {x y : α}
    (h : front ++ x :: back = front' ++ y :: back') (hne : x ≠ y) :
    (∃ gap, front' = front ++ x :: gap ∧ back = gap ++ y :: back') ∨
      ∃ gap, front = front' ++ y :: gap ∧ back' = gap ++ x :: back := by
  rcases List.append_eq_append_iff.mp h with ⟨gap, hfront, hback⟩ | ⟨gap, hfront, hback⟩
  · cases gap with
    | nil => exact absurd (List.cons.inj hback).1 hne
    | cons first gap =>
      obtain ⟨hfirst, hrest⟩ := List.cons.inj hback
      exact .inl ⟨gap, by rw [hfront, hfirst], hrest⟩
  · cases gap with
    | nil => exact absurd (List.cons.inj hback).1.symm hne
    | cons first gap =>
      obtain ⟨hfirst, hrest⟩ := List.cons.inj hback
      exact .inr ⟨gap, by rw [hfront, hfirst], hrest⟩

/-- Where no node is entered twice, a node that is entered was not entered
before. -/
theorem not_entered_before {outer : Option NodeId}
    (hn : (entered (before ++ .opened outer id :: after)).Nodup) : id ∉ entered before := by
  rw [entered_append, entered_opened] at hn
  exact fun hm => (List.nodup_append.mp hn).2.2 id hm id List.mem_cons_self rfl

namespace Stretch

/-- A stretch stays one when the log goes on. -/
theorem append (h : Stretch log id written inside) (more : List Event) :
    Stretch (log ++ more) id written inside := by
  obtain ⟨before, outer, after, rfl⟩ := h
  exact ⟨before, outer, after ++ more, by simp⟩

/-- A stretch ends where its node is finished. -/
theorem finished (h : Stretch log id written inside) : .finished id written ∈ log := by
  obtain ⟨before, outer, after, rfl⟩ := h
  simp

/-- Where every node is entered and finished at most once, a node has one
stretch. -/
theorem unique {written' : Buffer} {inside' : List Event} (hentered : (entered log).Nodup)
    (hended : (ended log).Nodup) (h : Stretch log id written inside)
    (h' : Stretch log id written' inside') : written = written' ∧ inside = inside' := by
  obtain ⟨before, outer, after, rfl⟩ := h
  obtain ⟨before', outer', after', heq⟩ := h'
  obtain ⟨-, -, htail⟩ := split_unique hentered heq rfl rfl
  have hdone : (ended (inside ++ .finished id written :: after)).Nodup := by
    rw [ended_append, ended_opened] at hended
    exact (List.nodup_append.mp hended).2.1
  obtain ⟨hinside, hevent, -⟩ := split_unique hdone htail rfl rfl
  cases hevent
  exact ⟨rfl, hinside⟩

/-- A stretch that begins inside of another one ends there, if the other node
does not end inside of it. -/
theorem encloses {written' : Buffer} {inside' : List Event} {id' : NodeId}
    (hn : (entered log).Nodup) (h : Stretch log id written inside)
    (h' : Stretch log id' written' inside') (hm : id' ∈ entered inside) (hne : id ≠ id')
    (hend : id ∉ ended inside') :
    ∃ gap outer rest,
      inside = gap ++ .opened outer id' :: (inside' ++ .finished id' written' :: rest) := by
  obtain ⟨before, x, after, rfl⟩ := h
  obtain ⟨before', outer, after', heq⟩ := h'
  obtain ⟨x', hx'⟩ := mem_entered.mp hm
  obtain ⟨gap, rest, rfl⟩ := List.append_of_mem hx'
  have hsplit : before ++ .opened x id :: ((gap ++ .opened x' id' :: rest) ++
      .finished id written :: after) = (before ++ .opened x id :: gap) ++
        .opened x' id' :: (rest ++ .finished id written :: after) := by
    simp
  rw [hsplit] at hn heq
  obtain ⟨-, hevent, htail⟩ := split_unique hn heq rfl rfl
  refine ⟨gap, x', ?_⟩
  have hends : Event.finished id written ≠ .finished id' written' := by
    rintro ⟨⟩
    exact hne rfl
  rcases split_of_ne htail hends with ⟨d, hd, -⟩ | ⟨d, hd, -⟩
  · rw [hd, ended_append, ended_finished] at hend
    exact absurd (List.mem_append_right _ List.mem_cons_self) hend
  · exact ⟨d, by rw [hd]⟩

/-- A stretch that begins behind where another one begins has no node in common
with it if it does not begin inside of it. -/
theorem apart_of_later {outer outer' : Option NodeId} {written' : Buffer}
    {before gap after after' inside' : List Event} {id' : NodeId}
    (hn : (entered (before ++ .opened outer id ::
      (inside ++ .finished id written :: after))).Nodup)
    (h : inside ++ .finished id written :: after =
      gap ++ .opened outer' id' :: (inside' ++ .finished id' written' :: after'))
    (hid : id' ∉ id :: entered inside) :
    ∀ o ∈ id :: entered inside, o ∉ id' :: entered inside' := by
  have hends : Event.finished id written ≠ .opened outer' id' := by
    rintro ⟨⟩
  rcases split_of_ne h hends with ⟨rest, -, hafter⟩ | ⟨rest, hinside, -⟩
  · -- The other stretch lies in what comes behind the first one.
    rw [hafter] at hn
    simp only [entered_append, entered_opened, entered_finished] at hn
    have hstretch := (List.nodup_append.mp hn).2.1
    rw [← List.cons_append] at hstretch
    intro o ho ho'
    refine (List.nodup_append.mp hstretch).2.2 o ho o ?_ rfl
    refine List.mem_append_right _ ?_
    rw [← List.cons_append]
    exact List.mem_append_left _ ho'
  · rw [hinside, entered_append, entered_opened] at hid
    exact absurd (List.mem_cons_of_mem _ (List.mem_append_right _ List.mem_cons_self)) hid

/-- Two stretches neither of which encloses the other have no node in common. -/
theorem apart {written' : Buffer} {inside' : List Event} {id' : NodeId}
    (hn : (entered log).Nodup) (h : Stretch log id written inside)
    (h' : Stretch log id' written' inside') (hid' : id' ∉ id :: entered inside)
    (hid : id ∉ id' :: entered inside') :
    ∀ o ∈ id :: entered inside, o ∉ id' :: entered inside' := by
  obtain ⟨before, outer, after, rfl⟩ := h
  obtain ⟨before', outer', after', heq⟩ := h'
  have hopens : Event.opened outer id ≠ .opened outer' id' := by
    rintro ⟨⟩
    exact hid List.mem_cons_self
  rcases split_of_ne heq hopens with ⟨gap, -, hgap⟩ | ⟨gap, -, hgap⟩
  · exact apart_of_later hn hgap hid'
  · rw [heq] at hn
    intro o ho ho'
    exact apart_of_later hn hgap hid o ho' ho

end Stretch

namespace Within

/-- Fewer parts. -/
theorem mono {fewer : List Part} (h : Within id inside parts) (hf : fewer ⊆ parts) :
    Within id inside fewer where
  origins part hm := h.origins part (hf hm)
  under := h.under
  closed := h.closed

/-- What belongs to a node that is entered under another one belongs to that
one. -/
theorem nest {written : List Part} (h : Within id inside parts) (h' : Within child inner written)
    (hmore : entered more = []) (hdone : ∀ x ∈ ended more, x = child) :
    Within id (inside ++ .opened (some id) child :: (inner ++ more)) (parts ++ written) := by
  have hentered : entered (inside ++ .opened (some id) child :: (inner ++ more)) =
      entered inside ++ child :: entered inner := by
    rw [entered_append, entered_opened, entered_append, hmore, List.append_nil]
  have hold : ∀ o ∈ id :: entered inside, o ∈ id :: (entered inside ++ child :: entered inner) := by
    intro o ho
    rw [← List.cons_append]
    exact List.mem_append_left _ ho
  have hnew : ∀ o ∈ child :: entered inner,
      o ∈ id :: (entered inside ++ child :: entered inner) := fun o ho =>
    List.mem_cons_of_mem _ (List.mem_append_right _ ho)
  constructor
  · rw [hentered]
    intro part hm
    rcases List.mem_append.mp hm with hm | hm
    · obtain ⟨o, ho, horigin⟩ := h.origins part hm
      exact ⟨o, hold o ho, horigin⟩
    · obtain ⟨o, ho, horigin⟩ := h'.origins part hm
      exact ⟨o, hnew o ho, horigin⟩
  · rw [hentered]
    intro outer c hm
    rcases List.mem_append.mp hm with hm | hm
    · obtain ⟨o, ho, houter⟩ := h.under outer c hm
      exact ⟨o, hold o ho, houter⟩
    rcases List.mem_cons.mp hm with heq | hm
    · cases heq
      exact ⟨id, List.mem_cons_self, rfl⟩
    rcases List.mem_append.mp hm with hm | hm
    · obtain ⟨o, ho, houter⟩ := h'.under outer c hm
      exact ⟨o, hnew o ho, houter⟩
    · have hentered : c ∈ entered more := mem_entered.mpr ⟨outer, hm⟩
      rw [hmore] at hentered
      cases hentered
  · rw [hentered]
    intro x hx
    rw [ended_append, ended_opened, ended_append] at hx
    rcases List.mem_append.mp hx with hx | hx
    · exact List.mem_append_left _ (h.closed x hx)
    · refine List.mem_append_right _ ?_
      rcases List.mem_append.mp hx with hx | hx
      · exact List.mem_cons_of_mem _ (h'.closed x hx)
      · rw [hdone x hx]
        exact List.mem_cons_self

end Within

/-- The stretches of the nodes that are being written lie one in the other, and
some loose parts belong to the innermost of these nodes. -/
inductive Nested : List Event → List Activation → List Part → Prop
  | nil (log : List Event) (loose : List Part) : Nested log [] loose
  | push {log inside : List Event} {a : Activation} {outer : List Activation}
    {loose : List Part} :
    Nested log outer [] → a.buffer.origin = some a.id →
    Within a.id inside (a.buffer.parts ++ loose) →
    Nested (log ++ .opened (outer.map Activation.id).head? a.id :: inside) (a :: outer) loose

namespace Nested

variable {a a' : Activation} {outer stack : List Activation} {loose : List Part}

/-- The nodes that are being written have been entered. -/
theorem mem_entered (h : Nested log stack loose) (ha : a ∈ stack) : a.id ∈ entered log := by
  induction h with
  | nil => cases ha
  | @push log inside b outer loose _ _ _ ih =>
    rw [entered_append, entered_opened]
    rcases List.mem_cons.mp ha with rfl | ha
    · exact List.mem_append_right _ List.mem_cons_self
    · exact List.mem_append_left _ (ih ha)

/-- Loose parts are dropped. -/
theorem drop (h : Nested log stack loose) : Nested log stack [] := by
  cases h with
  | nil => exact .nil _ _
  | push houter horigin hwithin => exact .push houter horigin (hwithin.mono (by simp))

/-- The innermost node goes on by deeds that place nothing but loose parts. -/
theorem change (h : Nested log (a :: outer) loose) {deeds : List Deed} (hd : a.Does deeds a')
    (hloose : ∀ child written, .placed child written ∈ deeds → written.parts ⊆ loose) :
    Nested log (a' :: outer) [] := by
  cases h with
  | push houter horigin hwithin =>
    rw [← hd.id] at horigin hwithin ⊢
    refine .push houter (hd.buffer.origin.trans horigin) ?_
    rw [List.append_nil, hd.buffer.parts]
    refine ⟨fun part hm => ?_, hwithin.under, hwithin.closed⟩
    rcases List.mem_append.mp hm with hm | hm
    · exact hwithin.origins part (List.mem_append_left _ hm)
    obtain ⟨deed, hdeed, hm⟩ := List.mem_flatMap.mp hm
    cases deed with
    | wrote own =>
      rw [List.mem_singleton.mp hm]
      exact ⟨a'.id, List.mem_cons_self, (hd.buffer.own own hdeed).trans horigin⟩
    | placed child written =>
      exact hwithin.origins part (List.mem_append_right _ (hloose child written hdeed hm))
    | passed child => cases hm

/-- A node that is being written is none of those around it. -/
theorem ne_of_outer (h : Nested log (a :: outer) loose) (hn : (entered log).Nodup) {b : Activation}
    (hb : b ∈ outer) : b.id ≠ a.id := by
  cases h with
  | push houter _ _ =>
    intro heq
    have hentered := houter.mem_entered hb
    rw [heq] at hentered
    exact not_entered_before hn hentered

/-- The stretch of a node that is finished. -/
theorem stretch (h : Nested log (a :: outer) loose) :
    ∃ inside, Stretch (log ++ [.finished a.id a.buffer]) a.id a.buffer inside ∧
      Within a.id inside a.buffer.parts := by
  cases h with
  | @push log inside _ _ _ _ _ hwithin =>
    refine ⟨inside, ⟨log, (outer.map Activation.id).head?, [], ?_⟩,
      hwithin.mono (List.subset_append_left _ _)⟩
    rw [List.append_assoc, List.cons_append]

/-- The innermost node is left, and its parts are loose. -/
theorem pop (h : Nested log (a :: outer) loose) (hmore : entered more = [])
    (hdone : ∀ x ∈ ended more, x = a.id) :
    Nested (log ++ more) outer a.buffer.parts := by
  cases h with
  | push houter horigin hwithin =>
    cases houter with
    | nil => exact .nil _ _
    | @push log' inside' b outer' _ houter' horigin' hwithin' =>
      rw [List.append_nil] at hwithin'
      have hnest := hwithin'.nest (hwithin.mono (List.subset_append_left _ _)) hmore hdone
      have hlog : ∀ first second third : List Event, ∀ x y : Event,
          log' ++ x :: first ++ y :: second ++ third =
            log' ++ x :: (first ++ y :: (second ++ third)) := by
        simp
      rw [hlog]
      exact .push houter' horigin' hnest

end Nested

end Event

/-- Every visitor enters a node only once. -/
def Registry.EntersOnce (r : Registry) : Prop :=
  ∀ tag visitor, r.find? tag = some visitor → visitor.guard = .once

/-- Thorough visitors enter a node only once. -/
theorem Registry.Thorough.entersOnce {r : Registry} (h : r.Thorough) : r.EntersOnce :=
  fun tag visitor hfind => (h tag visitor hfind).1

/-- The visitors of the grammar enter a node only once. -/
theorem Request.standard_entersOnce (ast : Ast) (options : Options) :
    (Request.standard ast options).registry.EntersOnce := Registry.thorough_standard.entersOnce

namespace Moment

open Event

/-- The parts that wait to be taken. -/
def loose (m : Moment) : List Part :=
  match m.control with
  | .back (some written) => written.parts
  | _ => []

/-- A log has led to a moment, and no node was entered twice. -/
structure Logged (log : List Event) (m : Moment) : Prop where
  /-- The nodes that are noted are those that the log has entered. -/
  visited : m.visited.toList = entered log
  /-- No node is entered twice. -/
  once : (entered log).Nodup
  /-- A node is entered under one that has been entered and is not finished. -/
  adopters : ∀ before outer id after, log = before ++ .opened (some outer) id :: after →
    outer ∈ entered before ∧ outer ∉ ended before
  /-- No node is finished twice. -/
  ends : (ended log).Nodup
  /-- What is written belongs to the nodes that are being written. -/
  nested : Nested log m.stack m.loose
  /-- What is being written is not finished. -/
  pending : ∀ a ∈ m.stack, a.id ∉ ended log
  /-- What is finished has a stretch, to which what was written belongs. -/
  framed : ∀ id written, .finished id written ∈ log →
    ∃ inside, Stretch log id written inside ∧ Within id inside written.parts

namespace Logged

variable {q : Request} {log more : List Event} {m next : Moment}

/-- Nothing has been done. -/
theorem fresh : Logged [] ⟨.back none, [], #[]⟩ where
  visited := rfl
  once := List.nodup_nil
  adopters := by simp
  ends := List.nodup_nil
  nested := .nil _ _
  pending := by simp
  framed := by simp

/-- A log says the same of another moment with the same nodes noted and the
innermost nodes left, or changed. -/
theorem go_on {stack : List Activation} {control control' : Control} {visited : Array NodeId}
    {stack' : List Activation} (h : Logged log ⟨control, stack, visited⟩)
    (hnested : Nested log stack' (loose ⟨control', stack', visited⟩))
    (hstack : ∀ a' ∈ stack', ∃ a ∈ stack, a'.id = a.id) :
    Logged log ⟨control', stack', visited⟩ where
  visited := h.visited
  once := h.once
  adopters := h.adopters
  ends := h.ends
  nested := hnested
  pending := by
    intro a' ha'
    obtain ⟨a, ha, hid⟩ := hstack a' ha'
    rw [hid]
    exact h.pending a ha
  framed := h.framed

/-- The innermost node goes on. -/
theorem change {a a' : Activation} {outer : List Activation} {control control' : Control}
    {visited : Array NodeId} (h : Logged log ⟨control, a :: outer, visited⟩) (hid : a'.id = a.id)
    (hnested : Nested log (a' :: outer) []) (hloose : loose ⟨control', a' :: outer, visited⟩ = []) :
    Logged log ⟨control', a' :: outer, visited⟩ := by
  refine h.go_on (by rwa [hloose]) fun b hb => ?_
  rcases List.mem_cons.mp hb with rfl | hb
  · exact ⟨a, List.mem_cons_self, hid⟩
  · exact ⟨b, List.mem_cons_of_mem a hb, rfl⟩

/-- A node that has not been entered is entered. -/
theorem opens {control : Control} {stack : List Activation} {visited : Array NodeId}
    {id : NodeId} {a : Activation} (h : Logged log ⟨control, stack, visited⟩)
    (hnew : id ∉ visited) (hid : a.id = id) (horigin : a.buffer.origin = some id)
    (hparts : a.buffer.parts = []) :
    Logged (log ++ [.opened (stack.map Activation.id).head? id])
      ⟨.work, a :: stack, visited.push id⟩ := by
  have hentered : id ∉ entered log := by
    rwa [← h.visited, Array.mem_toList_iff]
  subst hid
  constructor
  · rw [entered_append, Array.toList_push, h.visited]
    rfl
  · rw [entered_append, List.nodup_append]
    refine ⟨h.once, List.nodup_singleton a.id, ?_⟩
    intro x hx y hy
    rw [List.mem_singleton.mp hy]
    exact fun heq => hentered (heq ▸ hx)
  · intro before outer x after hlog
    rcases split_concat hlog with ⟨rest, hold⟩ | ⟨rfl, hnew⟩
    · exact h.adopters before outer x rest hold
    · cases stack with
      | nil => cases hnew
      | cons b stack =>
        cases hnew
        exact ⟨h.nested.mem_entered List.mem_cons_self, h.pending b List.mem_cons_self⟩
  · rw [ended_append, ended_opened]
    simpa [ended] using h.ends
  · refine .push h.nested.drop horigin ⟨?_, ?_, ?_⟩
    · rw [hparts]
      simp [loose]
    · simp
    · simp [ended]
  · intro b hb
    have hended : ended (log ++ [.opened (stack.map Activation.id).head? a.id]) = ended log := by
      rw [ended_append, ended_opened]
      exact List.append_nil _
    rw [hended]
    rcases List.mem_cons.mp hb with rfl | hb
    · intro hdone
      obtain ⟨written, hm⟩ := mem_ended.mp hdone
      obtain ⟨inside, ⟨before, outer, after, rfl⟩, -⟩ := h.framed b.id written hm
      simp at hentered
    · exact h.pending b hb
  · intro x written hm
    obtain ⟨inside, hs, hw⟩ := h.framed x written (by simpa using hm)
    exact ⟨inside, hs.append _, hw⟩

/-- The innermost node is finished. -/
theorem finishes {control : Control} {a : Activation} {outer : List Activation}
    {visited : Array NodeId} (h : Logged log ⟨control, a :: outer, visited⟩) :
    Logged (log ++ [.finished a.id a.buffer]) ⟨.back (some a.buffer), outer, visited⟩ where
  visited := by simpa using h.visited
  once := by simpa using h.once
  adopters := by
    intro before x id after hlog
    rcases split_concat hlog with ⟨rest, hold⟩ | ⟨-, hnew⟩
    · exact h.adopters before x id rest hold
    · cases hnew
  ends := by
    rw [ended_append, List.nodup_append]
    refine ⟨h.ends, List.nodup_singleton a.id, ?_⟩
    intro x hx y hy
    rw [List.mem_singleton.mp hy]
    rintro rfl
    exact h.pending a List.mem_cons_self hx
  nested := h.nested.pop rfl fun x hx => List.mem_singleton.mp hx
  pending := by
    intro b hb hm
    rw [ended_append] at hm
    rcases List.mem_append.mp hm with hm | hm
    · exact h.pending b (List.mem_cons_of_mem a hb) hm
    · exact h.nested.ne_of_outer h.once hb (List.mem_singleton.mp hm)
  framed := by
    intro id written hm
    rcases List.mem_append.mp hm with hm | hm
    · obtain ⟨inside, hs, hw⟩ := h.framed id written hm
      exact ⟨inside, hs.append _, hw⟩
    · cases List.mem_singleton.mp hm
      exact h.nested.stretch

/-- Every step keeps the log. -/
theorem moves (hq : q.registry.EntersOnce) (h : Logged log m) (hm : q.Moves m more next) :
    Logged (log ++ more) next := by
  cases hm with
  | refuses _ =>
    rw [List.append_nil]
    exact h.go_on h.nested.drop fun a ha => ⟨a, ha, rfl⟩
  | skips _ _ =>
    rw [List.append_nil]
    exact h.go_on h.nested.drop fun a ha => ⟨a, ha, rfl⟩
  | @opens first id indent stack visited node visitor ha hg =>
    rw [hq _ _ ha.supported] at hg
    have hnew : id ∉ visited := Guard.admits_once.mp hg
    have hvisited : (Progress.enter ⟨visited, stack.map Activation.id⟩ id).visited =
        visited.push id := Progress.visited_enter hnew
    rw [hvisited]
    exact h.opens hnew rfl rfl (Buffer.parts_ofNode _ _ _)
  | writes hd =>
    rw [List.append_nil]
    exact h.change hd.id (h.nested.change hd (by simp)) rfl
  | asks _ =>
    rw [List.append_nil]
    exact h.change rfl h.nested.drop rfl
  | finishes _ => exact h.finishes
  | takes _ hd =>
    rw [List.append_nil]
    refine h.change hd.id (h.nested.change hd fun child written hm => ?_) rfl
    obtain ⟨-, rfl⟩ := Deed.eq_of_placed_around hm
    exact List.Subset.refl _
  | passes _ hd =>
    rw [List.append_nil]
    exact h.change hd.id (h.nested.change hd (by simp)) rfl
  | stays _ =>
    rw [List.append_nil]
    exact h.change rfl h.nested.drop rfl
  | rejects _ =>
    rw [List.append_nil]
    exact h.change rfl h.nested.drop rfl
  | misses _ _ =>
    rw [List.append_nil]
    exact h.change rfl h.nested.drop rfl
  | @unwinds e a outer visited =>
    have hnested : Nested (log ++ []) outer [] := (h.nested.pop rfl (by simp [ended])).drop
    rw [List.append_nil] at hnested ⊢
    exact h.go_on hnested fun b hb => ⟨b, List.mem_cons_of_mem a hb, rfl⟩

end Logged

end Moment

end SourceScribe
