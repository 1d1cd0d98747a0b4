import SourceScribe.Proofs.Accounts
import SourceScribe.Proofs.Sessions

/-!
# Blocks of text

In the text of a traversal that succeeds, what a node and the nodes below it
have written stands in one piece, and nothing of it stands elsewhere. Within this
piece the pieces of the children that were entered under the node follow in the
order in which the node lists them, and all between them is of the node itself.
For the first node this is the whole text; from a node it goes down to each
child, whose piece is one of those that the node has placed.
-/

namespace SourceScribe

open Event

/-- What a node and the nodes below it have written is one piece of a text. -/
structure Event.Block (log : List Event) (text : List Part) (id : NodeId) (written : Buffer)
    (inside : List Event) : Prop where
  /-- This was written while these nodes were entered below the node. -/
  stretch : Stretch log id written inside
  /-- It stands in the text, and nothing else in the text is of these nodes. -/
  piece : ∃ before after, text = before ++ written.parts ++ after ∧
    ∀ part ∈ before ++ after, ∀ o ∈ id :: entered inside, part.origin ≠ some o
  /-- It is of these nodes only. -/
  origins : ∀ part ∈ written.parts, ∃ o ∈ id :: entered inside, part.origin = some o

/-- The piece of a node in a text consists of the pieces of some of its children,
in order, and of parts of its own. -/
structure Event.Composed (log : List Event) (text : List Part) (children : List NodeId)
    (id : NodeId) (written : Buffer) (deeds : List Deed) : Prop where
  /-- The parts are those of the deeds, one after the other. -/
  parts : written.parts = deeds.flatMap Deed.parts
  /-- What is not placed for a child is of the node itself. -/
  own : ∀ part, .wrote part ∈ deeds → part.origin = some id
  /-- What is placed for a child is the piece of the child. -/
  placed : ∀ child given, .placed child given ∈ deeds →
    ∃ inside, Block log text child given inside
  /-- The children that are placed are those that were entered under the node. -/
  entered : Deed.placedChildren deeds = adopted id log
  /-- They come in the order of the children, each where it is listed first. -/
  ordered : (Deed.placedChildren deeds).Sublist children.eraseDups

namespace Moment.Logged

variable {log inside inside' : List Event} {m : Moment} {id child sibling : NodeId}
  {outer outer' : Option NodeId} {written written' : Buffer}

/-- What was written in a stretch belongs to it. -/
theorem within (h : Logged log m) (hs : Stretch log id written inside) :
    Within id inside written.parts := by
  obtain ⟨inside', hs', hw⟩ := h.framed id written hs.finished
  obtain ⟨-, rfl⟩ := hs.unique h.once h.ends hs'
  exact hw

/-- A node is entered under one node only. -/
theorem outer_unique (h : Logged log m) (ho : .opened outer id ∈ log)
    (ho' : .opened outer' id ∈ log) : outer = outer' := by
  obtain ⟨before, after, rfl⟩ := List.append_of_mem ho
  obtain ⟨before', after', heq⟩ := List.append_of_mem ho'
  obtain ⟨-, hevent, -⟩ := split_unique h.once heq rfl rfl
  cases hevent
  rfl

/-- A node is not entered below a node that is entered under it. -/
theorem outer_not_inside (h : Logged log m) (ho : .opened (some id) child ∈ log)
    (hs : Stretch log child written inside) : id ∉ child :: entered inside := by
  obtain ⟨before, after, rfl⟩ := List.append_of_mem ho
  obtain ⟨hbefore, -⟩ := h.adopters before id child after rfl
  obtain ⟨before', x, after', heq⟩ := hs
  obtain ⟨-, -, hafter⟩ := split_unique h.once heq rfl rfl
  have honce := h.once
  rw [hafter, entered_append, entered_opened, entered_append] at honce
  intro hm
  refine (List.nodup_append.mp honce).2.2 id hbefore id ?_ rfl
  rw [← List.cons_append]
  exact List.mem_append_left _ hm

/-- A node that is entered under another one is entered while that one is
open. -/
theorem child_inside (h : Logged log m) (ho : .opened (some id) child ∈ log)
    (hs : Stretch log id written inside) : child ∈ entered inside := by
  obtain ⟨before, after, rfl⟩ := List.append_of_mem ho
  obtain ⟨hbefore, hopen⟩ := h.adopters before id child after rfl
  obtain ⟨x, hx⟩ := mem_entered.mp hbefore
  obtain ⟨front, middle, rfl⟩ := List.append_of_mem hx
  obtain ⟨front', x', back, hstretch⟩ := hs
  have honce := h.once
  rw [List.append_assoc, List.cons_append] at honce hstretch
  obtain ⟨-, -, hmiddle⟩ := split_unique honce hstretch rfl rfl
  have hends : Event.opened (some id) child ≠ .finished id written := by
    rintro ⟨⟩
  rcases split_of_ne hmiddle hends with ⟨rest, hinside, -⟩ | ⟨rest, hdone, -⟩
  · rw [hinside]
    simp
  · rw [hdone] at hopen
    simp at hopen

/-- What is entered below a child is entered below the node. -/
theorem below_child (h : Logged log m) (ho : .opened (some id) child ∈ log)
    (hs : Stretch log id written inside) (hs' : Stretch log child written' inside') :
    ∀ o ∈ child :: entered inside', o ∈ entered inside := by
  have hout : id ∉ child :: entered inside' := h.outer_not_inside ho hs'
  rw [List.mem_cons, not_or] at hout
  have hend : id ∉ ended inside' := fun hm => hout.2 ((h.within hs').closed id hm)
  obtain ⟨gap, x, rest, rfl⟩ :=
    hs.encloses h.once hs' (h.child_inside ho hs) hout.1 hend
  intro o hm
  rw [entered_append, entered_opened, entered_append, ← List.cons_append]
  exact List.mem_append_right _ (List.mem_append_left _ hm)

/-- A child is not entered below another child of the same node. -/
theorem sibling_not_inside (h : Logged log m) (ho : .opened (some id) child ∈ log)
    (ho' : .opened (some id) sibling ∈ log) (hne : sibling ≠ child)
    (hs : Stretch log child written inside) : sibling ∉ child :: entered inside := by
  intro hm
  have hinside : sibling ∈ entered inside := (List.mem_cons.mp hm).resolve_left hne
  obtain ⟨outer, houter⟩ := mem_entered.mp hinside
  obtain ⟨o, hmem, rfl⟩ := (h.within hs).under outer sibling houter
  obtain ⟨before, x, after, hlog⟩ := hs
  have hlogged : .opened (some o) sibling ∈ log := by
    rw [hlog]
    simp [houter]
  have hsame : o = id := Option.some.inj (h.outer_unique hlogged ho')
  rw [hsame] at hmem
  exact h.outer_not_inside ho ⟨before, x, after, hlog⟩ hmem

/-- What is entered below one child is not entered below another one of the same
node. -/
theorem siblings_apart (h : Logged log m) (ho : .opened (some id) child ∈ log)
    (ho' : .opened (some id) sibling ∈ log) (hne : sibling ≠ child)
    (hs : Stretch log child written inside) (hs' : Stretch log sibling written' inside') :
    ∀ o ∈ child :: entered inside, o ∉ sibling :: entered inside' :=
  hs.apart h.once hs' (h.sibling_not_inside ho ho' hne hs)
    (h.sibling_not_inside ho' ho hne.symm hs')

end Moment.Logged

namespace Moment.Accounted

variable {q : Request} {log inside : List Event} {m : Moment} {id child : NodeId}
  {text : List Part} {written : Buffer}

/-- Where a node has placed a child, nothing around it is of the child or of the
nodes below it. -/
theorem placed_apart (h : Accounted q log m) {deeds : List Deed}
    (ha : Account q log id written.parts none deeds [] []) {front back : List Deed}
    {given : Buffer} {inside' : List Event} (hdeeds : deeds = front ++ .placed child given :: back)
    (hs : Stretch log child given inside') :
    ∀ part ∈ (front ++ back).flatMap Deed.parts, ∀ o ∈ child :: entered inside',
      part.origin ≠ some o := by
  have hplaced : adopted id log = Deed.placedChildren deeds := by
    rw [ha.children, Option.toList_none, List.append_nil]
  have hchild {c : NodeId} (hc : c ∈ Deed.placedChildren deeds) :
      .opened (some id) c ∈ log := mem_adopted.mp (by rwa [hplaced])
  have hgiven : .placed child given ∈ deeds := by
    rw [hdeeds]
    exact List.mem_append_right _ List.mem_cons_self
  have hopened : .opened (some id) child ∈ log :=
    hchild (Deed.mem_placedChildren.mpr ⟨given, hgiven⟩)
  have hnodup : (Deed.placedChildren deeds).Nodup := by
    rw [← hplaced]
    exact h.logged.once.sublist (adopted_sublist id log)
  intro part hpart o ho heq
  obtain ⟨deed, hdeed, hpart⟩ := List.mem_flatMap.mp hpart
  have hmem : deed ∈ deeds := by
    rw [hdeeds]
    rcases List.mem_append.mp hdeed with hm | hm
    · exact List.mem_append_left _ hm
    · exact List.mem_append_right _ (List.mem_cons_of_mem _ hm)
  cases deed with
  | passed c => cases hpart
  | wrote own =>
    rw [List.mem_singleton.mp hpart, ha.own own hmem] at heq
    rw [← Option.some.inj heq] at ho
    exact h.logged.outer_not_inside hopened hs ho
  | placed sibling other =>
    have hsibling : sibling ∈ Deed.placedChildren (front ++ back) :=
      Deed.mem_placedChildren.mpr ⟨other, hdeed⟩
    have hne : sibling ≠ child := by
      rintro rfl
      rw [hdeeds, Deed.placedChildren_append] at hnodup
      change (Deed.placedChildren front ++ sibling :: Deed.placedChildren back).Nodup at hnodup
      rw [List.nodup_middle, List.nodup_cons, ← Deed.placedChildren_append] at hnodup
      exact hnodup.1 hsibling
    have hopened' : .opened (some id) sibling ∈ log :=
      hchild (Deed.mem_placedChildren.mpr ⟨other, hmem⟩)
    obtain ⟨inside'', hs', hw⟩ := h.logged.framed sibling other (ha.placed sibling other hmem)
    obtain ⟨o', ho', horigin⟩ := hw.origins part hpart
    have hsame : o' = o := Option.some.inj (horigin.symm.trans heq)
    rw [hsame] at ho'
    exact h.logged.siblings_apart hopened hopened' hne hs hs' o ho ho'

/-- From the piece of a node to that of a child that the node has placed. -/
theorem block_placed (h : Accounted q log m) (hb : Block log text id written inside)
    {deeds : List Deed} (ha : Account q log id written.parts none deeds [] []) {given : Buffer}
    (hgiven : .placed child given ∈ deeds) : ∃ inside', Block log text child given inside' := by
  have hopened : .opened (some id) child ∈ log := by
    rw [← mem_adopted, ha.children, Option.toList_none, List.append_nil]
    exact Deed.mem_placedChildren.mpr ⟨given, hgiven⟩
  obtain ⟨inside', hs, hw⟩ := h.logged.framed child given (ha.placed child given hgiven)
  obtain ⟨front, back, hdeeds⟩ := List.append_of_mem hgiven
  obtain ⟨before, after, htext, hout⟩ := hb.piece
  have hsplit : written.parts = front.flatMap Deed.parts ++ given.parts ++
      back.flatMap Deed.parts := by
    rw [ha.parts, hdeeds, List.flatMap_append, List.flatMap_cons, List.append_assoc]
    rfl
  refine ⟨inside', hs, ?_, hw.origins⟩
  refine ⟨before ++ front.flatMap Deed.parts, back.flatMap Deed.parts ++ after, ?_, ?_⟩
  · rw [htext, hsplit]
    simp only [List.append_assoc]
  · intro part hpart o hmem
    have hcases : part ∈ before ++ after ∨ part ∈ (front ++ back).flatMap Deed.parts := by
      rw [List.flatMap_append]
      simp only [List.mem_append] at hpart ⊢
      tauto
    rcases hcases with hpart | hpart
    · exact hout part hpart o
        (List.mem_cons_of_mem _ (h.logged.below_child hopened hb.stretch hs o hmem))
    · exact h.placed_apart ha hdeeds hs part hpart o hmem

/-- From the piece of a node to that of a child that was entered under it. -/
theorem block_child (h : Accounted q log m) (hb : Block log text id written inside)
    (ho : .opened (some id) child ∈ log) :
    ∃ given inside', Block log text child given inside' := by
  obtain ⟨deeds, ha⟩ := h.done id written hb.stretch.finished
  have hplaced : child ∈ Deed.placedChildren deeds := by
    have hadopted := mem_adopted.mpr ho
    rwa [ha.children, Option.toList_none, List.append_nil] at hadopted
  obtain ⟨given, hgiven⟩ := Deed.mem_placedChildren.mp hplaced
  exact ⟨given, h.block_placed hb ha hgiven⟩

/-- The piece of a node is composed by its deeds. -/
theorem composed (h : Accounted q log m) (hb : Block log text id written inside) :
    ∃ node visitor deeds, q.ast.node? id = some node ∧
      q.registry.find? node.tag = some visitor ∧
      Composed log text (Script.calls (q.scriptOf visitor id node)) id written deeds := by
  obtain ⟨deeds, ha⟩ := h.done id written hb.stretch.finished
  obtain ⟨node, visitor, hfound, hvisitor, hcalls, -⟩ := ha.script
  rw [List.append_nil] at hcalls
  refine ⟨node, visitor, deeds, hfound, hvisitor, ha.parts, ha.own, ?_, ?_, ?_⟩
  · exact fun c given hgiven => h.block_placed hb ha hgiven
  · rw [ha.children, Option.toList_none, List.append_nil]
  · rw [hcalls]
    exact ha.ordered

end Moment.Accounted

namespace Request

variable {q : Request} {log : List Event} {m : Moment} {p : Progress} {root : NodeId}
  {buffer : Buffer}

/-- All that is written in the course of a traversal is accounted for. -/
theorem Course.accounted (hq : q.registry.EntersOnce) (h : q.Course (.start root #[]) log m) :
    m.Accounted q log :=
  h.keeps (P := Moment.Accounted q) (fun ha hm => ha.moves hq hm) (.start q root)

/-- The first call of a traversal leaves nothing out. -/
theorem isSome_of_render (hq : q.registry.EntersOnce) {indent : Nat} {result : Option Buffer}
    (h : q.render q.nesting true root indent {} = .ok result p) : result.isSome = true := by
  rcases q.render_cases q.ast.size true root indent {} with
    ⟨e, _, he⟩ | ⟨node, visitor, ha, ⟨hg, _⟩ | ⟨_, henter⟩⟩
  · rw [Request.nesting, he] at h
    cases h
  · rw [hq _ _ ha.supported, Guard.admits_once.mpr (by simp)] at hg
    cases hg
  · rw [Request.nesting, henter] at h
    exact (enter_eq_ok h).2.1

/-- A traversal that succeeds has a course at whose end its text comes back. -/
theorem exists_course_of_run (hq : q.registry.EntersOnce) (h : q.run root {} = .ok buffer p) :
    ∃ log, q.Course (.start root #[]) log ⟨.back (some buffer), [], p.visited⟩ := by
  obtain ⟨result, hr, hbuffer⟩ := run_eq_ok h
  obtain ⟨written, rfl⟩ := Option.isSome_iff_exists.mp (isSome_of_render hq hr)
  obtain ⟨log, hc, -⟩ := exists_course_of_render hr
  rw [hbuffer]
  exact ⟨log, hc⟩

/-- In the text that comes back every node that was entered has its piece. -/
theorem Course.exists_block (hq : q.registry.EntersOnce)
    (h : q.Course (.start root #[]) log ⟨.back (some buffer), [], p.visited⟩) {id : NodeId}
    (hid : id ∈ p.visited) :
    ∃ written inside, Event.Block log buffer.parts id written inside := by
  have ha : Moment.Accounted q log _ := h.accounted hq
  have hrooted : Moment.Rooted root log _ := h.rooted
  -- Along the log, since a node is entered under one that was entered before.
  have hblocks : ∀ before after : List Event, log = before ++ after → ∀ x ∈ Event.entered before,
      ∃ written inside, Event.Block log buffer.parts x written inside := by
    intro before
    induction before using List.reverseRecOn with
    | nil => simp
    | append_singleton before e ih =>
      intro after hlog x hx
      rw [List.append_assoc] at hlog
      rw [entered_append] at hx
      rcases List.mem_append.mp hx with hx | hx
      · exact ih _ hlog x hx
      cases e with
      | finished y written => cases hx
      | opened outer y =>
        rw [List.mem_singleton.mp hx]
        have hopened : .opened outer y ∈ log := by
          rw [hlog]
          simp
        cases outer with
        | none =>
          rw [hrooted.entered y hopened]
          obtain ⟨inside, hs, hw⟩ :=
            ha.logged.framed root buffer (hrooted.answered rfl buffer rfl)
          exact ⟨buffer, inside, hs, ⟨[], [], by simp, by simp⟩, hw.origins⟩
        | some outer =>
          obtain ⟨hbefore, -⟩ := ha.logged.adopters before outer y after hlog
          obtain ⟨written, inside, hb⟩ := ih _ hlog outer hbefore
          exact ha.block_child hb hopened
  refine hblocks log [] (List.append_nil log).symm id ?_
  rwa [← ha.logged.visited, Array.mem_toList_iff]

/-- **The text of a node is one piece, and its children stand in order.** After a
traversal that succeeds, every node that was entered has a piece of the text in
which all that it and the nodes below it have written stands and nothing else.
The piece consists of the pieces of the children that were entered under the
node, in the order in which the node lists them, and of parts of the node
itself. -/
theorem run_keeps_order {ast : Ast} {options : Options}
    (h : (Request.standard ast options).run root {} = .ok buffer p) :
    ∃ log, (Request.standard ast options).Course (.start root #[]) log
        ⟨.back (some buffer), [], p.visited⟩ ∧
      ∀ id ∈ p.visited, ∃ written inside deeds,
        Event.Block log buffer.parts id written inside ∧
          Event.Composed log buffer.parts (ast.children id) id written deeds := by
  have honce := standard_entersOnce ast options
  obtain ⟨log, hc⟩ := exists_course_of_run honce h
  refine ⟨log, hc, fun id hid => ?_⟩
  obtain ⟨written, inside, hb⟩ := hc.exists_block honce hid
  obtain ⟨node, visitor, deeds, hfound, hvisitor, hcomposed⟩ :=
    (hc.accounted honce).composed hb
  cases hvisitor
  have hcalls := (script_of_run h hid hfound).2
  rw [← hcalls]
  exact ⟨written, inside, deeds, hb, hcomposed⟩

/-- The block that is listed twice has one piece of the text, in front of that
of the statement behind it. -/
theorem run_keeps_order_sharedBlock :
    ∃ buffer p, (Request.standard sharedBlock {}).run ⟨0⟩ {} = .ok buffer p ∧
      p.visited.toList = [⟨0⟩, ⟨1⟩, ⟨3⟩, ⟨2⟩] ∧
      ∃ log, (Request.standard sharedBlock {}).Course (.start ⟨0⟩ #[]) log
          ⟨.back (some buffer), [], p.visited⟩ ∧
        ∀ id ∈ p.visited, ∃ written inside deeds,
          Event.Block log buffer.parts id written inside ∧
            Event.Composed log buffer.parts (sharedBlock.children id) id written deeds := by
  have hentered : (Request.standard sharedBlock {}).entered? ⟨0⟩ =
      some [⟨0⟩, ⟨1⟩, ⟨3⟩, ⟨2⟩] := by decide +kernel
  obtain ⟨buffer, p, h, hvisited⟩ := exists_of_entered? hentered
  exact ⟨buffer, p, h, hvisited, run_keeps_order h⟩

end Request

end SourceScribe
