import SourceScribe.Proofs.Blocks

/-!
# Operands

An operand of a node stands where the syntax of its kind leaves no gap. The
script of the node demands it, so in a traversal that succeeds the operand was
placed by the node itself: it was entered under this node and at no other time,
its text stands in the text of the node, and no other node has it for an operand.
-/

namespace SourceScribe

open Event

/-- A node that is finished has placed what its script demands. -/
theorem Moment.Accounted.demands_adopted {q : Request} {log : List Event} {m : Moment}
    {id : NodeId} {written : Buffer} (h : Accounted q log m)
    (hfinished : .finished id written ∈ log) :
    ∃ node visitor, q.ast.node? id = some node ∧ q.registry.find? node.tag = some visitor ∧
      (Script.demands (q.scriptOf visitor id node)).Sublist (adopted id log) := by
  obtain ⟨deeds, ha⟩ := h.done id written hfinished
  obtain ⟨node, visitor, hfound, hvisitor, -, met, hdemands, hmet⟩ := ha.script
  refine ⟨node, visitor, hfound, hvisitor, ?_⟩
  rw [hdemands, List.append_nil, ha.children, Option.toList_none, List.append_nil]
  exact hmet

namespace Request

variable {q : Request} {log : List Event} {p : Progress} {root id child : NodeId}
  {buffer : Buffer}

/-- A child is written for a node where the node is written, and nowhere else. -/
structure Supplies (q : Request) (root : NodeId) (log : List Event) (text : List Part)
    (id child : NodeId) : Prop where
  /-- The child is entered while the node is the innermost on the path, neither
  before nor after that. -/
  entry : ∃ before after m next, log = before ++ .opened (some id) child :: after ∧
    q.Course (.start root #[]) before m ∧ q.step m = some next ∧ m.path.head? = some id ∧
      next.path = child :: m.path ∧ child ∉ entered before ∧ child ∉ entered after
  /-- The piece of the child lies in the piece of the node. -/
  text : ∃ written inside given inside' front back, Block log text id written inside ∧
    Block log text child given inside' ∧ written.parts = front ++ given.parts ++ back

/-- What is entered under a node is written where the node is written. -/
theorem Course.supplies (hq : q.registry.EntersOnce)
    (h : q.Course (.start root #[]) log ⟨.back (some buffer), [], p.visited⟩)
    (hid : id ∈ p.visited) (hchild : child ∈ adopted id log) :
    q.Supplies root log buffer.parts id child := by
  have ha : Moment.Accounted q log _ := h.accounted hq
  obtain ⟨written, inside, hb⟩ := h.exists_block hq hid
  constructor
  · obtain ⟨before, after, hlog⟩ := List.append_of_mem (mem_adopted.mp hchild)
    obtain ⟨m, next, hc, hstep, hhead, hnext⟩ := h.step_of_opened hlog
    have honce := ha.logged.once
    rw [hlog, entered_append, entered_opened, List.nodup_middle, List.nodup_cons,
      List.mem_append, not_or] at honce
    exact ⟨before, after, m, next, hlog, hc, hstep, hhead, hnext, honce.1⟩
  · obtain ⟨deeds, hdeeds⟩ := ha.done id written hb.stretch.finished
    have hplaced : child ∈ Deed.placedChildren deeds := by
      rwa [hdeeds.children, Option.toList_none, List.append_nil] at hchild
    obtain ⟨given, hgiven⟩ := Deed.mem_placedChildren.mp hplaced
    obtain ⟨inside', hb'⟩ := ha.block_placed hb hdeeds hgiven
    obtain ⟨front, back, rfl⟩ := List.append_of_mem hgiven
    refine ⟨written, inside, given, inside', front.flatMap Deed.parts, back.flatMap Deed.parts,
      hb, hb', ?_⟩
    rw [hdeeds.parts, List.flatMap_append, List.flatMap_cons, List.append_assoc]
    rfl

/-- No node is entered under two nodes, nor twice under one. -/
theorem Course.nodup_adopted (hq : q.registry.EntersOnce) {m : Moment}
    (h : q.Course (.start root #[]) log m) {ids : List NodeId} (hids : ids.Nodup)
    {lists : NodeId → List NodeId} (hlists : ∀ id ∈ ids, (lists id).Sublist (adopted id log)) :
    (ids.flatMap lists).Nodup := by
  have hlogged := (h.accounted hq).logged
  rw [List.nodup_flatMap]
  constructor
  · intro id hid
    exact hlogged.once.sublist ((hlists id hid).trans (adopted_sublist id log))
  · refine hids.imp_of_mem fun {a b} ha hb hne => ?_
    intro child hm hm'
    have hopened := mem_adopted.mp ((hlists a ha).subset hm)
    have hopened' := mem_adopted.mp ((hlists b hb).subset hm')
    exact hne (Option.some.inj (hlogged.outer_unique hopened hopened'))

/-- In a traversal that succeeds the operands of a node are entered under it. -/
theorem Course.operands_adopted {ast : Ast} {options : Options}
    (hrun : (Request.standard ast options).run root {} = .ok buffer p)
    (h : (Request.standard ast options).Course (.start root #[]) log
      ⟨.back (some buffer), [], p.visited⟩) (hid : id ∈ p.visited) :
    (ast.operands id).Sublist (adopted id log) := by
  have honce := standard_entersOnce ast options
  obtain ⟨written, inside, hb⟩ := h.exists_block honce hid
  obtain ⟨node, visitor, hfound, hvisitor, hdemands⟩ :=
    (h.accounted honce).demands_adopted hb.stretch.finished
  cases hvisitor
  have hclean := (script_of_run hrun hid hfound).1
  have hoperands : ast.operands id = node.tag.operands node.children :=
    Ast.operands_of_node hfound
  rw [hoperands]
  exact (Grammar.operands_sublist hclean).trans hdemands

/-- **No operand is lost.** After a traversal that succeeds, every operand of a
node that was entered was entered for the first time, and only then, while that
node was the innermost on the path; its text stands in the text of the node and
nowhere else; and no two operands of nodes that were entered are the same
node. -/
theorem run_keeps_operands {ast : Ast} {options : Options}
    (h : (Request.standard ast options).run root {} = .ok buffer p) :
    ∃ log, (Request.standard ast options).Course (.start root #[]) log
        ⟨.back (some buffer), [], p.visited⟩ ∧
      (∀ id ∈ p.visited, ∀ child ∈ ast.operands id,
        (Request.standard ast options).Supplies root log buffer.parts id child) ∧
      (p.visited.toList.flatMap ast.operands).Nodup := by
  have honce := standard_entersOnce ast options
  obtain ⟨log, hc⟩ := exists_course_of_run honce h
  refine ⟨log, hc, fun id hid child hchild => ?_, ?_⟩
  · exact hc.supplies honce hid ((hc.operands_adopted h hid).subset hchild)
  · have hvisited : p.visited.toList.Nodup := by
      rw [visited_of_run h]
      exact ast.nodup_preorder root
    refine hc.nodup_adopted honce hvisited fun id hid => ?_
    exact hc.operands_adopted h (Array.mem_toList_iff.mp hid)

/-- A block that lists one statement twice, which returns a sum. -/
def sharedReturn : Ast where
  nodes := #[
    { construct := .blockStatement, children := [⟨1⟩, ⟨1⟩] },
    { construct := .returnStatement, children := [⟨2⟩], parent := some ⟨0⟩ },
    { construct := .binaryExpression .plus, children := [⟨3⟩, ⟨4⟩], parent := some ⟨1⟩ },
    { construct := .variableReferenceExpression none "a", parent := some ⟨2⟩ },
    { construct := .variableReferenceExpression none "b", parent := some ⟨2⟩ }]

/-- The sum and what it adds up are written once, each where it belongs. -/
theorem run_keeps_operands_sharedReturn :
    ∃ buffer p, (Request.standard sharedReturn {}).run ⟨0⟩ {} = .ok buffer p ∧
      p.visited.toList = [⟨0⟩, ⟨1⟩, ⟨2⟩, ⟨3⟩, ⟨4⟩] ∧
      ∃ log, (Request.standard sharedReturn {}).Course (.start ⟨0⟩ #[]) log
          ⟨.back (some buffer), [], p.visited⟩ ∧
        (∀ id ∈ p.visited, ∀ child ∈ sharedReturn.operands id,
          (Request.standard sharedReturn {}).Supplies ⟨0⟩ log buffer.parts id child) ∧
        (p.visited.toList.flatMap sharedReturn.operands).Nodup := by
  have hentered : (Request.standard sharedReturn {}).entered? ⟨0⟩ =
      some [⟨0⟩, ⟨1⟩, ⟨2⟩, ⟨3⟩, ⟨4⟩] := by decide +kernel
  obtain ⟨buffer, p, h, hvisited⟩ := exists_of_entered? hentered
  exact ⟨buffer, p, h, hvisited, run_keeps_operands h⟩

end Request

end SourceScribe
