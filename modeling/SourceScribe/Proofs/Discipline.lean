import SourceScribe.Proofs.Sessions

/-!
# What calls leave behind

Whatever a call asks for and however it ends, the traversal is left as a caller
expects it: the path is the one from before, and the nodes that were entered come
behind those from before. A buffer changes only by what was written for the
children that are asked for; a child that was left out or that failed leaves no
trace in it. This holds at any point of a traversal and with any visitors, because
a node is taken off the path on every way out of it.
-/

namespace SourceScribe

/-- The state in which a step ends, whether it succeeds or fails. -/
def stateAfter {ε σ α : Type} : EStateM.Result ε σ α → σ
  | .ok _ s => s
  | .error _ s => s

/-- A traversal has come back to where it was. -/
structure Progress.Returns (p p' : Progress) : Prop where
  /-- The path is as it was. -/
  path : p'.path = p.path
  /-- Nodes were entered only behind those that had been entered. -/
  visited : p.visited.toList <+: p'.visited.toList

namespace Progress

variable {p p₁ p' : Progress} {id : NodeId}

/-- Where nothing happens, a traversal is where it was. -/
theorem Returns.refl (p : Progress) : p.Returns p := ⟨rfl, List.prefix_rfl⟩

/-- What has come back twice is back. -/
theorem Returns.trans (h : p.Returns p₁) (h' : p₁.Returns p') : p.Returns p' :=
  ⟨h'.path.trans h.path, h.visited.trans h'.visited⟩

/-- A node that is entered comes behind those that had been entered. -/
theorem visited_prefix_enter (p : Progress) (id : NodeId) :
    p.visited.toList <+: (p.enter id).visited.toList := by
  unfold enter
  dsimp only
  split
  · exact List.prefix_rfl
  · rw [Array.toList_push]
    exact List.prefix_append _ _

/-- What has come back inside a node comes back by leaving it. -/
theorem Returns.leave (h : (p.enter id).Returns p₁) : p.Returns p₁.leave where
  path := by
    rw [Progress.leave, h.path]
    rfl
  visited := (p.visited_prefix_enter id).trans h.visited

end Progress

/-- All calls of a renderer come back. -/
def Renderer.Returns (render : Renderer) : Prop :=
  ∀ (id : NodeId) (indent : Nat) (p : Progress), p.Returns (stateAfter (render id indent p))

namespace Renderer.Returns

variable {render : Renderer} {raises : Progress → GenerateError → Prop} {ids : List NodeId}
  {p p' : Progress} {e : GenerateError}

/-- A walk comes back. -/
theorem walk (hr : render.Returns) (h : render.Walk ids p p') : p.Returns p' := by
  refine h.keeps (P := p.Returns) ?_ (.refl p)
  rintro id - p₁ p₂ ⟨indent, result, hcall⟩ hp
  have hreturns := hr id indent p₁
  rw [hcall] at hreturns
  exact hp.trans hreturns

/-- A walk that is stopped comes back. -/
theorem stops (hr : render.Returns) (h : render.Stops raises ids p e p') : p.Returns p' := by
  cases h with
  | inside before after id p₁ _ hbefore hfails =>
    obtain ⟨indent, hcall⟩ := hfails
    have hreturns := hr id indent p₁
    rw [hcall] at hreturns
    exact (hr.walk hbefore).trans hreturns
  | itself before after _ hbefore _ => exact hr.walk hbefore

/-- Whatever asks for children comes back. -/
theorem asks {α : Type} {w : Writing α} (hr : render.Returns) (hw : w.Asks render raises ids)
    (f : Frame) : f.progress.Returns (stateAfter (w f)).progress := by
  cases h : w f with
  | ok a f' => exact hr.walk (hw.passes h)
  | error e f' => exact hr.stops (hw.stops h)

end Renderer.Returns

namespace Request

variable {q : Request}

/-- A node that is entered is left again. -/
theorem enter_returns {render : Renderer} (hr : render.Returns) (visitor : Visitor) (id : NodeId)
    (node : Node) (indent : Nat) (p : Progress) :
    p.Returns (stateAfter (q.enter render visitor id node indent p)) := by
  cases h : q.enter render visitor id node indent p with
  | ok result p' =>
    obtain ⟨-, -, p₁, hwalk, rfl⟩ := enter_eq_ok h
    exact (hr.walk hwalk).leave
  | error e p' =>
    obtain ⟨_, p₁, hstops, -, rfl⟩ := enter_eq_error h
    exact (hr.stops hstops).leave

/-- All calls of a traversal come back, however deep they go. -/
theorem render_returned (q : Request) (limit : Nat) (first : Bool) :
    (q.render limit first).Returns := by
  induction limit generalizing first with
  | zero => exact fun id indent p => .refl p
  | succ limit ih =>
    intro id indent p
    rcases q.render_cases limit first id indent p with
      ⟨e, -, he⟩ | ⟨node, visitor, -, ⟨-, hskip⟩ | ⟨-, henter⟩⟩
    · rw [he]
      exact .refl p
    · rw [hskip]
      exact .refl p
    · rw [henter]
      exact enter_returns (ih false) visitor id node indent p

/-- A traversal comes back from its root. -/
theorem run_returned (q : Request) (root : NodeId) (p : Progress) :
    p.Returns (stateAfter (q.run root p)) := by
  have hreturns := q.render_returned q.nesting true root 0 p
  cases h : q.run root p with
  | ok buffer p' =>
    obtain ⟨result, hrender, -⟩ := run_eq_ok h
    rwa [hrender] at hreturns
  | error e p' => rwa [run_eq_error.mp h] at hreturns

/-- A caller finds the traversal where it was. -/
theorem afterCall_returned (q : Request) (p : Progress) (call : Call) (b : Buffer) :
    p.Returns (q.afterCall p (call, b)) := by
  unfold afterCall
  rcases q.answer_asks call with ⟨root, rfl⟩ | ⟨raises, ids, hasks⟩
  · have hreturns := q.run_returned root p
    unfold answer
    dsimp only
    cases h : q.run root p with
    | ok buffer p' => rwa [h] at hreturns
    | error e p' => rwa [h] at hreturns
  · have hreturns := (q.render_returned q.nesting false).asks hasks ⟨p, b⟩
    cases h : q.answer call ⟨p, b⟩ with
    | ok _ f => rwa [h] at hreturns
    | error e f => rwa [h] at hreturns

/-- The path of a session names no node twice and only nodes that are there. -/
theorem Session.simple {log : List Event} {m : Moment} (h : q.Session log m) :
    q.ast.Simple m.path := by
  refine h.keeps (P := fun _ m => q.ast.Simple m.path) .nil (fun _ _ _ hm => hm) ?_
  intro log more m next hm hmoves
  have hsame {control control' : Control} {a a' : Activation} {outer : List Activation}
      {visited visited' : Array NodeId} (hid : a'.id = a.id)
      (hm : q.ast.Simple (Moment.path ⟨control, a :: outer, visited⟩)) :
      q.ast.Simple (Moment.path ⟨control', a' :: outer, visited'⟩) := by
    rwa [Moment.path, List.map_cons, hid]
  cases hmoves with
  | opens ha _ => exact hm.push (Ast.has_iff.mpr ⟨_, ha.found⟩) ha.fresh
  | writes hd => exact hsame hd.id hm
  | takes _ hd => exact hsame hd.id hm
  | passes _ hd => exact hsame hd.id hm
  | finishes _ => exact hm.pop
  | unwinds => exact hm.pop
  | _ => exact hm

/-- A node that is being written makes its calls as any other caller does: the machine
comes back from them with the nodes around it as they were, and with their buffers. -/
theorem Session.returns {log : List Event} {m : Moment} {first : Bool} {id : NodeId}
    {indent : Nat} (h : q.Session log m) (hcontrol : m.control = .call first id indent) :
    Moment.ReturnsAs q m.stack m (q.render q.nesting first id indent m.progress) := by
  obtain ⟨control, stack, visited⟩ := m
  cases hcontrol
  have hroom : q.ast.size < q.nesting + stack.length :=
    Nat.lt_of_lt_of_le (Nat.lt_succ_self q.ast.size) (Nat.le_add_right _ _)
  exact q.render_mimicked h.simple hroom first id indent visited

end Request

namespace Writing

variable {q : Request} {render : Renderer}

/-- What a child that is appended does to the buffer. -/
theorem emit_eq (id : NodeId) (f : Frame) :
    emit render id f = match render id f.buffer.indent f.progress with
      | .ok (some written) p => .ok true ⟨p, f.buffer.append written⟩
      | .ok none p => .ok false ⟨p, f.buffer⟩
      | .error e p => .error e ⟨p, f.buffer⟩ := by
  change EStateM.bind (child render id) _ f = _
  unfold EStateM.bind child
  rcases render id f.buffer.indent f.progress with ⟨_ | written, p⟩ | ⟨e, p⟩ <;> rfl

/-- A child that is only written leaves the buffer alone. -/
theorem buffer_child (id : NodeId) (f : Frame) :
    (stateAfter (child render id f)).buffer = f.buffer := by
  unfold child
  cases render id f.buffer.indent f.progress <;> rfl

end Writing

namespace Request

/-- **Calls leave a traversal as they should.** With any visitors, at any point of a
traversal, and whether it succeeds or fails, a call leaves the path as it was and
enters nodes only behind those that had been entered. A child that is only written
leaves the caller's buffer alone; one that is to be appended changes it by its own
buffer if it was written, and not at all if it was left out or failed; and one that
must be written changes nothing where it fails. What the nodes that are being written
ask for themselves is asked for in this way too, at every moment of every session, and
the nodes around and their buffers are then as they were. -/
theorem calls_return (q : Request) :
    (∀ p call b, Progress.Returns p (q.afterCall p (call, b))) ∧
      (∀ p b id, (stateAfter (Writing.child q.child id ⟨p, b⟩)).buffer = b) ∧
      (∀ p b id, match Writing.emit q.child id ⟨p, b⟩ with
        | .ok true f => ∃ written, q.child id b.indent p = .ok (some written) f.progress ∧
          f.buffer = b.append written
        | .ok false f => f.buffer = b
        | .error _ f => f.buffer = b) ∧
      (∀ p b slot id, match Writing.required q q.child slot id ⟨p, b⟩ with
        | .ok () f => ∃ written, q.child id b.indent p = .ok (some written) f.progress ∧
          f.buffer = b.append written
        | .error _ f => f.buffer = b) ∧
      ∀ log m id indent, q.Session log m → m.control = .call false id indent →
        Moment.ReturnsAs q m.stack m (q.child id indent m.progress) := by
  refine ⟨q.afterCall_returned, fun p b id => Writing.buffer_child id ⟨p, b⟩, fun p b id => ?_,
    fun p b slot id => ?_, fun log m id indent hs hc => hs.returns hc⟩
  · rw [Writing.emit_eq]
    dsimp only
    rcases q.child id b.indent p with ⟨_ | written, p'⟩ | ⟨e, p'⟩
    · rfl
    · exact ⟨written, rfl, rfl⟩
    · rfl
  · rw [Writing.required_eq]
    dsimp only
    rcases q.child id b.indent p with ⟨_ | written, p'⟩ | ⟨e, p'⟩
    · rfl
    · exact ⟨written, rfl, rfl⟩
    · rfl

/-- Blocks are entered as long as no more than two nodes have been; two of them list
each other. -/
def watchedBlocks : Request where
  ast := chasedBlocks.ast
  registry := Registry.standard.install .blockStatement
    (.plain (.tested fun _ visited => visited.size < 3))
  options := {}

/-- A block in the second place is asked for while the first is being written: it fails
two levels below, and the path and the buffer are as they were. -/
theorem calls_return_watchedBlocks :
    let p : Progress := ⟨#[⟨0⟩], [⟨0⟩]⟩
    let b : Buffer := (Buffer.ofIndent 1 "  ").print "from"
    watchedBlocks.afterCall p (.visit ⟨1⟩, b) = ⟨#[⟨0⟩, ⟨1⟩, ⟨2⟩], [⟨0⟩]⟩ ∧
      p.Returns (watchedBlocks.afterCall p (.visit ⟨1⟩, b)) ∧
      ∃ e f, Writing.emit watchedBlocks.child ⟨1⟩ ⟨p, b⟩ = .error e f ∧ f.buffer = b := by
  intro p b
  obtain ⟨hreturns, -, hvisits, -⟩ := calls_return watchedBlocks
  have hfails : (match Writing.emit watchedBlocks.child ⟨1⟩ ⟨p, b⟩ with
      | .ok _ _ => false
      | .error _ _ => true) = true := by decide +kernel
  have hvisit := hvisits p b ⟨1⟩
  refine ⟨by decide +kernel, hreturns p (.visit ⟨1⟩) b, ?_⟩
  cases h : Writing.emit watchedBlocks.child ⟨1⟩ ⟨p, b⟩ with
  | ok _ f =>
    rw [h] at hfails
    cases hfails
  | error e f =>
    rw [h] at hvisit
    exact ⟨e, f, rfl, hvisit⟩

end Request

end SourceScribe
