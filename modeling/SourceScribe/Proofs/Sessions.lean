import SourceScribe.Proofs.Frames
import SourceScribe.Proofs.Moments
import SourceScribe.Proofs.Preorder

/-!
# Calls on one traversal

A caller may ask one traversal for nodes again and again, through any of the
calls that a script makes itself, and go on when one of them fails. What the
recursive traversal does for such calls is a session of the machine. If every
visitor enters a node only once, no node is emitted twice in a whole session:
no node is entered twice, a frame holds only parts of nodes that were entered
while it was open, and frames that lie side by side share no node.
-/

namespace SourceScribe

/-- A log in which no node is emitted twice. -/
structure Event.EmitsOnce (log : List Event) : Prop where
  /-- No node is entered twice. -/
  once : (entered log).Nodup
  /-- A frame is opened for a node that has not been entered. -/
  fresh : ∀ before outer id after, log = before ++ .opened outer id :: after → id ∉ entered before
  /-- What is finished has been opened before. -/
  framed : ∀ id written, .finished id written ∈ log → ∃ inside, Stretch log id written inside
  /-- A part of a frame is of a node that was entered while the frame was
  open. -/
  origins : ∀ id written inside, Stretch log id written inside →
    ∀ part ∈ written.parts, ∃ o ∈ id :: entered inside, part.origin = some o
  /-- Two frames neither of which encloses the other have no parts of the same
  node. -/
  apart : ∀ a written inside b written' inside', Stretch log a written inside →
    Stretch log b written' inside' → b ∉ a :: entered inside → a ∉ b :: entered inside' →
    ∀ part ∈ written.parts, ∀ part' ∈ written'.parts, part.origin ≠ part'.origin

namespace Moment

open Event

variable {q : Request} {log more : List Event} {m next : Moment} {root : NodeId}

/-- No node has been emitted twice. -/
theorem Logged.emitsOnce (h : Logged log m) : EmitsOnce log := by
  have horigins : ∀ id written inside, Stretch log id written inside →
      ∀ part ∈ written.parts, ∃ o ∈ id :: entered inside, part.origin = some o := by
    intro id written inside hs
    obtain ⟨inside', hs', hw⟩ := h.framed id written hs.finished
    obtain ⟨-, rfl⟩ := hs.unique h.once h.ends hs'
    exact hw.origins
  refine ⟨h.once, ?_, ?_, horigins, ?_⟩
  · rintro before outer id after rfl
    exact not_entered_before h.once
  · intro id written hm
    obtain ⟨inside, hs, -⟩ := h.framed id written hm
    exact ⟨inside, hs⟩
  · intro a written inside b written' inside' hs hs' hb ha part hpart part' hpart' heq
    obtain ⟨o, ho, horigin⟩ := horigins a written inside hs part hpart
    obtain ⟨o', ho', horigin'⟩ := horigins b written' inside' hs' part' hpart'
    have hsame : o = o' := Option.some.inj (horigin.symm.trans (heq.trans horigin'))
    rw [← hsame] at ho'
    exact hs.apart h.once hs' hb ha o ho ho'

/-- A log has led to a moment from a call for a node. -/
structure Rooted (root : NodeId) (log : List Event) (m : Moment) : Prop where
  /-- The outermost node is the one called for. -/
  outermost : ∀ id ∈ m.path.getLast?, id = root
  /-- Nothing else is called for from outside. -/
  called : m.path = [] → ∀ first id indent, m.control = .call first id indent → id = root
  /-- What comes back in the end is what was written for the node. -/
  answered : m.path = [] → ∀ written, m.control = .back (some written) →
    .finished root written ∈ log
  /-- No other node is entered from outside. -/
  entered : ∀ id, .opened none id ∈ log → id = root

namespace Rooted

/-- A call is made. -/
theorem start (first : Bool) (root : NodeId) (indent : Nat) (visited : Array NodeId) :
    Rooted root [] ⟨.call first root indent, [], visited⟩ where
  outermost := by simp [path]
  called := by
    rintro - _ _ _ ⟨⟩
    rfl
  answered := by
    rintro - _ ⟨⟩
  entered := by simp

/-- The traversal goes on along the same path, which is not empty. -/
theorem go_on {control control' : Control} {a a' : Activation} {outer : List Activation}
    {visited visited' : Array NodeId} (h : Rooted root log ⟨control, a :: outer, visited⟩)
    (hid : a'.id = a.id) : Rooted root log ⟨control', a' :: outer, visited'⟩ where
  outermost := by
    have houtermost := h.outermost
    rwa [path, List.map_cons, ← hid] at houtermost
  called hpath := by cases hpath
  answered hpath := by cases hpath
  entered := h.entered

/-- The innermost node is left. -/
theorem pop {control control' : Control} {a : Activation} {outer : List Activation}
    {visited visited' : Array NodeId} (h : Rooted root log ⟨control, a :: outer, visited⟩)
    (hcontrol : ∀ first id indent, control' ≠ .call first id indent)
    (hmore : ∀ outer id, .opened outer id ∉ more)
    (hback : outer = [] → a.id = root → ∀ written, control' = .back (some written) →
      .finished root written ∈ log ++ more) :
    Rooted root (log ++ more) ⟨control', outer, visited'⟩ where
  outermost := by
    intro id hid
    refine h.outermost id ?_
    cases outer with
    | nil => cases hid
    | cons b outer => exact hid
  called := fun _ first id indent hcall => absurd hcall (hcontrol first id indent)
  answered := by
    intro hpath
    have houter : outer = [] := List.map_eq_nil_iff.mp hpath
    subst houter
    exact hback rfl (h.outermost a.id rfl)
  entered := by
    intro id hm
    rcases List.mem_append.mp hm with hm | hm
    · exact h.entered id hm
    · exact absurd hm (hmore none id)

/-- Every step keeps it. -/
theorem moves (h : Rooted root log m) (hm : q.Moves m more next) :
    Rooted root (log ++ more) next := by
  cases hm with
  | refuses _ =>
    rw [List.append_nil]
    refine ⟨h.outermost, ?_, ?_, h.entered⟩
    · rintro - _ _ _ ⟨⟩
    · rintro - _ ⟨⟩
  | skips _ _ =>
    rw [List.append_nil]
    refine ⟨h.outermost, ?_, ?_, h.entered⟩
    · rintro - _ _ _ ⟨⟩
    · rintro - _ ⟨⟩
  | @opens first id indent stack visited node visitor ha hg =>
    constructor
    · intro x hx
      cases stack with
      | nil =>
        cases hx
        exact h.called rfl first id indent rfl
      | cons a outer => exact h.outermost x hx
    · rintro ⟨⟩
    · rintro ⟨⟩
    · intro x hx
      rcases List.mem_append.mp hx with hx | hx
      · exact h.entered x hx
      · cases stack with
        | nil =>
          cases List.mem_singleton.mp hx
          exact h.called rfl first _ indent rfl
        | cons a outer => cases List.mem_singleton.mp hx
  | writes hd =>
    rw [List.append_nil]
    exact h.go_on hd.id
  | asks _ =>
    rw [List.append_nil]
    exact h.go_on rfl
  | @finishes a outer visited _ =>
    refine h.pop (by simp) (by simp) ?_
    rintro - hroot written ⟨⟩
    rw [← hroot]
    exact List.mem_append_right _ (List.mem_singleton_self _)
  | takes _ hd =>
    rw [List.append_nil]
    exact h.go_on hd.id
  | passes _ hd =>
    rw [List.append_nil]
    exact h.go_on hd.id
  | stays _ =>
    rw [List.append_nil]
    exact h.go_on rfl
  | rejects _ =>
    rw [List.append_nil]
    exact h.go_on rfl
  | misses _ _ =>
    rw [List.append_nil]
    exact h.go_on rfl
  | unwinds => exact h.pop (by simp) (by simp) (by simp)

end Rooted

end Moment

/-- A call that a caller makes on a traversal, with a buffer of its own. -/
inductive Call where
  /-- A node is written as the first of a traversal. -/
  | run (root : NodeId)
  /-- A node is written, and the caller gets its buffer. -/
  | child (id : NodeId)
  /-- A node is written and appended. -/
  | visit (id : NodeId)
  /-- A node must be written here. -/
  | required (slot : String) (id : NodeId)
  /-- Nodes must be written here, with text between them. -/
  | requiredSeparated (slot separator : String) (ids : List NodeId)
  /-- A group of nodes is written. -/
  | group (arrangement : Arrangement) (ids : List NodeId)
  /-- A group of nodes is written between braces. -/
  | braced (arrangement : Arrangement) (ids : List NodeId)

namespace Request

open Event

variable {q : Request} {log : List Event} {m : Moment} {p p' : Progress}

/-- Makes a call. -/
def answer (q : Request) : Call → Writing Unit
  | .run root => fun f =>
    match q.run root f.progress with
    | .ok _ p => .ok () { f with progress := p }
    | .error e p => .error e { f with progress := p }
  | .child id => discard (Writing.child q.child id)
  | .visit id => discard (Writing.emit q.child id)
  | .required slot id => Writing.required q q.child slot id
  | .requiredSeparated slot separator ids =>
    Writing.requiredSeparated q q.child slot separator ids
  | .group arrangement ids => discard (Writing.group q q.child arrangement ids)
  | .braced arrangement ids => discard (Writing.braced q q.child arrangement ids)

/-- How far a traversal has come after a call, whether it succeeds or fails. -/
def afterCall (q : Request) (p : Progress) (call : Call × Buffer) : Progress :=
  match q.answer call.1 ⟨p, call.2⟩ with
  | .ok _ f => f.progress
  | .error _ f => f.progress

/-- How far a traversal has come after calls, one after the other. -/
def afterCalls (q : Request) (calls : List (Call × Buffer)) : Progress :=
  calls.foldl q.afterCall {}

/-- A session logs only nodes that are emitted once. -/
theorem Session.logged (hq : q.registry.EntersOnce) (h : q.Session log m) : m.Logged log :=
  h.keeps .fresh (fun _ _ _ hl => hl.go_on (.nil _ _) (by simp)) fun hl hm => hl.moves hq hm

/-- The log of a call for a node. -/
theorem Course.rooted {first : Bool} {root : NodeId} {indent : Nat} {visited : Array NodeId}
    (h : q.Course ⟨.call first root indent, [], visited⟩ log m) : m.Rooted root log :=
  h.keeps (P := Moment.Rooted root) (fun hr hm => hr.moves hm) (.start first root indent visited)

/-- The machine does what a call of the recursive traversal from outside does. -/
theorem render_returns (q : Request) (first : Bool) (id : NodeId) (indent : Nat)
    (visited : Array NodeId) :
    Moment.ReturnsAs q [] ⟨.call first id indent, [], visited⟩
      (q.render q.nesting first id indent ⟨visited, []⟩) := by
  have hroom : q.ast.size < q.nesting + ([] : List Activation).length :=
    Nat.lt_succ_self q.ast.size
  exact q.render_mimicked Ast.Simple.nil hroom first id indent visited

/-- What a call from outside answers with is the frame of the node, and its
course ends there. -/
theorem exists_course_of_render {first : Bool} {id : NodeId} {indent : Nat}
    {visited : Array NodeId} {result : Option Buffer}
    (h : q.render q.nesting first id indent ⟨visited, []⟩ = .ok result p) :
    ∃ log, q.Course ⟨.call first id indent, [], visited⟩ log ⟨.back result, [], p.visited⟩ ∧
      ∀ written ∈ result, .finished id written ∈ log := by
  have hreturns := q.render_returns first id indent visited
  rw [h] at hreturns
  obtain ⟨log, hlog⟩ := exists_course hreturns.2
  refine ⟨log, hlog, ?_⟩
  rintro written ⟨⟩
  exact hlog.rooted.answered rfl written rfl

/-- A session has come to rest at some point. -/
def Reached (q : Request) (p : Progress) : Prop :=
  ∃ log m, q.Session log m ∧ q.step m = none ∧ m.progress = p

namespace Reached

/-- A session rests while no node is being written. -/
theorem eq (h : q.Reached p) : p = ⟨p.visited, []⟩ := by
  obtain ⟨log, m, _, hrest, rfl⟩ := h
  rw [Moment.progress, Moment.path, stack_of_rest hrest]
  rfl

/-- A session goes on with a call from outside. -/
theorem leads {first : Bool} {id : NodeId} {indent : Nat} {control : Control} (h : q.Reached p)
    (hl : q.Leads ⟨.call first id indent, [], p.visited⟩ ⟨control, [], p'.visited⟩)
    (hrest : q.step ⟨control, [], p'.visited⟩ = none) (hpath : p'.path = []) : q.Reached p' := by
  obtain ⟨log, m, hs, hm, rfl⟩ := h
  obtain ⟨more, hc⟩ := exists_course hl
  refine ⟨log ++ more, _, hs.call first id indent hm hc, hrest, ?_⟩
  rw [Moment.progress, Moment.path, List.map_nil, ← hpath]

/-- From rest to rest by a call that succeeds. -/
theorem ok {first : Bool} {id : NodeId} {indent : Nat} {result : Option Buffer}
    (h : q.Reached p) (hr : q.render q.nesting first id indent p = .ok result p') :
    q.Reached p' := by
  have hreturns := q.render_returns first id indent p.visited
  rw [← h.eq, hr] at hreturns
  exact h.leads hreturns.2 rfl hreturns.1

/-- From rest to rest by a call that fails. -/
theorem error {first : Bool} {id : NodeId} {indent : Nat} {e : GenerateError}
    (h : q.Reached p) (hr : q.render q.nesting first id indent p = .error e p') :
    q.Reached p' := by
  have hreturns := q.render_returns first id indent p.visited
  rw [← h.eq, hr] at hreturns
  exact h.leads hreturns.2 rfl hreturns.1

/-- From rest to rest by what asks for children one after the other. -/
theorem asks {raises : Progress → GenerateError → Prop} {ids : List NodeId}
    {w : Writing Unit} (h : q.Reached p) (hw : w.Asks q.child raises ids) (b : Buffer) :
    (∀ f, w ⟨p, b⟩ = .ok () f → q.Reached f.progress) ∧
      ∀ e f, w ⟨p, b⟩ = .error e f → q.Reached f.progress := by
  have hwalk {ids : List NodeId} {p' : Progress} (hwalk : q.child.Walk ids p p') :
      q.Reached p' := by
    refine hwalk.keeps (P := q.Reached) ?_ h
    rintro id - p₁ p₂ ⟨indent, result, hr⟩ hp
    exact hp.ok hr
  constructor
  · intro f hf
    exact hwalk (hw.passes hf)
  · intro e f hf
    cases hw.stops hf with
    | inside before after id p₁ _ hbefore hfails =>
      obtain ⟨indent, hr⟩ := hfails
      exact (hwalk hbefore).error hr
    | itself before after _ hbefore _ => exact hwalk hbefore

end Reached

end Request

namespace Writing

variable {q : Request} {render : Renderer}

/-- Required children with text between them ask for themselves. -/
theorem asks_requiredSeparated (slot separator : String) (ids : List NodeId) :
    Asks (requiredSeparated q render slot separator ids) render (fun _ _ => True) ids := by
  have hrequired (id : NodeId) :
      Asks (required q render slot id) render (fun _ _ => True) [id] :=
    asks_required slot id fun _ _ _ => trivial
  cases ids with
  | nil => exact asks_pure ()
  | cons id rest =>
    have hrest : Asks (rest.forM fun next => do
        onBuffer (·.print separator)
        required q render slot next) render (fun _ _ => True) rest := by
      induction rest with
      | nil => exact asks_pure ()
      | cons next rest ih =>
        have hnext : Asks (do
            onBuffer (·.print separator)
            required q render slot next) render (fun _ _ => True) [next] :=
          (asks_onBuffer _).before fun _ => hrequired next
        exact hnext.bind fun _ => ih
    exact (hrequired id).bind fun _ => hrest

end Writing

namespace Request

open Event

variable {q : Request} {log : List Event} {m : Moment} {p : Progress}

/-- A call other than the first of a traversal asks for children. -/
theorem answer_asks (q : Request) (call : Call) :
    (∃ root, call = .run root) ∨ ∃ raises ids, (q.answer call).Asks q.child raises ids := by
  cases call with
  | run root => exact .inl ⟨root, rfl⟩
  | child id => exact .inr ⟨fun _ _ => False, _, (Writing.asks_child id).discard⟩
  | visit id => exact .inr ⟨fun _ _ => False, _, (Writing.asks_emit id).discard⟩
  | required slot id =>
    exact .inr ⟨fun _ _ => True, _, Writing.asks_required slot id fun _ _ _ => trivial⟩
  | requiredSeparated slot separator ids =>
    exact .inr ⟨fun _ _ => True, _, Writing.asks_requiredSeparated slot separator ids⟩
  | group arrangement ids =>
    exact .inr ⟨fun _ _ => False, _, (Writing.asks_groupFrom arrangement 0 none ids).discard⟩
  | braced arrangement ids =>
    exact .inr ⟨fun _ _ => False, _, (Writing.asks_braced arrangement ids).discard⟩

/-- From rest to rest by any call. -/
theorem Reached.afterCall (h : q.Reached p) (call : Call × Buffer) :
    q.Reached (q.afterCall p call) := by
  obtain ⟨call, b⟩ := call
  unfold Request.afterCall
  rcases q.answer_asks call with ⟨root, rfl⟩ | ⟨raises, ids, hasks⟩
  · unfold answer
    dsimp only
    cases hr : q.run root p with
    | ok buffer p' =>
      obtain ⟨result, hrender, _⟩ := run_eq_ok hr
      exact h.ok hrender
    | error e p' => exact h.error (run_eq_error.mp hr)
  · obtain ⟨hok, herror⟩ := h.asks hasks b
    cases hf : q.answer call ⟨p, b⟩ with
    | ok _ f => exact hok f hf
    | error e f => exact herror e f hf

/-- **No node is emitted twice on one traversal.** Any calls on one traversal,
one after the other and whatever becomes of them, are a session, and what a call
for a node answers with is a frame of it. If every visitor enters a node only
once, the nodes that are noted at any moment of any session are those entered so
far, and no node has been emitted twice. -/
theorem calls_emit_once (q : Request) (hq : q.registry.EntersOnce) :
    (∀ calls, ∃ log m, q.Session log m ∧ q.step m = none ∧ m.progress = q.afterCalls calls) ∧
      (∀ log m first id indent result p, q.Session log m → q.step m = none →
        q.render q.nesting first id indent m.progress = .ok result p →
        ∃ more, q.Session (log ++ more) ⟨.back result, [], p.visited⟩ ∧
          ∀ written ∈ result, .finished id written ∈ more) ∧
      ∀ log m, q.Session log m → m.visited.toList = entered log ∧ EmitsOnce log := by
  refine ⟨fun calls => ?_, ?_, fun log m hs => ?_⟩
  · induction calls using List.reverseRecOn with
    | nil => exact ⟨[], _, .fresh, rfl, rfl⟩
    | append_singleton calls call ih =>
      have hreached : q.Reached (q.afterCalls calls) := ih
      rw [afterCalls, List.foldl_append]
      exact hreached.afterCall call
  · intro log m first id indent result p hs hrest hr
    have hprogress : m.progress = ⟨m.visited, []⟩ := by
      rw [Moment.progress, Moment.path, stack_of_rest hrest, List.map_nil]
    rw [hprogress] at hr
    obtain ⟨more, hc, hframe⟩ := exists_course_of_render hr
    exact ⟨more, hs.call first id indent hrest hc, hframe⟩
  · exact ⟨(hs.logged hq).visited, (hs.logged hq).emitsOnce⟩

/-- A block is asked for before the block that lists it, and statements of one
kind are written as blocks. -/
def calledBlocks : Request where
  ast := sharedBlock
  registry := Registry.standard.install .breakStatement (.plain .once)
  options := {}

/-- After a block, the block around it and a statement of that one have been
asked for, the last in vain, every node was entered once. -/
theorem calls_emit_once_calledBlocks :
    calledBlocks.registry.EntersOnce ∧ ∃ log m, calledBlocks.Session log m ∧
      calledBlocks.step m = none ∧ m.visited.toList = [⟨1⟩, ⟨3⟩, ⟨0⟩, ⟨2⟩] ∧
        entered log = [⟨1⟩, ⟨3⟩, ⟨0⟩, ⟨2⟩] ∧ EmitsOnce log := by
  have honce : calledBlocks.registry.EntersOnce := by
    intro tag visitor h
    simp only [calledBlocks, Registry.install] at h
    split at h
    next => exact (Option.some.inj h) ▸ rfl
    next => exact Registry.thorough_standard.entersOnce tag visitor h
  let b : Buffer := .ofIndent 0 "    "
  let calls : List (Call × Buffer) :=
    [(.run ⟨1⟩, b), (.visit ⟨1⟩, b), (.run ⟨0⟩, b), (.required "operand" ⟨2⟩, b)]
  have hvisited : (calledBlocks.afterCalls calls).visited.toList = [⟨1⟩, ⟨3⟩, ⟨0⟩, ⟨2⟩] := by
    decide +kernel
  obtain ⟨hcalls, -, hsessions⟩ := calls_emit_once calledBlocks honce
  obtain ⟨log, m, hs, hrest, hm⟩ := hcalls calls
  obtain ⟨hentered, hemits⟩ := hsessions log m hs
  rw [← hm] at hvisited
  exact ⟨honce, log, m, hs, hrest, hvisited, hentered.symm.trans hvisited, hemits⟩

end Request

end SourceScribe
