import SourceScribe.Proofs.Steps

/-!
# Traversals step by step

The same traversal as a machine without recursion and without a bound: a
moment holds the nodes that are being written, the innermost first, each with
its buffer and what it still has to do, the nodes entered so far, and what
happens next. The recursive traversal does what the machine does: where a call
of it comes back or fails, the machine gets there in finitely many steps, with
the same outcome. So the bound on nested calls of the recursive traversal is
never felt.
-/

namespace SourceScribe

open Relation (ReflTransGen)

/-- What a node that is being written still has to do. -/
inductive Task where
  /-- A piece of its script. -/
  | piece (p : Piece)
  /-- The children of a group that are left, after some have been written. -/
  | children (arrangement : Arrangement) (written : Nat) (previous : Option Tag)
    (ids : List NodeId)
  /-- The brace behind a group. -/
  | close

/-- A node that is being written. -/
structure Activation where
  /-- The node. -/
  id : NodeId
  /-- Its kind. -/
  tag : Tag
  /-- What has been written. -/
  buffer : Buffer
  /-- What is left to do, in order. -/
  tasks : List Task

/-- What happens next. -/
inductive Control where
  /-- A node is to be written at a level of indentation. -/
  | call (first : Bool) (id : NodeId) (indent : Nat)
  /-- The innermost node goes on. -/
  | work
  /-- A call comes back, without a buffer if its node was left out. -/
  | back (result : Option Buffer)
  /-- A call fails. -/
  | fail (e : GenerateError)

/-- A moment of a traversal. -/
structure Moment where
  /-- What happens next. -/
  control : Control
  /-- The nodes that are being written, the innermost first. -/
  stack : List Activation
  /-- The nodes that have been entered. -/
  visited : Array NodeId

namespace Moment

/-- The path of a moment, the innermost node first. -/
def path (m : Moment) : List NodeId := m.stack.map Activation.id

/-- How far the traversal has come. -/
def progress (m : Moment) : Progress := ⟨m.visited, m.path⟩

/-- The beginning of a traversal, after some nodes have been entered. -/
def start (root : NodeId) (visited : Array NodeId) : Moment := ⟨.call true root 0, [], visited⟩

end Moment

/-- The calls that a task is still to make, in order. -/
def Task.calls : Task → List NodeId
  | .piece p => p.calls
  | .children _ _ _ ids => ids
  | .close => []

namespace Request

/-- Goes into a node if it may be entered. -/
def begin (q : Request) (first : Bool) (id : NodeId) (indent : Nat) (m : Moment) : Moment :=
  match q.gate first id m.progress with
  | .error e => { m with control := .fail e }
  | .ok none => { m with control := .back none }
  | .ok (some (node, visitor)) =>
    { control := .work
      stack := ⟨id, node.tag, .ofNode id indent q.options.indent,
        (q.scriptOf visitor id node).map .piece⟩ :: m.stack
      visited := (m.progress.enter id).visited }

/-- Does the next task of the innermost node; a node without tasks is done. -/
def perform (q : Request) (a : Activation) (outer : List Activation) (visited : Array NodeId) :
    Moment :=
  let go := fun buffer tasks => (⟨.work, ⟨a.id, a.tag, buffer, tasks⟩ :: outer, visited⟩ : Moment)
  let call := fun id => (⟨.call false id a.buffer.indent, a :: outer, visited⟩ : Moment)
  match a.tasks with
  | [] => ⟨.back (some a.buffer), outer, visited⟩
  | .piece (.text value) :: tasks => go (a.buffer.print value) tasks
  | .piece .newline :: tasks => go a.buffer.newline tasks
  | .piece (.required _ id) :: _ => call id
  | .piece (.group arrangement ids) :: tasks =>
    go a.buffer (.children arrangement 0 none ids :: tasks)
  | .piece (.braced arrangement ids) :: tasks =>
    go (a.buffer.println "\x7b").deeper (.children arrangement 0 none ids :: .close :: tasks)
  | .piece (.standing describe) :: tasks =>
    go (a.buffer.print (describe (q.standing ⟨visited, a.id :: outer.map Activation.id⟩))) tasks
  | .piece (.reject fault) :: _ => ⟨.fail (.malformed a.id a.tag fault []), a :: outer, visited⟩
  | .children _ _ _ [] :: tasks => go a.buffer tasks
  | .children _ _ _ (id :: _) :: _ => call id
  | .close :: tasks => go (a.buffer.shallower.print "\x7d") tasks

/-- Takes the result of a call that the next task of the innermost node has
made. -/
def resume (q : Request) (result : Option Buffer) (a : Activation) (outer : List Activation)
    (visited : Array NodeId) : Moment :=
  let go := fun buffer tasks => (⟨.work, ⟨a.id, a.tag, buffer, tasks⟩ :: outer, visited⟩ : Moment)
  match a.tasks, result with
  | .piece (.required _ _) :: tasks, some written => go (a.buffer.append written) tasks
  | .piece (.required slot id) :: _, none =>
    ⟨.fail (q.alreadyGenerated ⟨visited, a.id :: outer.map Activation.id⟩ slot id),
      a :: outer, visited⟩
  | .children arrangement written previous (_ :: ids) :: tasks, none =>
    go a.buffer (.children arrangement written previous ids :: tasks)
  | .children arrangement written previous (id :: ids) :: tasks, some child =>
    go (arrangement.place q.options.blankLineBetweenDefinitions written previous (q.ast.tag? id)
        child a.buffer)
      (.children arrangement (written + 1) (q.ast.tag? id) ids :: tasks)
  | _, _ => go a.buffer a.tasks

/-- The next moment; there is none once the first call is back or has failed. -/
def step (q : Request) (m : Moment) : Option Moment :=
  match m.control, m.stack with
  | .call first id indent, _ => some (q.begin first id indent m)
  | .work, a :: outer => some (q.perform a outer m.visited)
  | .back result, a :: outer => some (q.resume result a outer m.visited)
  | .fail e, _ :: outer => some ⟨.fail (e.within (q.pathOf m.path)), outer, m.visited⟩
  | _, [] => none

/-- The second moment follows the first after finitely many steps. -/
def Leads (q : Request) : Moment → Moment → Prop := ReflTransGen fun m next => q.step m = some next

/-- A single step leads on. -/
theorem Leads.single {q : Request} {m next : Moment} (h : q.step m = some next) : q.Leads m next :=
  ReflTransGen.single h

/-- Steps lead on one after the other. -/
theorem Leads.trans {q : Request} {m next last : Moment} (h : q.Leads m next)
    (h' : q.Leads next last) : q.Leads m last := ReflTransGen.trans h h'

end Request

namespace Moment

/-- The machine gets from a moment to where a call is over that was made with
some nodes being written, and has the same outcome as the given one. -/
def ReturnsAs (q : Request) (stack : List Activation) (m : Moment) :
    EStateM.Result GenerateError Progress (Option Buffer) → Prop
  | .ok result p => p.path = stack.map Activation.id ∧ q.Leads m ⟨.back result, stack, p.visited⟩
  | .error e p => p.path = stack.map Activation.id ∧ q.Leads m ⟨.fail e, stack, p.visited⟩

/-- The moment at which a node goes on with some tasks. -/
def working (f : Frame) (id : NodeId) (tag : Tag) (outer : List Activation) (tasks : List Task) :
    Moment :=
  ⟨.work, ⟨id, tag, f.buffer, tasks⟩ :: outer, f.progress.visited⟩

/-- The machine gets from a moment to where some tasks of a node are done or
have failed, with the given outcome and with what comes behind them left. -/
def GoesOnAs {α : Type} (q : Request) (id : NodeId) (tag : Tag) (outer : List Activation)
    (rest : List Task) (m : Moment) : EStateM.Result GenerateError Frame α → Prop
  | .ok _ f =>
    f.progress.path = id :: outer.map Activation.id ∧ q.Leads m (working f id tag outer rest)
  | .error e f =>
    f.progress.path = id :: outer.map Activation.id ∧
      ∃ a : Activation, a.id = id ∧ q.Leads m ⟨.fail e, a :: outer, f.progress.visited⟩

variable {q : Request} {id : NodeId} {tag : Tag} {outer : List Activation}

/-- What a later moment returns, an earlier one does. -/
theorem ReturnsAs.of_leads {stack : List Activation} {m next : Moment}
    {r : EStateM.Result GenerateError Progress (Option Buffer)} (hl : q.Leads m next)
    (h : ReturnsAs q stack next r) : ReturnsAs q stack m r := by
  cases r with
  | ok result p => exact ⟨h.1, hl.trans h.2⟩
  | error e p => exact ⟨h.1, hl.trans h.2⟩

/-- How a later moment goes on, an earlier one does. -/
theorem GoesOnAs.of_leads {α : Type} {rest : List Task} {m next : Moment}
    {r : EStateM.Result GenerateError Frame α} (hl : q.Leads m next)
    (h : GoesOnAs q id tag outer rest next r) : GoesOnAs q id tag outer rest m r := by
  cases r with
  | ok a f => exact ⟨h.1, hl.trans h.2⟩
  | error e f =>
    obtain ⟨hp, a, ha, hf⟩ := h
    exact ⟨hp, a, ha, hl.trans hf⟩

end Moment

/-- The machine does what the calls of a renderer do that a node makes. -/
def Renderer.Mimicked (render : Renderer) (q : Request) (id : NodeId) (outer : List Activation) :
    Prop :=
  ∀ (child : NodeId) (indent : Nat) (p : Progress) (a : Activation), a.id = id →
    p.path = id :: outer.map Activation.id →
    Moment.ReturnsAs q (a :: outer) ⟨.call false child indent, a :: outer, p.visited⟩
      (render child indent p)

/-- The machine does with some tasks what a node writes. -/
def Writing.Mimicked {α : Type} (w : Writing α) (q : Request) (id : NodeId) (tag : Tag)
    (outer : List Activation) (tasks : List Task) : Prop :=
  ∀ (f : Frame) (rest : List Task), f.progress.path = id :: outer.map Activation.id →
    Moment.GoesOnAs q id tag outer rest (.working f id tag outer (tasks ++ rest)) (w f)

namespace Writing

open Moment

variable {q : Request} {render : Renderer} {id : NodeId} {tag : Tag} {outer : List Activation}

/-- A group is written child by child. -/
theorem mimicked_groupFrom (hr : render.Mimicked q id outer) (arrangement : Arrangement)
    (written : Nat) (previous : Option Tag) (ids : List NodeId) :
    Mimicked (groupFrom q render arrangement written previous ids) q id tag outer
      [.children arrangement written previous ids] := by
  induction ids generalizing written previous with
  | nil =>
    intro f rest hp
    exact ⟨hp, .single rfl⟩
  | cons child ids ih =>
    intro f rest hp
    have hcall := hr child f.buffer.indent f.progress
      ⟨id, tag, f.buffer, .children arrangement written previous (child :: ids) :: rest⟩ rfl hp
    rw [groupFrom_cons]
    refine .of_leads (.single rfl) ?_
    cases hc : render child f.buffer.indent f.progress with
    | error e p =>
      rw [hc] at hcall
      exact ⟨hcall.1, _, rfl, hcall.2⟩
    | ok result p =>
      rw [hc] at hcall
      refine .of_leads hcall.2 ?_
      cases result with
      | none => exact .of_leads (.single rfl) (ih written previous ⟨p, f.buffer⟩ rest hcall.1)
      | some buffer => exact .of_leads (.single rfl) (ih _ _ ⟨p, _⟩ rest hcall.1)

/-- A required child is written at one go. -/
theorem mimicked_required (hr : render.Mimicked q id outer) (slot : String) (child : NodeId) :
    Mimicked (required q render slot child) q id tag outer [.piece (.required slot child)] := by
  intro f rest hp
  have hcall := hr child f.buffer.indent f.progress
    ⟨id, tag, f.buffer, .piece (.required slot child) :: rest⟩ rfl hp
  rw [required_eq]
  refine .of_leads (.single rfl) ?_
  cases hc : render child f.buffer.indent f.progress with
  | error e p =>
    rw [hc] at hcall
    exact ⟨hcall.1, _, rfl, hcall.2⟩
  | ok result p =>
    rw [hc] at hcall
    refine .of_leads hcall.2 ?_
    cases result with
    | some buffer => exact ⟨hcall.1, .single rfl⟩
    | none =>
      have hpath : p.path = id :: outer.map Activation.id := hcall.1
      have hp' : p = ⟨p.visited, id :: outer.map Activation.id⟩ := by
        rw [← hpath]
      refine ⟨hpath, ⟨id, tag, f.buffer, .piece (.required slot child) :: rest⟩, rfl, ?_⟩
      rw [hp']
      exact .single rfl

/-- A group between braces is opened, written and closed. -/
theorem mimicked_braced (hr : render.Mimicked q id outer) (arrangement : Arrangement)
    (ids : List NodeId) :
    Mimicked (braced q render arrangement ids) q id tag outer
      [.piece (.braced arrangement ids)] := by
  intro f rest hp
  have hmimicked : Mimicked (group q render arrangement ids) q id tag outer
      [.children arrangement 0 none ids] := mimicked_groupFrom hr arrangement 0 none ids
  have hgroup := hmimicked ⟨f.progress, (f.buffer.println "\x7b").deeper⟩ (.close :: rest) hp
  rw [braced_eq]
  refine .of_leads (.single rfl) ?_
  cases hg : group q render arrangement ids ⟨f.progress, (f.buffer.println "\x7b").deeper⟩ with
  | ok written f' =>
    rw [hg] at hgroup
    refine .of_leads hgroup.2 ⟨hgroup.1, .single rfl⟩
  | error e f' =>
    rw [hg] at hgroup
    exact hgroup

/-- The result of what is written does not matter. -/
theorem Mimicked.discard {α : Type} {w : Writing α} {tasks : List Task}
    (h : Mimicked w q id tag outer tasks) : Mimicked (discard w) q id tag outer tasks := by
  intro f rest hp
  have hw := h f rest hp
  change GoesOnAs q id tag outer rest _ (EStateM.map (fun _ => PUnit.unit) w f)
  unfold EStateM.map
  cases hf : w f with
  | ok a f' =>
    rw [hf] at hw
    exact hw
  | error e f' =>
    rw [hf] at hw
    exact hw

/-- A piece is a task. -/
theorem mimicked_piece (hr : render.Mimicked q id outer) (p : Piece) :
    Mimicked (piece q render id tag p) q id tag outer [.piece p] := by
  cases p with
  | text value => exact fun f rest hp => ⟨hp, .single rfl⟩
  | newline => exact fun f rest hp => ⟨hp, .single rfl⟩
  | required slot child => exact mimicked_required hr slot child
  | group arrangement ids =>
    have hgroup : Mimicked (group q render arrangement ids) q id tag outer
        [.piece (.group arrangement ids)] := fun f rest hp =>
      .of_leads (.single rfl) (mimicked_groupFrom hr arrangement 0 none ids f rest hp)
    exact hgroup.discard
  | braced arrangement ids => exact (mimicked_braced hr arrangement ids).discard
  | standing describe =>
    intro f rest hp
    refine ⟨hp, .single ?_⟩
    have hpath : f.progress = ⟨f.progress.visited, id :: outer.map Activation.id⟩ := by
      rw [← hp]
    rw [hpath]
    rfl
  | reject fault => exact fun f rest hp => ⟨hp, _, rfl, .single rfl⟩

/-- A script is done piece by piece. -/
theorem mimicked_script (hr : render.Mimicked q id outer) (s : Script) :
    Mimicked (script q render id tag s) q id tag outer (s.map .piece) := by
  induction s with
  | nil => exact fun f rest hp => ⟨hp, .refl⟩
  | cons p s ih =>
    intro f rest hp
    have hmimicked : Mimicked (piece q render id tag p) q id tag outer [.piece p] :=
      mimicked_piece hr p
    have hpiece := hmimicked f (s.map .piece ++ rest) hp
    rw [script_cons]
    cases hf : piece q render id tag p f with
    | ok a f' =>
      rw [hf] at hpiece
      exact .of_leads hpiece.2 (ih f' rest hpiece.1)
    | error e f' =>
      rw [hf] at hpiece
      exact hpiece

end Writing

namespace Request

open Moment

/-- A node that is entered is written by the machine, whose calls are those of a
renderer. -/
theorem enter_mimicked {render : Renderer} {visitor : Visitor} {id : NodeId} {node : Node}
    {stack : List Activation} (hcalls : render.Mimicked q id stack) (indent : Nat)
    (visited : Array NodeId) :
    ReturnsAs q stack
      (.working ⟨Progress.enter ⟨visited, stack.map Activation.id⟩ id,
          .ofNode id indent q.options.indent⟩ id node.tag stack
        ((q.scriptOf visitor id node).map .piece))
      (q.enter render visitor id node indent ⟨visited, stack.map Activation.id⟩) := by
  have hscript : Writing.Mimicked
      (Writing.script q render id node.tag (q.scriptOf visitor id node)) q id node.tag stack
      ((q.scriptOf visitor id node).map .piece) := Writing.mimicked_script hcalls _
  have hdone := hscript
    ⟨Progress.enter ⟨visited, stack.map Activation.id⟩ id, .ofNode id indent q.options.indent⟩
    [] rfl
  rw [List.append_nil] at hdone
  cases hw : Writing.script q render id node.tag (q.scriptOf visitor id node)
      ⟨Progress.enter ⟨visited, stack.map Activation.id⟩ id,
        .ofNode id indent q.options.indent⟩ with
  | ok done f =>
    rw [hw] at hdone
    rw [enter_of_script hw]
    refine .of_leads hdone.2 ⟨?_, .single rfl⟩
    simp only [Progress.leave, hdone.1, List.tail_cons]
  | error e f =>
    rw [hw] at hdone
    obtain ⟨hp, a, hid, hfail⟩ := hdone
    rw [enter_of_script_error hw]
    refine .of_leads hfail ⟨?_, .single ?_⟩
    · simp only [Progress.leave, hp, List.tail_cons]
    · have hpath : Moment.path ⟨.fail e, a :: stack, f.progress.visited⟩ = f.progress.path := by
        rw [hp, path, List.map_cons, hid]
      simp only [step, hpath]
      rfl

/-- The machine does what a call of the recursive traversal does, as long as the
call has one nested call left for each node that is not being written, and one
more. -/
theorem render_mimicked (q : Request) {limit : Nat} {stack : List Activation}
    (hs : q.ast.Simple (stack.map Activation.id)) (hl : q.ast.size < limit + stack.length)
    (first : Bool) (id : NodeId) (indent : Nat) (visited : Array NodeId) :
    ReturnsAs q stack ⟨.call first id indent, stack, visited⟩
      (q.render limit first id indent ⟨visited, stack.map Activation.id⟩) := by
  induction limit generalizing stack first id indent visited with
  | zero =>
    have hle : stack.length ≤ q.ast.size := by
      simpa only [List.length_map] using hs.length_le
    omega
  | succ limit ih =>
    let m : Moment := ⟨.call first id indent, stack, visited⟩
    have hbegin : q.Leads m (q.begin first id indent m) := .single rfl
    refine .of_leads hbegin ?_
    unfold begin render
    change ReturnsAs q stack (match q.gate first id ⟨visited, stack.map Activation.id⟩ with
      | .error e => _
      | .ok none => _
      | .ok (some (node, visitor)) => _) _
    rcases q.gate_cases first id ⟨visited, stack.map Activation.id⟩ with
      ⟨e, _, he⟩ | ⟨node, visitor, ha, ⟨_, hgate⟩ | ⟨_, hgate⟩⟩
    · rw [he]
      exact ⟨rfl, .refl⟩
    · rw [hgate]
      exact ⟨rfl, .refl⟩
    · rw [hgate]
      have hfound : q.ast.has id = true := Ast.has_iff.mpr ⟨node, ha.found⟩
      have hcalls : (q.render limit false).Mimicked q id stack := by
        intro child indent' p a hid hp
        have hpath : (a :: stack).map Activation.id = id :: stack.map Activation.id := by
          rw [List.map_cons, hid]
        have hsimple : q.ast.Simple ((a :: stack).map Activation.id) := by
          rw [hpath]
          exact hs.push hfound ha.fresh
        have hroom : q.ast.size < limit + (a :: stack).length := by
          rw [List.length_cons]
          omega
        have hreturns := ih hsimple hroom false child indent' p.visited
        rwa [hpath, ← hp] at hreturns
      exact enter_mimicked hcalls indent visited

end Request

end SourceScribe
