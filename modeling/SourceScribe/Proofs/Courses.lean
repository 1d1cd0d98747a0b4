import SourceScribe.Proofs.Deeds
import SourceScribe.Proofs.Demands
import SourceScribe.Proofs.Machine
import SourceScribe.Proofs.Settled

/-!
# The course of a traversal

The steps of a traversal are taken down in a log: which node is opened while
which other is the innermost, and which node is finished with which buffer. All
that a step can do is said here once: a node that is to be written is refused,
skipped or opened; the innermost node writes, asks for a child, takes what has
been written for it, or passes over it; it is finished, or the traversal fails.
What every step keeps, a course keeps, and so does a session in which a caller
asks one traversal for one node after the other.
-/

namespace SourceScribe

/-- What a log takes down. -/
inductive Event where
  /-- A node is entered, while the other is the innermost on the path if there
  is one. -/
  | opened (outer : Option NodeId) (id : NodeId)
  /-- A node is written. -/
  | finished (id : NodeId) (written : Buffer)

namespace Event

/-- The node that is entered. -/
def entered? : Event → Option NodeId
  | .opened _ id => some id
  | .finished _ _ => none

/-- The nodes that are entered, in order. -/
def entered (log : List Event) : List NodeId := log.filterMap entered?

variable {log more : List Event}

@[simp]
theorem entered_nil : entered [] = [] := rfl

@[simp]
theorem entered_append : entered (log ++ more) = entered log ++ entered more :=
  List.filterMap_append

@[simp]
theorem entered_opened (outer : Option NodeId) (id : NodeId) (more : List Event) :
    entered (.opened outer id :: more) = id :: entered more := rfl

@[simp]
theorem entered_finished (id : NodeId) (written : Buffer) (more : List Event) :
    entered (.finished id written :: more) = entered more := rfl

/-- A node is entered exactly when a log says so. -/
theorem mem_entered {id : NodeId} : id ∈ entered log ↔ ∃ outer, .opened outer id ∈ log := by
  simp only [entered, List.mem_filterMap]
  constructor
  · rintro ⟨e, hm, he⟩
    cases e with
    | opened outer x =>
      cases he
      exact ⟨outer, hm⟩
    | finished x written => cases he
  · rintro ⟨outer, hm⟩
    exact ⟨_, hm, rfl⟩

/-- An entry of a list with one more at the end is an earlier one or that one. -/
theorem split_concat {α : Type} {l front back : List α} {x y : α}
    (h : l ++ [x] = front ++ y :: back) : (∃ rest, l = front ++ y :: rest) ∨ l = front ∧ x = y := by
  rcases back.eq_nil_or_concat with rfl | ⟨rest, z, rfl⟩
  · obtain ⟨hl, hx⟩ := List.append_inj' h rfl
    exact .inr ⟨hl, (List.cons.inj hx).1⟩
  · rw [List.concat_eq_append, ← List.cons_append, ← List.append_assoc] at h
    exact .inl ⟨rest, (List.append_inj' h rfl).1⟩

end Event

/-- The children that a task cannot do without, in order. -/
def Task.demands : Task → List NodeId
  | .piece p => p.demands
  | _ => []

namespace Activation

/-- The children that a node is still to ask for, in order. -/
def calls (a : Activation) : List NodeId := a.tasks.flatMap Task.calls

/-- The children that a node is still to demand, in order. -/
def demands (a : Activation) : List NodeId := a.tasks.flatMap Task.demands

/-- The next thing that a node does is to ask for a child. -/
inductive Asks (a : Activation) (child : NodeId) : Prop
  | required (slot : String) (tasks : List Task) :
    a.tasks = .piece (.required slot child) :: tasks → Asks a child
  | children (arrangement : Arrangement) (written : Nat) (previous : Option Tag)
    (ids : List NodeId) (tasks : List Task) :
    a.tasks = .children arrangement written previous (child :: ids) :: tasks → Asks a child

/-- A node has come on by some deeds. -/
structure Does (a : Activation) (deeds : List Deed) (a' : Activation) : Prop where
  /-- It is the same node. -/
  id : a'.id = a.id
  /-- It is of the same kind. -/
  tag : a'.tag = a.tag
  /-- The pieces that are left were there before. -/
  pieces : ∀ p, .piece p ∈ a'.tasks → .piece p ∈ a.tasks
  /-- Its buffer has changed by these deeds. -/
  buffer : a.buffer.Does deeds a'.buffer
  /-- The children of the deeds are those that it was to ask for first. -/
  calls : a.calls = Deed.children deeds ++ a'.calls
  /-- What is no longer demanded was placed. -/
  demands : ∃ met, a.demands = met ++ a'.demands ∧ met.Sublist (Deed.placedChildren deeds)

variable {a : Activation} {child : NodeId}

/-- A node asks for one child at a time. -/
theorem Asks.unique {other : NodeId} (h : a.Asks child) (h' : a.Asks other) : child = other := by
  cases h with
  | required slot tasks ht =>
    cases h' with
    | required slot' tasks' ht' =>
      rw [ht] at ht'
      cases ht'
      rfl
    | children arrangement written previous ids tasks' ht' =>
      rw [ht] at ht'
      cases ht'
  | children arrangement written previous ids tasks ht =>
    cases h' with
    | required slot' tasks' ht' =>
      rw [ht] at ht'
      cases ht'
    | children arrangement' written' previous' ids' tasks' ht' =>
      rw [ht] at ht'
      cases ht'
      rfl

/-- A node that changes only its buffer and the form of its tasks writes. -/
theorem does_of_writes {buffer : Buffer} {tasks : List Task} (hw : a.buffer.Writes buffer)
    (hp : ∀ p, .piece p ∈ tasks → .piece p ∈ a.tasks) (hc : tasks.flatMap Task.calls = a.calls)
    (hd : tasks.flatMap Task.demands = a.demands) :
    ∃ own : List Part, a.Does (own.map .wrote) ⟨a.id, a.tag, buffer, tasks⟩ := by
  obtain ⟨own, hown⟩ := hw
  refine ⟨own, rfl, rfl, hp, hown, ?_, [], ?_, List.nil_sublist _⟩
  · rw [Deed.children_wrote]
    exact hc.symm
  · exact hd.symm

end Activation

namespace Request

variable {q : Request} {m next : Moment}

/-- What a step takes down. -/
def events (q : Request) (m : Moment) : List Event :=
  match m.control, m.stack with
  | .call first id _, _ =>
    match q.gate first id m.progress with
    | .ok (some _) => [.opened m.path.head? id]
    | _ => []
  | .work, a :: _ => if a.tasks.isEmpty then [.finished a.id a.buffer] else []
  | _, _ => []

/-- What a step can do, with what it takes down. -/
inductive Moves (q : Request) : Moment → List Event → Moment → Prop
  | refuses {first : Bool} {id : NodeId} {indent : Nat} {stack : List Activation}
    {visited : Array NodeId} {e : GenerateError} :
    q.Refuses first id ⟨visited, stack.map Activation.id⟩ e →
    Moves q ⟨.call first id indent, stack, visited⟩ [] ⟨.fail e, stack, visited⟩
  | skips {first : Bool} {id : NodeId} {indent : Nat} {stack : List Activation}
    {visited : Array NodeId} {node : Node} {visitor : Visitor} :
    q.Admits first id ⟨visited, stack.map Activation.id⟩ node visitor →
    visitor.guard.admits visited id = false →
    Moves q ⟨.call first id indent, stack, visited⟩ [] ⟨.back none, stack, visited⟩
  | opens {first : Bool} {id : NodeId} {indent : Nat} {stack : List Activation}
    {visited : Array NodeId} {node : Node} {visitor : Visitor} :
    q.Admits first id ⟨visited, stack.map Activation.id⟩ node visitor →
    visitor.guard.admits visited id = true →
    Moves q ⟨.call first id indent, stack, visited⟩
      [.opened (stack.map Activation.id).head? id]
      ⟨.work, ⟨id, node.tag, .ofNode id indent q.options.indent,
          (q.scriptOf visitor id node).map .piece⟩ :: stack,
        (Progress.enter ⟨visited, stack.map Activation.id⟩ id).visited⟩
  | writes {a a' : Activation} {outer : List Activation} {visited : Array NodeId}
    {own : List Part} :
    a.Does (own.map .wrote) a' →
    Moves q ⟨.work, a :: outer, visited⟩ [] ⟨.work, a' :: outer, visited⟩
  | asks {a : Activation} {outer : List Activation} {visited : Array NodeId} {child : NodeId} :
    a.Asks child →
    Moves q ⟨.work, a :: outer, visited⟩ []
      ⟨.call false child a.buffer.indent, a :: outer, visited⟩
  | finishes {a : Activation} {outer : List Activation} {visited : Array NodeId} :
    a.tasks = [] →
    Moves q ⟨.work, a :: outer, visited⟩ [.finished a.id a.buffer]
      ⟨.back (some a.buffer), outer, visited⟩
  | takes {a a' : Activation} {outer : List Activation} {visited : Array NodeId}
    {child : NodeId} {written : Buffer} {front back : List Part} :
    a.Asks child →
    a.Does (front.map .wrote ++ .placed child written :: back.map .wrote) a' →
    Moves q ⟨.back (some written), a :: outer, visited⟩ [] ⟨.work, a' :: outer, visited⟩
  | passes {a a' : Activation} {outer : List Activation} {visited : Array NodeId}
    {child : NodeId} :
    a.Asks child → a.Does [.passed child] a' →
    Moves q ⟨.back none, a :: outer, visited⟩ [] ⟨.work, a' :: outer, visited⟩
  | stays {result : Option Buffer} {a : Activation} {outer : List Activation}
    {visited : Array NodeId} :
    (∀ child, ¬a.Asks child) →
    Moves q ⟨.back result, a :: outer, visited⟩ [] ⟨.work, a :: outer, visited⟩
  | rejects {a : Activation} {outer : List Activation} {visited : Array NodeId} {fault : Fault} :
    .piece (.reject fault) ∈ a.tasks →
    Moves q ⟨.work, a :: outer, visited⟩ []
      ⟨.fail (.malformed a.id a.tag fault []), a :: outer, visited⟩
  | misses {a : Activation} {outer : List Activation} {visited : Array NodeId} {child : NodeId}
    (slot : String) :
    a.Asks child →
    Moves q ⟨.back none, a :: outer, visited⟩ []
      ⟨.fail (q.alreadyGenerated ⟨visited, a.id :: outer.map Activation.id⟩ slot child),
        a :: outer, visited⟩
  | unwinds {e : GenerateError} {a : Activation} {outer : List Activation}
    {visited : Array NodeId} :
    Moves q ⟨.fail e, a :: outer, visited⟩ []
      ⟨.fail (e.within (q.pathOf (a.id :: outer.map Activation.id))), outer, visited⟩

/-- A node that is to be written is refused, skipped or opened. -/
theorem begin_moves (q : Request) (first : Bool) (id : NodeId) (indent : Nat)
    (stack : List Activation) (visited : Array NodeId) :
    q.Moves ⟨.call first id indent, stack, visited⟩
      (q.events ⟨.call first id indent, stack, visited⟩)
      (q.begin first id indent ⟨.call first id indent, stack, visited⟩) := by
  have hprogress : (⟨.call first id indent, stack, visited⟩ : Moment).progress =
      ⟨visited, stack.map Activation.id⟩ := rfl
  rcases q.gate_cases first id ⟨visited, stack.map Activation.id⟩ with
    ⟨e, hrefuses, he⟩ | ⟨node, visitor, ha, ⟨hg, hgate⟩ | ⟨hg, hgate⟩⟩
  · simp only [begin, events, hprogress, he]
    exact .refuses hrefuses
  · simp only [begin, events, hprogress, hgate]
    exact .skips ha hg
  · simp only [begin, events, hprogress, hgate]
    exact .opens ha hg

/-- The innermost node writes, asks for a child, fails or is finished. -/
theorem perform_moves (q : Request) (a : Activation) (outer : List Activation)
    (visited : Array NodeId) :
    q.Moves ⟨.work, a :: outer, visited⟩ (q.events ⟨.work, a :: outer, visited⟩)
      (q.perform a outer visited) := by
  obtain ⟨id, tag, buffer, tasks⟩ := a
  cases tasks with
  | nil => exact .finishes rfl
  | cons task tasks =>
    have hwrites {buffer' : Buffer} (more : List Task) (hw : buffer.Writes buffer')
        (hp : ∀ p, .piece p ∉ more) (hc : more.flatMap Task.calls = task.calls)
        (hd : more.flatMap Task.demands = task.demands) :
        q.Moves ⟨.work, ⟨id, tag, buffer, task :: tasks⟩ :: outer, visited⟩ []
          ⟨.work, ⟨id, tag, buffer', more ++ tasks⟩ :: outer, visited⟩ := by
      have hcalls :
          (more ++ tasks).flatMap Task.calls = task.calls ++ tasks.flatMap Task.calls := by
        rw [List.flatMap_append, hc]
      have hdemands :
          (more ++ tasks).flatMap Task.demands = task.demands ++ tasks.flatMap Task.demands := by
        rw [List.flatMap_append, hd]
      have hpieces : ∀ p, .piece p ∈ more ++ tasks → .piece p ∈ task :: tasks := by
        intro p hm
        exact List.mem_cons_of_mem task ((List.mem_append.mp hm).resolve_left (hp p))
      obtain ⟨own, hdoes⟩ := Activation.does_of_writes (a := ⟨id, tag, buffer, task :: tasks⟩) hw
        hpieces hcalls hdemands
      exact .writes hdoes
    cases task with
    | piece p =>
      cases p with
      | text value => exact hwrites [] (Buffer.writes_print _ _) (by simp) rfl rfl
      | newline => exact hwrites [] (Buffer.writes_newline _) (by simp) rfl rfl
      | required slot child => exact .asks (.required slot tasks rfl)
      | group arrangement ids =>
        exact hwrites [.children arrangement 0 none ids] (Buffer.Writes.refl _) (by simp)
          (List.append_nil _) rfl
      | braced arrangement ids =>
        exact hwrites [.children arrangement 0 none ids, .close] (Buffer.writes_open _) (by simp)
          (List.append_nil _) rfl
      | standing describe => exact hwrites [] (Buffer.writes_print _ _) (by simp) rfl rfl
      | reject fault => exact .rejects List.mem_cons_self
    | children arrangement written previous ids =>
      cases ids with
      | nil => exact hwrites [] (Buffer.Writes.refl _) (by simp) rfl rfl
      | cons child ids => exact .asks (.children arrangement written previous ids tasks rfl)
    | close => exact hwrites [] (Buffer.writes_close _) (by simp) rfl rfl

/-- The innermost node takes what was written for a child, passes over it, or
fails. -/
theorem resume_moves (q : Request) (result : Option Buffer) (a : Activation)
    (outer : List Activation) (visited : Array NodeId) :
    q.Moves ⟨.back result, a :: outer, visited⟩ [] (q.resume result a outer visited) := by
  unfold resume
  dsimp only
  split
  next slot id tasks written ht =>
    have hdoes : a.buffer.Does
        (([] : List Part).map .wrote ++ .placed id written :: ([] : List Part).map .wrote)
        (a.buffer.append written) := Buffer.does_append a.buffer id written
    refine .takes (.required slot tasks ht)
      ⟨rfl, rfl, fun p hm => ?_, hdoes, ?_, [id], ?_, List.Sublist.refl [id]⟩
    · rw [ht]
      exact List.mem_cons_of_mem _ hm
    · rw [Activation.calls, ht]
      rfl
    · rw [Activation.demands, ht]
      rfl
  next slot id tasks ht => exact .misses slot (.required slot tasks ht)
  next arrangement written previous id ids tasks ht =>
    refine .passes (.children arrangement written previous ids tasks ht)
      ⟨rfl, rfl, fun p hm => ?_, ⟨(List.append_nil _).symm, by simp, rfl⟩, ?_, [], ?_,
        List.nil_sublist _⟩
    · simpa [ht] using hm
    · rw [Activation.calls, ht]
      rfl
    · rw [Activation.demands, ht]
      rfl
  next arrangement written previous id ids tasks child ht =>
    obtain ⟨front, back, hdoes⟩ := Buffer.does_place arrangement
      q.options.blankLineBetweenDefinitions written previous (q.ast.tag? id) id child a.buffer
    refine .takes (.children arrangement written previous ids tasks ht)
      ⟨rfl, rfl, fun p hm => ?_, hdoes, ?_, [], ?_, List.nil_sublist _⟩
    · simpa [ht] using hm
    · rw [Activation.calls, ht, Deed.children_around]
      rfl
    · rw [Activation.demands, ht]
      rfl
  next result _ _ hsome hnone hpass hplace =>
    refine .stays fun child hasks => ?_
    cases hasks with
    | required slot tasks ht =>
      cases result with
      | none => exact hnone slot child tasks ht rfl
      | some written => exact hsome slot child tasks written ht rfl
    | children arrangement written previous ids tasks ht =>
      cases result with
      | none => exact hpass arrangement written previous child ids tasks ht rfl
      | some buffer => exact hplace arrangement written previous child ids tasks buffer ht rfl

/-- A step does one of these. -/
theorem step_moves (h : q.step m = some next) : q.Moves m (q.events m) next := by
  obtain ⟨control, stack, visited⟩ := m
  unfold step at h
  split at h
  next first id indent hcontrol =>
    cases h
    cases hcontrol
    exact q.begin_moves first id indent stack visited
  next a outer hcontrol hstack =>
    cases h
    cases hcontrol
    cases hstack
    exact q.perform_moves a outer visited
  next result a outer hcontrol hstack =>
    cases h
    cases hcontrol
    cases hstack
    exact q.resume_moves result a outer visited
  next e a outer hcontrol hstack =>
    cases h
    cases hcontrol
    cases hstack
    exact .unwinds
  next => cases h

/-- The steps from one moment to another have taken down a log. -/
inductive Course (q : Request) (start : Moment) : List Event → Moment → Prop
  | refl : Course q start [] start
  | step {log : List Event} {m next : Moment} :
    Course q start log m → q.step m = some next → Course q start (log ++ q.events m) next

/-- A caller asks a traversal for one node after the other, whatever becomes of
them. -/
inductive Session (q : Request) : List Event → Moment → Prop
  | fresh : Session q [] ⟨.back none, [], #[]⟩
  | call {log more : List Event} {m next : Moment} (first : Bool) (id : NodeId) (indent : Nat) :
    Session q log m → q.step m = none →
      q.Course ⟨.call first id indent, [], m.visited⟩ more next → Session q (log ++ more) next

/-- What every step keeps, a course keeps. -/
theorem Course.keeps {start : Moment} {log : List Event} (h : q.Course start log m)
    {P : List Event → Moment → Prop}
    (hstep : ∀ {log more m next}, P log m → q.Moves m more next → P (log ++ more) next)
    {before : List Event} (hstart : P before start) : P (before ++ log) m := by
  induction h with
  | refl => rwa [List.append_nil]
  | step _ hnext ih =>
    rw [← List.append_assoc]
    exact hstep ih (step_moves hnext)

/-- Where a log enters a node, the course takes a step that puts the node on the
path, in front of the node that is the innermost then. -/
theorem Course.step_of_opened {start last : Moment} {log before after : List Event}
    {outer : Option NodeId} {id : NodeId} (h : q.Course start log last)
    (hlog : log = before ++ .opened outer id :: after) :
    ∃ m next, q.Course start before m ∧ q.step m = some next ∧ m.path.head? = outer ∧
      next.path = id :: m.path := by
  induction h generalizing after with
  | refl => simp at hlog
  | @step log m next hcourse hnext ih =>
    have hmoves := step_moves hnext
    generalize hevents : q.events m = more at hmoves hlog
    cases hmoves with
    | opens ha hg =>
      rcases Event.split_concat hlog with ⟨rest, hrest⟩ | ⟨rfl, hevent⟩
      · exact ih hrest
      · cases hevent
        exact ⟨_, _, hcourse, hnext, rfl, rfl⟩
    | finishes htasks =>
      rcases Event.split_concat hlog with ⟨rest, hrest⟩ | ⟨-, hevent⟩
      · exact ih hrest
      · cases hevent
    | _ =>
      rw [List.append_nil] at hlog
      exact ih hlog

/-- What leads from one moment to another has a log. -/
theorem exists_course (h : q.Leads m next) : ∃ log, q.Course m log next := by
  induction h with
  | refl => exact ⟨[], .refl⟩
  | tail _ hstep ih =>
    obtain ⟨log, hlog⟩ := ih
    exact ⟨_, hlog.step hstep⟩

/-- A course leads from one moment to the other. -/
theorem Course.leads {start : Moment} {log : List Event} (h : q.Course start log m) :
    q.Leads start m := by
  induction h with
  | refl => exact .refl
  | step _ hstep ih => exact ih.tail hstep

/-- What a traversal leads to after a course, it leads to by a longer course. -/
theorem Course.goes_on {start last : Moment} {log : List Event}
    (h : q.Course start log m) (hl : q.Leads m last) :
    ∃ more, q.Course start (log ++ more) last := by
  induction hl with
  | refl => exact ⟨[], by rwa [List.append_nil]⟩
  | tail _ hstep ih =>
    obtain ⟨more, hmore⟩ := ih
    exact ⟨_, List.append_assoc log more _ ▸ hmore.step hstep⟩

/-- A traversal that rests writes no node. -/
theorem stack_of_rest (h : q.step m = none) : m.stack = [] := by
  obtain ⟨control, stack, visited⟩ := m
  cases stack with
  | nil => rfl
  | cons a outer => cases control <;> cases h

/-- What every call and every step keep, a session keeps. -/
theorem Session.keeps {log : List Event} (h : q.Session log m) {P : List Event → Moment → Prop}
    (hstart : P [] ⟨.back none, [], #[]⟩)
    (hcall : ∀ {log control visited} (first : Bool) (id : NodeId) (indent : Nat),
      P log ⟨control, [], visited⟩ → P log ⟨.call first id indent, [], visited⟩)
    (hstep : ∀ {log more m next}, P log m → q.Moves m more next → P (log ++ more) next) :
    P log m := by
  induction h with
  | fresh => exact hstart
  | @call log more m next first id indent _ hrest hcourse ih =>
    have hm : m = ⟨m.control, [], m.visited⟩ := by rw [← stack_of_rest hrest]
    rw [hm] at ih
    exact hcourse.keeps hstep (hcall first id indent ih)

end Request

end SourceScribe
