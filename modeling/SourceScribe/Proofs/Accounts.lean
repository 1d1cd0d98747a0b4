import SourceScribe.Proofs.Demands
import SourceScribe.Proofs.Frames

/-!
# Accounts of what is written

The deeds of a node account for its buffer and for its script. The parts of the
buffer are those of the deeds; the children of the deeds are those that the
script has asked for so far; those that were placed are the ones that were
entered under the node, each with what it has written; and what the script
demanded so far was placed. This is kept for every node that is being written,
where the next node around it is about to place it, and it stays true of every
node that is finished.
-/

namespace SourceScribe

namespace Event

/-- The node that is entered under a node. -/
def adopted? (id : NodeId) : Event → Option NodeId
  | .opened (some outer) child => if outer = id then some child else none
  | _ => none

/-- The nodes that are entered under a node, in order. -/
def adopted (id : NodeId) (log : List Event) : List NodeId := log.filterMap (adopted? id)

variable {log more : List Event} {id child : NodeId}

@[simp]
theorem adopted_append (id : NodeId) (log more : List Event) :
    adopted id (log ++ more) = adopted id log ++ adopted id more := List.filterMap_append

/-- A node is entered under a node exactly when a log says so. -/
theorem mem_adopted : child ∈ adopted id log ↔ .opened (some id) child ∈ log := by
  simp only [adopted, List.mem_filterMap]
  constructor
  · rintro ⟨e, hm, he⟩
    cases e with
    | finished x written => cases he
    | opened outer x =>
      cases outer with
      | none => cases he
      | some outer =>
        simp only [adopted?, Option.ite_none_right_eq_some, Option.some.injEq] at he
        obtain ⟨rfl, rfl⟩ := he
        exact hm
  · intro hm
    exact ⟨_, hm, by simp [adopted?]⟩

/-- What is entered under a node is entered. -/
theorem adopted_sublist (id : NodeId) (log : List Event) :
    (adopted id log).Sublist (entered log) := by
  induction log with
  | nil => exact List.Sublist.refl []
  | cons e log ih =>
    cases e with
    | finished x written => exact ih
    | opened outer x =>
      rw [entered_opened, adopted, List.filterMap_cons]
      split
      next => exact ih.cons x
      next child h =>
        have hchild : child = x := by
          cases outer with
          | none => cases h
          | some outer =>
            simp only [adopted?, Option.ite_none_right_eq_some, Option.some.injEq] at h
            exact h.2.symm
        rw [hchild]
        exact ih.cons_cons x

/-- Nothing is entered under a node that is not the innermost. -/
theorem adopted_opened_of_ne {outer : Option NodeId} (h : outer ≠ some id) :
    adopted id [.opened outer child] = [] := by
  cases outer with
  | none => rfl
  | some outer =>
    have hne : outer ≠ id := fun heq => h (congrArg some heq)
    simp [adopted, adopted?, hne]

/-- What is entered under the innermost node. -/
theorem adopted_opened_self (id child : NodeId) :
    adopted id [.opened (some id) child] = [child] := by
  simp [adopted, adopted?]

end Event

open Event

/-- Some deeds account for what a node has written and for what its script has
asked for; the rest of the script is left, and one child may be under way. -/
structure Account (q : Request) (log : List Event) (id : NodeId) (parts : List Part)
    (current : Option NodeId) (deeds : List Deed) (calls demands : List NodeId) : Prop where
  /-- The script asks for the children of the deeds, and what it demanded was
  placed. -/
  script : ∃ node visitor, q.ast.node? id = some node ∧
    q.registry.find? node.tag = some visitor ∧
    Script.calls (q.scriptOf visitor id node) = Deed.children deeds ++ calls ∧
    ∃ met, Script.demands (q.scriptOf visitor id node) = met ++ demands ∧
      met.Sublist (Deed.placedChildren deeds)
  /-- The parts are those of the deeds. -/
  parts : parts = deeds.flatMap Deed.parts
  /-- The node writes in its own name. -/
  own : ∀ part, .wrote part ∈ deeds → part.origin = some id
  /-- What is placed was written for the child. -/
  placed : ∀ child written, .placed child written ∈ deeds → .finished child written ∈ log
  /-- The children that were entered under the node are those that are placed,
  and the one under way. -/
  children : adopted id log = Deed.placedChildren deeds ++ current.toList
  /-- The children of the deeds have been entered. -/
  known : ∀ child ∈ Deed.children deeds, child ∈ entered log
  /-- The children are placed where they are asked for first. -/
  ordered : (Deed.placedChildren deeds).Sublist (Deed.children deeds).eraseDups
  /-- The child under way was not asked for before. -/
  fresh : ∀ child ∈ current, child ∉ Deed.children deeds

/-- A child that was not asked for before is asked for first where it stands
last. -/
theorem eraseDups_concat {child : NodeId} {ids : List NodeId} (h : child ∉ ids) :
    (ids ++ [child]).eraseDups = ids.eraseDups ++ [child] := by
  rw [List.eraseDups_append]
  simp [List.removeAll, h, List.eraseDups_cons]

namespace Account

variable {q : Request} {log more : List Event} {id child : NodeId} {parts : List Part}
  {current : Option NodeId} {deeds : List Deed} {calls demands : List NodeId}

/-- An account stands when nothing more is entered under the node. -/
theorem append (h : Account q log id parts current deeds calls demands)
    (hmore : adopted id more = []) :
    Account q (log ++ more) id parts current deeds calls demands where
  script := h.script
  parts := h.parts
  own := h.own
  placed child written hm := List.mem_append_left _ (h.placed child written hm)
  children := by rw [adopted_append, hmore, List.append_nil, h.children]
  known child hm := by
    rw [entered_append]
    exact List.mem_append_left _ (h.known child hm)
  ordered := h.ordered
  fresh := h.fresh

/-- A node that is entered has done nothing. -/
theorem start {node : Node} {visitor : Visitor} (hfound : q.ast.node? id = some node)
    (hvisitor : q.registry.find? node.tag = some visitor) (hadopted : adopted id log = []) :
    Account q log id [] none [] (Script.calls (q.scriptOf visitor id node))
      (Script.demands (q.scriptOf visitor id node)) where
  script := ⟨node, visitor, hfound, hvisitor, rfl, [], rfl, List.Sublist.refl []⟩
  parts := rfl
  own := by simp
  placed := by simp
  children := hadopted
  known := by simp [Deed.children]
  ordered := List.nil_sublist _
  fresh := by simp

/-- A child is entered under the node. -/
theorem adopt (h : Account q log id parts none deeds calls demands)
    (hnew : child ∉ entered log) :
    Account q (log ++ [.opened (some id) child]) id parts (some child) deeds calls demands where
  script := h.script
  parts := h.parts
  own := h.own
  placed child written hm := List.mem_append_left _ (h.placed child written hm)
  children := by
    rw [adopted_append, adopted_opened_self, h.children]
    simp
  known child hm := by
    rw [entered_append]
    exact List.mem_append_left _ (h.known child hm)
  ordered := h.ordered
  fresh := by
    rintro _ ⟨⟩
    exact fun hm => hnew (h.known child hm)

/-- The node comes on by some deeds, after which no child is under way. -/
theorem does {a a' : Activation} {others : List Deed}
    (h : Account q log a.id a.buffer.parts current deeds a.calls a.demands)
    (horigin : a.buffer.origin = some a.id) (hd : a.Does others a')
    (hcurrent : Deed.placedChildren others = current.toList)
    (hplaced : ∀ child written, .placed child written ∈ others → .finished child written ∈ log)
    (hentered : ∀ child ∈ Deed.children others, child ∈ entered log)
    (hordered : (Deed.placedChildren (deeds ++ others)).Sublist
      (Deed.children (deeds ++ others)).eraseDups) :
    Account q log a'.id a'.buffer.parts none (deeds ++ others) a'.calls a'.demands where
  script := by
    obtain ⟨node, visitor, hfound, hvisitor, hcalls, met, hdemands, hmet⟩ := h.script
    obtain ⟨more, hmore, hsub⟩ := hd.demands
    rw [hd.id]
    refine ⟨node, visitor, hfound, hvisitor, ?_, met ++ more, ?_, ?_⟩
    · rw [hcalls, hd.calls, Deed.children_append, List.append_assoc]
    · rw [hdemands, hmore, List.append_assoc]
    · rw [Deed.placedChildren_append]
      exact hmet.append hsub
  parts := by rw [hd.buffer.parts, h.parts, List.flatMap_append]
  own part hm := by
    rw [hd.id]
    rcases List.mem_append.mp hm with hm | hm
    · exact h.own part hm
    · exact (hd.buffer.own part hm).trans horigin
  placed child written hm := by
    rcases List.mem_append.mp hm with hm | hm
    · exact h.placed child written hm
    · exact hplaced child written hm
  children := by
    rw [hd.id, h.children, Deed.placedChildren_append, hcurrent]
    simp
  known child hm := by
    rw [Deed.children_append] at hm
    rcases List.mem_append.mp hm with hm | hm
    · exact h.known child hm
    · exact hentered child hm
  ordered := hordered
  fresh := by simp

/-- The children that are placed stay in order when others are asked for that
are not placed. -/
theorem ordered_of_unplaced (h : Account q log id parts current deeds calls demands)
    {others : List Deed} (ho : Deed.placedChildren others = []) :
    (Deed.placedChildren (deeds ++ others)).Sublist
      (Deed.children (deeds ++ others)).eraseDups := by
  rw [Deed.placedChildren_append, ho, List.append_nil, Deed.children_append,
    List.eraseDups_append]
  exact h.ordered.trans (List.sublist_append_left _ _)

end Account

/-- The deeds of every node that is being written account for it, and every node
but the innermost is about to place the one that is written inside of it. -/
def Stacked (q : Request) (log : List Event) : Option NodeId → List Activation → Prop
  | _, [] => True
  | current, a :: outer =>
    (∃ deeds, Account q log a.id a.buffer.parts current deeds a.calls a.demands) ∧
      a.buffer.origin = some a.id ∧ (∀ child ∈ current, a.Asks child) ∧
      Stacked q log (some a.id) outer

namespace Stacked

variable {q : Request} {log more : List Event} {current : Option NodeId} {a a' : Activation}
  {outer stack : List Activation} {id : NodeId}

/-- All accounts stand when nothing more is entered under these nodes. -/
theorem append (h : Stacked q log current stack)
    (hmore : ∀ b ∈ stack, adopted b.id more = []) : Stacked q (log ++ more) current stack := by
  induction stack generalizing current with
  | nil => trivial
  | cons b stack ih =>
    obtain ⟨⟨deeds, haccount⟩, horigin, hasks, houter⟩ := h
    exact ⟨⟨deeds, haccount.append (hmore b List.mem_cons_self)⟩, horigin, hasks,
      ih houter fun c hc => hmore c (List.mem_cons_of_mem b hc)⟩

/-- A child is entered under the innermost node, which has asked for it. -/
theorem adopt (h : Stacked q log none stack) (hasks : ∀ a ∈ stack.head?, a.Asks id)
    (hnew : id ∉ entered log)
    (hne : ∀ a outer, stack = a :: outer → ∀ b ∈ outer, b.id ≠ a.id) :
    Stacked q (log ++ [.opened (stack.map Activation.id).head? id]) (some id) stack := by
  cases stack with
  | nil => trivial
  | cons b outer =>
    obtain ⟨⟨deeds, haccount⟩, horigin, -, houter⟩ := h
    refine ⟨⟨deeds, haccount.adopt hnew⟩, horigin, ?_, houter.append fun c hc => ?_⟩
    · rintro _ ⟨⟩
      exact hasks b rfl
    · refine adopted_opened_of_ne fun heq => ?_
      exact hne b outer rfl c hc (Option.some.inj heq).symm

/-- The innermost node comes on by some deeds, after which no child is under
way. -/
theorem does (h : Stacked q log current (a :: outer)) {others : List Deed} (hd : a.Does others a')
    (hcurrent : Deed.placedChildren others = current.toList)
    (hplaced : ∀ child written, .placed child written ∈ others → .finished child written ∈ log)
    (hentered : ∀ child ∈ Deed.children others, child ∈ entered log)
    (hordered : ∀ deeds,
      Account q log a.id a.buffer.parts current deeds a.calls a.demands →
        (Deed.placedChildren (deeds ++ others)).Sublist
          (Deed.children (deeds ++ others)).eraseDups) :
    Stacked q log none (a' :: outer) := by
  obtain ⟨⟨deeds, haccount⟩, horigin, -, houter⟩ := h
  refine ⟨⟨deeds ++ others, haccount.does horigin hd hcurrent hplaced hentered
    (hordered deeds haccount)⟩, ?_, by simp, ?_⟩
  · rw [hd.buffer.origin, horigin, hd.id]
  · rwa [hd.id]

end Stacked

namespace Moment

/-- What happens next fits what the nodes that are being written account for,
unless the traversal fails. -/
def Stands (q : Request) (log : List Event) (m : Moment) : Prop :=
  match m.control with
  | .call _ id _ => Stacked q log none m.stack ∧ ∀ a ∈ m.stack.head?, a.Asks id
  | .work => Stacked q log none m.stack
  | .back none =>
    Stacked q log none m.stack ∧ ∀ a ∈ m.stack.head?, ∃ id ∈ entered log, a.Asks id
  | .back (some written) => ∃ id, .finished id written ∈ log ∧ Stacked q log (some id) m.stack
  | .fail _ => True

/-- A log has led to a moment, and all that has been written is accounted for. -/
structure Accounted (q : Request) (log : List Event) (m : Moment) : Prop where
  /-- No node was entered twice. -/
  logged : Logged log m
  /-- What is being written is accounted for. -/
  stands : Stands q log m
  /-- What is finished is accounted for. -/
  done : ∀ id written, .finished id written ∈ log →
    ∃ deeds, Account q log id written.parts none deeds [] []

namespace Accounted

variable {q : Request} {log more : List Event} {m next : Moment}

/-- A traversal begins. -/
theorem start (q : Request) (root : NodeId) : Accounted q [] (.start root #[]) where
  logged := Logged.fresh.go_on (.nil _ _) (by simp)
  stands := ⟨trivial, by simp [Moment.start]⟩
  done := by simp

/-- The traversal goes on, and nothing is logged. -/
theorem go_on {control control' : Control} {stack stack' : List Activation}
    {visited : Array NodeId} (h : Accounted q log ⟨control, stack, visited⟩)
    (hlogged : Logged log ⟨control', stack', visited⟩)
    (hstands : Stands q log ⟨control', stack', visited⟩) :
    Accounted q log ⟨control', stack', visited⟩ := ⟨hlogged, hstands, h.done⟩

/-- A node is entered. -/
theorem opens {first : Bool} {id : NodeId} {indent : Nat} {stack : List Activation}
    {visited visited' : Array NodeId} {node : Node} {visitor : Visitor} {a : Activation}
    (h : Accounted q log ⟨.call first id indent, stack, visited⟩)
    (hlogged : Logged (log ++ [.opened (stack.map Activation.id).head? id])
      ⟨.work, a :: stack, visited'⟩)
    (ha : q.Admits first id ⟨visited, stack.map Activation.id⟩ node visitor) (hid : a.id = id)
    (hparts : a.buffer.parts = []) (horigin : a.buffer.origin = some id)
    (htasks : a.tasks = (q.scriptOf visitor id node).map .piece) :
    Accounted q (log ++ [.opened (stack.map Activation.id).head? id])
      ⟨.work, a :: stack, visited'⟩ := by
  have hnew : id ∉ entered log := not_entered_before hlogged.once
  have hstack : ∀ b ∈ stack, b.id ∈ entered log := fun b hb => h.logged.nested.mem_entered hb
  have hadopted : adopted id (log ++ [.opened (stack.map Activation.id).head? id]) = [] := by
    rw [List.eq_nil_iff_forall_not_mem]
    intro child hm
    obtain ⟨before, after, hlog⟩ := List.append_of_mem (mem_adopted.mp hm)
    obtain ⟨hbefore, -⟩ := hlogged.adopters before id child after hlog
    rcases split_concat hlog with ⟨rest, hold⟩ | ⟨rfl, -⟩
    · rw [hold, entered_append] at hnew
      exact hnew (List.mem_append_left _ hbefore)
    · exact hnew hbefore
  have hcalls : a.calls = Script.calls (q.scriptOf visitor id node) := by
    rw [Activation.calls, htasks, List.flatMap_map]
    rfl
  have hdemands : a.demands = Script.demands (q.scriptOf visitor id node) := by
    rw [Activation.demands, htasks, List.flatMap_map]
    rfl
  obtain ⟨hstacked, hasks⟩ := h.stands
  refine ⟨hlogged, ⟨⟨[], ?_⟩, ?_, by simp, ?_⟩, ?_⟩
  · rw [hid, hparts, hcalls, hdemands]
    exact .start ha.found ha.supported hadopted
  · rw [horigin, hid]
  · rw [hid]
    refine hstacked.adopt hasks hnew ?_
    rintro b outer rfl c hc
    exact h.logged.nested.ne_of_outer h.logged.once hc
  · intro x written hm
    have hold : .finished x written ∈ log := by simpa using hm
    obtain ⟨deeds, haccount⟩ := h.done x written hold
    refine ⟨deeds, haccount.append (adopted_opened_of_ne fun heq => ?_)⟩
    cases stack with
    | nil => cases heq
    | cons b stack =>
      rw [← Option.some.inj heq] at hold
      exact h.logged.pending b List.mem_cons_self (mem_ended.mpr ⟨written, hold⟩)

/-- The innermost node is finished. -/
theorem finishes {a : Activation} {outer : List Activation} {visited : Array NodeId}
    (h : Accounted q log ⟨.work, a :: outer, visited⟩) (htasks : a.tasks = []) :
    Accounted q (log ++ [.finished a.id a.buffer]) ⟨.back (some a.buffer), outer, visited⟩ := by
  obtain ⟨⟨deeds, haccount⟩, -, -, houter⟩ := h.stands
  have hcalls : a.calls = [] := by
    rw [Activation.calls, htasks]
    rfl
  have hdemands : a.demands = [] := by
    rw [Activation.demands, htasks]
    rfl
  rw [hcalls, hdemands] at haccount
  refine ⟨h.logged.finishes, ⟨a.id, by simp, houter.append fun b _ => rfl⟩, ?_⟩
  intro x written hm
  rcases List.mem_append.mp hm with hm | hm
  · obtain ⟨deeds, haccount⟩ := h.done x written hm
    exact ⟨deeds, haccount.append rfl⟩
  · cases List.mem_singleton.mp hm
    exact ⟨deeds, haccount.append rfl⟩

/-- The innermost node takes what was written for a child. -/
theorem takes {a a' : Activation} {outer : List Activation} {visited : Array NodeId}
    {child : NodeId} {written : Buffer} {front back : List Part}
    (h : Accounted q log ⟨.back (some written), a :: outer, visited⟩)
    (hlogged : Logged log ⟨.work, a' :: outer, visited⟩) (hasks : a.Asks child)
    (hd : a.Does (front.map .wrote ++ .placed child written :: back.map .wrote) a') :
    Accounted q log ⟨.work, a' :: outer, visited⟩ := by
  obtain ⟨id, hfinished, hstacked⟩ := h.stands
  have hid : id = child := (hstacked.2.2.1 id rfl).unique hasks
  subst hid
  have hentered : id ∈ entered log := by
    obtain ⟨inside, ⟨before, x, after, rfl⟩, -⟩ := h.logged.framed id written hfinished
    simp
  refine h.go_on hlogged (hstacked.does hd ?_ ?_ ?_ ?_)
  · rw [Deed.placedChildren_around]
    rfl
  · intro c w hm
    obtain ⟨rfl, rfl⟩ := Deed.eq_of_placed_around hm
    exact hfinished
  · rw [Deed.children_around]
    simpa using hentered
  · intro deeds haccount
    rw [Deed.placedChildren_append, Deed.placedChildren_around, Deed.children_append,
      Deed.children_around, eraseDups_concat (haccount.fresh id rfl)]
    exact haccount.ordered.append (List.Sublist.refl [id])

/-- The innermost node passes over a child. -/
theorem passes {a a' : Activation} {outer : List Activation} {visited : Array NodeId}
    {child : NodeId} (h : Accounted q log ⟨.back none, a :: outer, visited⟩)
    (hlogged : Logged log ⟨.work, a' :: outer, visited⟩) (hasks : a.Asks child)
    (hd : a.Does [.passed child] a') : Accounted q log ⟨.work, a' :: outer, visited⟩ := by
  obtain ⟨hstacked, hentered⟩ := h.stands
  obtain ⟨id, hid, hasks'⟩ := hentered a rfl
  rw [hasks'.unique hasks] at hid
  refine h.go_on hlogged (hstacked.does hd rfl (by simp) ?_ ?_)
  · simpa [Deed.children, Deed.child?] using hid
  · exact fun deeds haccount => haccount.ordered_of_unplaced rfl

/-- Every step keeps it. -/
theorem moves (hq : q.registry.EntersOnce) (h : Accounted q log m) (hm : q.Moves m more next) :
    Accounted q (log ++ more) next := by
  have hlogged : Logged (log ++ more) next := h.logged.moves hq hm
  cases hm with
  | refuses _ =>
    rw [List.append_nil] at hlogged ⊢
    exact h.go_on hlogged trivial
  | @skips first id indent stack visited node visitor ha hg =>
    rw [List.append_nil] at hlogged ⊢
    rw [hq _ _ ha.supported] at hg
    have hold : id ∈ entered log := by
      by_contra hn
      rw [← h.logged.visited, Array.mem_toList_iff] at hn
      rw [Guard.admits_once.mpr hn] at hg
      cases hg
    obtain ⟨hstacked, hasks⟩ := h.stands
    exact h.go_on hlogged ⟨hstacked, fun a ha => ⟨id, hold, hasks a ha⟩⟩
  | opens ha hg => exact h.opens hlogged ha rfl (Buffer.parts_ofNode _ _ _) rfl rfl
  | writes hd =>
    rw [List.append_nil] at hlogged ⊢
    have hstacked : Stacked q log none _ := h.stands
    refine h.go_on hlogged (hstacked.does hd ?_ (by simp) (by simp) ?_)
    · rw [Deed.placedChildren_wrote]
      rfl
    · exact fun deeds haccount => haccount.ordered_of_unplaced (Deed.placedChildren_wrote _)
  | asks hasks =>
    rw [List.append_nil] at hlogged ⊢
    refine h.go_on hlogged ⟨h.stands, ?_⟩
    rintro b ⟨⟩
    exact hasks
  | finishes htasks => exact h.finishes htasks
  | takes hasks hd =>
    rw [List.append_nil] at hlogged ⊢
    exact h.takes hlogged hasks hd
  | passes hasks hd =>
    rw [List.append_nil] at hlogged ⊢
    exact h.passes hlogged hasks hd
  | @stays result a outer visited hnone =>
    -- A call comes back only to a node that has asked for a child.
    cases result with
    | none =>
      obtain ⟨-, hentered⟩ := h.stands
      obtain ⟨id, -, hasks⟩ := hentered a rfl
      exact absurd hasks (hnone id)
    | some written =>
      obtain ⟨id, -, hstacked⟩ := h.stands
      exact absurd (hstacked.2.2.1 id rfl) (hnone id)
  | rejects _ =>
    rw [List.append_nil] at hlogged ⊢
    exact h.go_on hlogged trivial
  | misses _ _ =>
    rw [List.append_nil] at hlogged ⊢
    exact h.go_on hlogged trivial
  | unwinds =>
    rw [List.append_nil] at hlogged ⊢
    exact h.go_on hlogged trivial

end Accounted

end Moment

end SourceScribe
