import SourceScribe.Proofs.Likeness

/-!
# A traversal inside another

A traversal does the same on a graph that is the same under other names, step by
step, and it does the same inside a traversal that is under way: where other
nodes are being written and have been entered, as long as it comes across none of
them. There it may fail where alone it goes on, because its root needs a parent
link and the path is longer; if it does not, it carries on as it would alone. What
is said of one step here is said of a whole traversal by induction on its steps.
-/

namespace SourceScribe

variable {f : NodeId → NodeId} {ast ast' : Ast} {options : Options} {root id : NodeId}
  {outer : List Activation} {visited : Array NodeId}

/-- The same task under other names. -/
def Task.rename (f : NodeId → NodeId) : Task → Task
  | .piece p => .piece (p.rename f)
  | .children arrangement written previous ids => .children arrangement written previous (ids.map f)
  | .close => .close

/-- The same node that is being written, under other names. -/
def Activation.rename (f : NodeId → NodeId) (a : Activation) : Activation :=
  ⟨f a.id, a.tag, a.buffer.rename f, a.tasks.map (Task.rename f)⟩

/-- What happens next under other names. A call that is the first is so only if no
other nodes are being written around it. -/
def Control.carry (f : NodeId → NodeId) (outermost : Bool) : Control → Control
  | .call first id indent => .call (first && outermost) (f id) indent
  | .work => .work
  | .back result => .back (result.map (Buffer.rename f))
  | .fail e => .fail (e.rename f)

/-- The same progress under other names, inside that of another traversal. -/
def Progress.carry (f : NodeId → NodeId) (outer : List Activation) (visited : Array NodeId)
    (p : Progress) : Progress :=
  ⟨visited ++ p.visited.map f, p.path.map f ++ outer.map Activation.id⟩

/-- The same moment under other names, inside another traversal: some nodes are
being written around those of the moment, and some have been entered before them. -/
def Moment.carry (f : NodeId → NodeId) (outer : List Activation) (visited : Array NodeId)
    (m : Moment) : Moment :=
  ⟨m.control.carry f outer.isEmpty, m.stack.map (Activation.rename f) ++ outer,
    visited ++ m.visited.map f⟩

/-- What happens to a moment happens to its progress. -/
theorem Moment.progress_carry (f : NodeId → NodeId) (outer : List Activation)
    (visited : Array NodeId) (m : Moment) :
    (m.carry f outer visited).progress = m.progress.carry f outer visited := by
  simp [Moment.progress, Moment.path, Moment.carry, Progress.carry, Activation.rename]

/-- A traversal inside another never comes across a node that is being written around
it or has been entered before. -/
structure Ast.Apart (f : NodeId → NodeId) (ast : Ast) (root : NodeId) (outer : List Activation)
    (visited : Array NodeId) : Prop where
  /-- No node is being written around it. -/
  outer : ∀ id, ast.Reaches root id → f id ∉ outer.map Activation.id
  /-- No node has been entered before. -/
  visited : ∀ id, ast.Reaches root id → f id ∉ visited

/-- All that a moment of a traversal is about is reached from its root. -/
structure Moment.Inside (q : Request) (root : NodeId) (m : Moment) : Prop where
  /-- The nodes that are being written are reached. -/
  path : ∀ id ∈ m.path, q.ast.Reaches root id
  /-- The nodes that have been entered are reached. -/
  visited : ∀ id ∈ m.visited, q.ast.Reaches root id
  /-- A node that is called for is reached. -/
  called : ∀ first id indent, m.control = .call first id indent → q.ast.Reaches root id
  /-- Any call but the first is made while the root is being written. -/
  first : ∀ id indent, m.control = .call false id indent → root ∈ m.path
  /-- A node that is asked for is reached. -/
  asked : ∀ a ∈ m.stack, ∀ child, a.Asks child → q.ast.Reaches root child
  /-- What is left to do comes from the scripts of the nodes. -/
  scripted : ∀ a ∈ m.stack, a.Scripted q

namespace Request

variable {q : Request} {m next : Moment} {indent : Nat}

/-- The nodes that a traversal has entered are reached from its root. -/
theorem Leads.reaches_visited (hq : q.registry.Stock)
    (h : q.Leads ⟨.call true root indent, [], #[]⟩ m) :
    ∀ id ∈ m.visited, q.ast.Reaches root id := by
  induction h with
  | refl => simp
  | @tail m next hl hstep ih =>
    obtain ⟨horderly, hbased⟩ := Leads.orderly_and_based hq hl
    have hpath := horderly.trail.reaches hbased.outermost
    have hmoves := step_moves hstep
    generalize q.events m = log at hmoves
    cases hmoves with
    | @opens first id indent stack visited node visitor _ _ =>
      have hid : q.ast.Reaches root id := by
        have hfirst := hbased.first first id indent rfl
        cases stack with
        | nil =>
          rw [if_pos rfl] at hfirst
          rw [hfirst.2]
          exact .refl
        | cons a outer =>
          have hlinks := horderly.called first id indent rfl a.id rfl
          exact (hpath a.id List.mem_cons_self).tail hlinks
      intro other hother
      simp only [Progress.enter] at hother
      split at hother
      next => exact ih other hother
      next =>
        rcases Array.mem_push.mp hother with hother | rfl
        · exact ih other hother
        · exact hid
    | _ => exact ih

/-- A moment of a traversal is about what is reached from its root. -/
theorem Leads.inside (hq : q.registry.Stock) (h : q.Leads ⟨.call true root indent, [], #[]⟩ m) :
    m.Inside q root := by
  obtain ⟨horderly, hbased⟩ := h.orderly_and_based hq
  have hpath := horderly.trail.reaches hbased.outermost
  have hcall : ∀ first id indent, m.control = .call first id indent →
      q.ast.Reaches root id ∧ (first = false → root ∈ m.path) := by
    intro first id indent hc
    have hfirst := hbased.first first id indent hc
    have hlinks := horderly.called first id indent hc
    have houtermost := hbased.outermost
    rw [Moment.path] at hpath hlinks houtermost ⊢
    cases hstack : m.stack with
    | nil =>
      rw [if_pos hstack] at hfirst
      rw [hfirst.1, hfirst.2]
      exact ⟨.refl, by simp⟩
    | cons a outer =>
      rw [hstack, List.map_cons] at hpath hlinks houtermost
      refine ⟨(hpath a.id List.mem_cons_self).tail (hlinks a.id rfl), fun _ => ?_⟩
      rw [List.map_cons, ← houtermost _ (List.getLast?_eq_some_getLast (List.cons_ne_nil _ _))]
      exact List.getLast_mem _
  refine ⟨hpath, h.reaches_visited hq, fun first id indent hc => (hcall first id indent hc).1,
    fun id indent hc => (hcall false id indent hc).2 rfl, ?_, hbased.scripted⟩
  intro a ha child hasks
  exact (hpath a.id (List.mem_map_of_mem ha)).tail (hasks.links (horderly.modest a ha))

section Gates

variable {first : Bool} {p : Progress} {node : Node} {visitor : Visitor}

/-- A node that is not there is refused. -/
theorem gate_unknown (hnode : q.ast.node? id = none) :
    q.gate first id p = .error (.unknownNode id (q.pathOf p.path)) := by
  simp only [gate, hnode]

/-- A node that is being written is refused. -/
theorem gate_cycle (hnode : q.ast.node? id = some node) (hmem : id ∈ p.path) :
    q.gate first id p = .error (.cycleDetected id (q.pathOf (id :: p.path))) := by
  simp only [gate, hnode, List.contains_iff_mem.mpr hmem, if_true]

/-- A node for which there is no room on the path is refused. -/
theorem gate_depth (hnode : q.ast.node? id = some node) (hmem : id ∉ p.path)
    (hdepth : q.options.maxDepth ≤ p.path.length) :
    q.gate first id p =
      .error (.depthExceeded id q.options.maxDepth (q.pathOf (id :: p.path))) := by
  simp [gate, hnode, hmem, hdepth]

/-- A node without a parent link is refused unless it is the first. -/
theorem gate_orphan (hnode : q.ast.node? id = some node) (hmem : id ∉ p.path)
    (hdepth : p.path.length < q.options.maxDepth) (hfirst : first = false)
    (hparent : node.parent = none) :
    q.gate first id p = .error (.missingParent id node.tag (q.pathOf (id :: p.path))) := by
  simp [gate, hnode, hmem, hdepth, hfirst, hparent]

/-- A node that may be looked at is left out or entered. -/
theorem gate_admits (ha : q.Admits first id p node visitor) : q.gate first id p =
    .ok (if visitor.guard.admits p.visited id then some (node, visitor) else none) := by
  have hlinked : (!first && node.parent.isNone) = false := by
    rcases ha.linked with rfl | hparent
    · rfl
    · rw [← Option.not_isSome, hparent, Bool.not_true, Bool.and_false]
  simp [gate, ha.found, ha.fresh, ha.shallow, hlinked, ha.supported]

end Gates

end Request

namespace Ast.Alike

open Request

variable (halike : ast.Alike f root ast') (hapart : ast.Apart f root outer visited)
include halike hapart

section Gates

variable {p : Progress} (hpath : ∀ id ∈ p.path, ast.Reaches root id)
  (hvisited : ∀ id ∈ p.visited, ast.Reaches root id) (hr : ast.Reaches root id)
include hr

include hpath in
/-- A node is being written under its other name exactly when it is under its own. -/
theorem mem_path_carry : f id ∈ (p.carry f outer visited).path ↔ id ∈ p.path := by
  rw [Progress.carry, List.mem_append, or_iff_left (hapart.outer id hr), List.mem_map]
  constructor
  · rintro ⟨other, hother, heq⟩
    rwa [halike.injective other id (hpath other hother) hr heq] at hother
  · exact fun h => ⟨id, h, rfl⟩

include hvisited in
/-- A node has been entered under its other name exactly when it has under its own. -/
theorem mem_visited_carry : f id ∈ (p.carry f outer visited).visited ↔ id ∈ p.visited := by
  rw [Progress.carry, Array.mem_append, or_iff_right (hapart.visited id hr), Array.mem_map]
  constructor
  · rintro ⟨other, hother, heq⟩
    rwa [halike.injective other id (hvisited other hother) hr heq] at hother
  · exact fun h => ⟨id, h, rfl⟩

include hvisited in
/-- A node is noted under its other name as it is under its own. -/
theorem visited_enter_carry : ((p.carry f outer visited).enter (f id)).visited =
    visited ++ (p.enter id).visited.map f := by
  have hmem := mem_visited_carry halike hapart hvisited hr
  by_cases hid : id ∈ p.visited
  · have hid' : f id ∈ (p.carry f outer visited).visited := hmem.mpr hid
    simp only [Progress.enter, Array.contains_iff_mem.mpr hid, Array.contains_iff_mem.mpr hid',
      if_true]
    rfl
  · have hid' : f id ∉ (p.carry f outer visited).visited := fun h => hid (hmem.mp h)
    simp only [Progress.enter, Array.contains_iff_mem, hid, hid', if_false]
    rw [Progress.carry, Array.map_push, Array.append_push]

/-- What becomes of a node that is to be written, under its own name and under its other
one. -/
inductive GateAlike (f : NodeId → NodeId) (ast : Ast) (id : NodeId) :
    Except GenerateError (Option (Node × Visitor)) →
      Except GenerateError (Option (Node × Visitor)) → Prop
  | refused (e : GenerateError) : GateAlike f ast id (.error e) (.error (e.rename f))
  | leftOut : GateAlike f ast id (.ok none) (.ok none)
  | entered {node node' : Node} : ast.node? id = some node → node.Alike f node' →
    GateAlike f ast id (.ok (some (node, .standard node.tag)))
      (.ok (some (node', .standard node.tag)))

include hvisited in
/-- What may be looked at under both names is left out or entered under both. -/
theorem admitted_carry {first first' : Bool} {node node' : Node} (hlike : node.Alike f node')
    (ha : (standard ast options).Admits first id p node (.standard node.tag))
    (ha' : (standard ast' options).Admits first' (f id) (p.carry f outer visited) node'
      (.standard node.tag)) :
    GateAlike f ast id ((standard ast options).gate first id p)
      ((standard ast' options).gate first' (f id) (p.carry f outer visited)) := by
  have hmem := mem_visited_carry halike hapart hvisited hr
  rw [gate_admits ha, gate_admits ha']
  by_cases hid : id ∈ p.visited
  · have hid' : f id ∈ (p.carry f outer visited).visited := hmem.mpr hid
    simpa [Visitor.standard, Guard.admits, hid, hid'] using GateAlike.leftOut
  · have hid' : f id ∉ (p.carry f outer visited).visited := fun h => hid (hmem.mp h)
    have hfound : ast.node? id = some node := ha.found
    simpa [Visitor.standard, Guard.admits, hid, hid'] using GateAlike.entered hfound hlike

omit hapart in
/-- A node that is called for inside the root has a parent link under both names. -/
theorem parent_carry {first : Bool} {node node' : Node} (hnode : ast.node? id = some node)
    (hnode' : ast'.node? (f id) = some node') (hfresh : id ∉ p.path)
    (hfirst : first = false → root ∈ p.path) (hf : first = false) :
    node'.parent.isSome = node.parent.isSome := by
  have hne : id ≠ root := fun h => hfresh (h ▸ hfirst hf)
  simpa only [parent?, hnode, hnode', Option.bind_some] using halike.parents id hr hne

include hpath in
/-- What may be looked at under its other name may be under its own. -/
theorem admits_of_carry {first : Bool} {node node' : Node} {visitor : Visitor}
    (hnode : ast.node? id = some node) (hfirst : first = false → root ∈ p.path)
    (ha' : (standard ast' options).Admits (first && outer.isEmpty) (f id)
      (p.carry f outer visited) node' visitor) :
    (standard ast options).Admits first id p node (.standard node.tag) := by
  have hfresh : id ∉ p.path := fun h => ha'.fresh ((mem_path_carry halike hapart hpath hr).mpr h)
  refine ⟨hnode, hfresh, ?_, ?_, rfl⟩
  · have hshallow := ha'.shallow
    simp only [Progress.carry, List.length_append, List.length_map] at hshallow
    exact Nat.lt_of_le_of_lt (Nat.le_add_right _ _) hshallow
  · cases first with
    | true => exact .inl rfl
    | false =>
      have hparent := parent_carry halike hr hnode ha'.found hfresh hfirst rfl
      exact .inr (hparent ▸ ha'.linked.resolve_left Bool.false_ne_true)

include hpath hvisited in
/-- A node that is to be written with nothing around it is refused, left out or entered
under its other name as it is under its own. -/
theorem gate_alone (options : Options) {first : Bool} (houter : outer = [])
    (hfirst : first = false → root ∈ p.path) :
    GateAlike f ast id ((standard ast options).gate first id p)
      ((standard ast' options).gate first (f id) (p.carry f outer visited)) := by
  have hp : (p.carry f outer visited).path = p.path.map f := by
    rw [Progress.carry, houter, List.map_nil, List.append_nil]
  have hlength : (p.carry f outer visited).path.length = p.path.length := by
    rw [hp, List.length_map]
  have hpathOf : (standard ast' options).pathOf (p.carry f outer visited).path =
      NodePath.rename f ((standard ast options).pathOf p.path) := by
    rw [hp]
    exact halike.pathOf options hpath
  have hpathOf' : (standard ast' options).pathOf (f id :: (p.carry f outer visited).path) =
      NodePath.rename f ((standard ast options).pathOf (id :: p.path)) := by
    rw [hp]
    exact halike.pathOf options (List.forall_mem_cons.mpr ⟨hr, hpath⟩)
  have hmem := mem_path_carry halike hapart hpath hr
  cases hnode : ast.node? id with
  | none =>
    rw [gate_unknown hnode, gate_unknown (halike.node_none hr hnode), hpathOf]
    exact .refused (.unknownNode id _)
  | some node =>
    obtain ⟨node', hnode', hlike⟩ := halike.exists_node hr hnode
    by_cases hcycle : id ∈ p.path
    · rw [gate_cycle hnode hcycle, gate_cycle hnode' (hmem.mpr hcycle), hpathOf']
      exact .refused (.cycleDetected id _)
    have hcycle' : f id ∉ (p.carry f outer visited).path := fun h => hcycle (hmem.mp h)
    by_cases hdepth : options.maxDepth ≤ p.path.length
    · rw [gate_depth hnode hcycle hdepth, gate_depth hnode' hcycle' (hlength ▸ hdepth), hpathOf']
      exact .refused (.depthExceeded id _ _)
    have hshallow : p.path.length < options.maxDepth := Nat.lt_of_not_le hdepth
    have hparent := parent_carry halike hr hnode hnode' hcycle hfirst
    by_cases horphan : first = false ∧ node.parent = none
    · obtain ⟨rfl, hnone⟩ := horphan
      have hnone' : node'.parent = none := by
        rw [← Option.isNone_iff_eq_none, ← Option.not_isSome, hparent rfl, hnone]
        rfl
      rw [gate_orphan hnode hcycle hshallow rfl hnone,
        gate_orphan hnode' hcycle' (hlength ▸ hshallow) rfl hnone', hpathOf', hlike.tag]
      exact .refused (.missingParent id _ _)
    have hlinked : first = true ∨ node.parent.isSome = true := by
      cases first with
      | true => exact .inl rfl
      | false => exact .inr (Option.isSome_iff_ne_none.mpr fun h => horphan ⟨rfl, h⟩)
    have hlinked' : first = true ∨ node'.parent.isSome = true := by
      cases first with
      | true => exact .inl rfl
      | false => exact .inr ((hparent rfl).trans (hlinked.resolve_left Bool.false_ne_true))
    exact admitted_carry halike hapart hvisited hr hlike ⟨hnode, hcycle, hshallow, hlinked, rfl⟩
      ⟨hnode', hcycle', hlength ▸ hshallow, hlinked',
        congrArg Registry.standard.find? hlike.tag⟩

include hpath hvisited in
/-- A node that is to be written is refused, left out or entered under its other name as
it is under its own, unless it is refused for what is around it. -/
theorem gate_carry {first : Bool} (hfirst : first = false → root ∈ p.path)
    (hgate : outer = [] ∨ ∀ e, (standard ast' options).gate (first && outer.isEmpty) (f id)
      (p.carry f outer visited) ≠ .error e) :
    GateAlike f ast id ((standard ast options).gate first id p)
      ((standard ast' options).gate (first && outer.isEmpty) (f id) (p.carry f outer visited)) := by
  rcases hgate with houter | hne
  · have halone := gate_alone halike hapart hpath hvisited hr options houter hfirst
    rwa [houter, List.isEmpty_nil, Bool.and_true, ← houter]
  · rcases (standard ast' options).gate_cases (first && outer.isEmpty) (f id)
      (p.carry f outer visited) with ⟨e, -, he⟩ | ⟨node', visitor, ha', -⟩
    · exact absurd he (hne e)
    · cases hnode : ast.node? id with
      | none => exact absurd (gate_unknown (halike.node_none hr hnode)) (hne _)
      | some node =>
        obtain ⟨found, hfound, hlike⟩ := halike.exists_node hr hnode
        have hsame : node' = found := Option.some.inj (ha'.found.symm.trans hfound)
        subst hsame
        have hvisitor : Visitor.standard node.tag = visitor := by
          have h := ha'.supported
          rw [hlike.tag] at h
          exact Option.some.inj h
        exact admitted_carry halike hapart hvisited hr hlike
          (admits_of_carry halike hapart hpath hr hnode hfirst ha') (hvisitor ▸ ha')

end Gates

end Ast.Alike

/-- The step after a moment is taken inside the other traversal as well, or the other
traversal fails there. -/
def Moment.CarriesOn (f : NodeId → NodeId) (outer : List Activation) (visited : Array NodeId)
    (q' : Request) (m next : Moment) : Prop :=
  q'.step (m.carry f outer visited) = some (next.carry f outer visited) ∨
    outer ≠ [] ∧ ∃ failed e, q'.step (m.carry f outer visited) = some failed ∧
      failed.control = .fail e

namespace Request

open Moment

variable {m next : Moment} {a : Activation} {stack : List Activation} {entered : Array NodeId}

/-- A call is carried on. -/
theorem begin_carries (halike : ast.Alike f root ast') (hapart : ast.Apart f root outer visited)
    {first : Bool} {indent : Nat}
    (hm : Moment.Inside (standard ast options) root ⟨.call first id indent, stack, entered⟩) :
    CarriesOn f outer visited (standard ast' options) ⟨.call first id indent, stack, entered⟩
      ((standard ast options).begin first id indent ⟨.call first id indent, stack, entered⟩) := by
  have hr : ast.Reaches root id := hm.called first id indent rfl
  have hprogress := progress_carry f outer visited ⟨.call first id indent, stack, entered⟩
  have hfirst : first = false → root ∈ stack.map Activation.id := by
    rintro rfl
    exact hm.first id indent rfl
  by_cases hfail : outer ≠ [] ∧ ∃ e, (standard ast' options).gate (first && outer.isEmpty) (f id)
      (Progress.carry f outer visited ⟨entered, stack.map Activation.id⟩) = .error e
  · obtain ⟨hne, e, he⟩ := hfail
    refine .inr ⟨hne, _, e, rfl, ?_⟩
    unfold begin
    rw [hprogress]
    simp only [Moment.progress, Moment.path, he]
  · left
    simp only [not_and_or, not_not, not_exists] at hfail
    change some (begin _ _ _ _ _) = _
    unfold begin
    rw [hprogress]
    have halike' := Ast.Alike.gate_carry halike hapart hm.path hm.visited hr hfirst hfail
    simp only [Moment.progress, Moment.path]
    generalize (standard ast options).gate first id ⟨entered, stack.map Activation.id⟩ = found
      at halike'
    generalize (standard ast' options).gate (first && outer.isEmpty) (f id)
      (Progress.carry f outer visited ⟨entered, stack.map Activation.id⟩) = found' at halike'
    cases halike' with
    | refused e => rfl
    | leftOut => rfl
    | @entered node node' hnode hlike =>
      have hvisited := Ast.Alike.visited_enter_carry halike hapart
        (p := ⟨entered, stack.map Activation.id⟩) hm.visited hr
      have hscript := halike.script options hr hnode hlike
      simp only [hvisited, hscript, hlike.tag]
      simp [carry, Control.carry, Activation.rename, Script.rename, Task.rename, standard]

/-- A task is carried on. -/
theorem perform_carries
    (hm : Moment.Inside (standard ast options) root ⟨.work, a :: stack, entered⟩) :
    CarriesOn f outer visited (standard ast' options) ⟨.work, a :: stack, entered⟩
      ((standard ast options).perform a stack entered) := by
  left
  have hscripted : a.Scripted (standard ast options) := hm.scripted a List.mem_cons_self
  obtain ⟨id, tag, buffer, tasks⟩ := a
  cases tasks with
  | nil => simp [step, perform, carry, Control.carry, Activation.rename]
  | cons task tasks =>
    cases task with
    | piece p =>
      cases p with
      | standing describe =>
        -- no script of the grammar tells about the traversal
        obtain ⟨node, visitor, -, hvisitor, -, hpieces⟩ := hscripted
        cases hvisitor
        exact absurd (Grammar.plain_rule _ _ _ (hpieces _ List.mem_cons_self)) (by simp)
      | reject fault =>
        simp [step, perform, carry, Control.carry, Activation.rename, Task.rename,
          GenerateError.rename, NodePath.rename]
      | _ => simp [step, perform, carry, Control.carry, Activation.rename, Task.rename]
    | children arrangement written previous ids =>
      cases ids with
      | nil => simp [step, perform, carry, Control.carry, Activation.rename, Task.rename]
      | cons child ids => simp [step, perform, carry, Control.carry, Activation.rename, Task.rename]
    | close => simp [step, perform, carry, Control.carry, Activation.rename, Task.rename]

/-- A child that was left out is missed under other names. -/
theorem alreadyGenerated_carry (options : Options) (visited entered : Array NodeId)
    (halike : ast.Alike f root ast') {child : NodeId}
    {path : List NodeId} (hid : ast.Reaches root id) (hchild : ast.Reaches root child)
    (hpath : ∀ id ∈ path, ast.Reaches root id) (slot : String) :
    (standard ast' options).alreadyGenerated ⟨visited ++ entered.map f, f id :: path.map f⟩ slot
        (f child) =
      ((standard ast options).alreadyGenerated ⟨entered, id :: path⟩ slot child).rename f := by
  have hpathOf : (standard ast' options).pathOf (f id :: path.map f) =
      NodePath.rename f ((standard ast options).pathOf (id :: path)) :=
    halike.pathOf options (List.forall_mem_cons.mpr ⟨hid, hpath⟩)
  have howner : ast'.tag? (f id) = ast.tag? id := halike.tag hid
  have htag : ast'.tag? (f child) = ast.tag? child := halike.tag hchild
  simp only [alreadyGenerated, List.head?_cons, Option.getD_some, hpathOf]
  simp only [standard, howner, htag]
  cases ast.tag? id with
  | none => rfl
  | some ownerTag => cases ast.tag? child <;> rfl

/-- A result is taken as it was. -/
theorem resume_carries (halike : ast.Alike f root ast') {result : Option Buffer}
    (hm : Moment.Inside (standard ast options) root ⟨.back result, a :: stack, entered⟩) :
    CarriesOn f outer visited (standard ast' options) ⟨.back result, a :: stack, entered⟩
      ((standard ast options).resume result a stack entered) := by
  have hasked := hm.asked a List.mem_cons_self
  have hpath := List.forall_mem_cons.mp hm.path
  obtain ⟨id, tag, buffer, tasks⟩ := a
  cases tasks with
  | nil => cases result <;> exact .inl rfl
  | cons task tasks =>
    cases task with
    | piece p =>
      cases p with
      | required slot child =>
        cases result with
        | some written =>
          left
          simp [step, resume, carry, Control.carry, Activation.rename, Task.rename]
        | none =>
          by_cases houter : outer = []
          · subst houter
            have herror := alreadyGenerated_carry options visited entered halike hpath.1
              (hasked child (.required slot tasks rfl)) hpath.2 slot
            left
            simpa [step, resume, carry, Control.carry, Activation.rename, Task.rename,
              Function.comp_def] using herror
          · exact .inr ⟨houter, _, _, rfl, rfl⟩
      | _ => cases result <;> exact .inl rfl
    | children arrangement written previous ids =>
      cases ids with
      | nil => cases result <;> exact .inl rfl
      | cons child ids =>
        have htag : ast'.tag? (f child) = ast.tag? child :=
          halike.tag (hasked child (.children _ _ _ _ _ rfl))
        left
        cases result <;>
          simp [step, resume, carry, Control.carry, Activation.rename, Task.rename, htag, standard]
    | close => cases result <;> exact .inl rfl

/-- A node is left as it was. -/
theorem unwind_carries (halike : ast.Alike f root ast') {e : GenerateError}
    (hm : Moment.Inside (standard ast options) root ⟨.fail e, a :: stack, entered⟩) :
    CarriesOn f outer visited (standard ast' options) ⟨.fail e, a :: stack, entered⟩
      ⟨.fail (e.within ((standard ast options).pathOf (a.id :: stack.map Activation.id))), stack,
        entered⟩ := by
  by_cases houter : outer = []
  · subst houter
    have hpathOf := halike.pathOf options hm.path
    left
    simp only [Moment.path, List.map_cons] at hpathOf
    simp [step, carry, Control.carry, Activation.rename, Moment.path, GenerateError.rename_within,
      ← hpathOf, Function.comp_def]
  · exact .inr ⟨houter, _, _, rfl, rfl⟩

/-- A step is carried on. -/
theorem step_carries (halike : ast.Alike f root ast') (hapart : ast.Apart f root outer visited)
    (hm : Moment.Inside (standard ast options) root m)
    (h : (standard ast options).step m = some next) :
    CarriesOn f outer visited (standard ast' options) m next := by
  obtain ⟨control, stack, entered⟩ := m
  unfold step at h
  split at h
  next first id indent hcontrol =>
    cases hcontrol
    cases h
    exact begin_carries halike hapart hm
  next a stack hcontrol hstack =>
    cases hcontrol
    cases hstack
    cases h
    exact perform_carries hm
  next result a stack hcontrol hstack =>
    cases hcontrol
    cases hstack
    cases h
    exact resume_carries halike hm
  next e a stack hcontrol hstack =>
    cases hcontrol
    cases hstack
    cases h
    exact unwind_carries halike hm
  next => cases h

/-- A traversal is carried on: the other one comes to the same moment, or it fails
before because of what is around it. -/
theorem Leads.carries (halike : ast.Alike f root ast') (hapart : ast.Apart f root outer visited)
    {indent : Nat} (h : (standard ast options).Leads ⟨.call true root indent, [], #[]⟩ m) :
    (standard ast' options).Leads ⟨.call outer.isEmpty (f root) indent, outer, visited⟩
        (m.carry f outer visited) ∨
      outer ≠ [] ∧ ∃ failed e,
        (standard ast' options).Leads ⟨.call outer.isEmpty (f root) indent, outer, visited⟩ failed ∧
          failed.control = .fail e := by
  have hstart : carry f outer visited ⟨.call true root indent, [], #[]⟩ =
      ⟨.call outer.isEmpty (f root) indent, outer, visited⟩ := by
    simp [carry, Control.carry]
  rw [← hstart]
  induction h with
  | refl => exact .inl .refl
  | tail hl hstep ih =>
    rcases ih with ih | ih
    · have hm : Moment.Inside (standard ast options) root _ :=
        Leads.inside Registry.stock_standard hl
      rcases step_carries halike hapart hm hstep with hnext | ⟨houter, failed, e, hnext, hfailed⟩
      · exact .inl (ih.tail hnext)
      · exact .inr ⟨houter, failed, e, ih.tail hnext, hfailed⟩
    · exact .inr ih

end Request

end SourceScribe
