import SourceScribe.Proofs.Machine
import SourceScribe.Proofs.Settled

/-!
# The moments of a traversal

The path of a traversal is at every moment a simple path along child links that
is no longer than the options allow, because a node is entered only if it is
there, is not being written and finds room, and a script asks for nothing but
the children of its node. A simple path has no more nodes than the tree, so the
bound on nested calls of the recursive traversal is never met, and the machine
stops where that traversal does. None of this needs a node to be entered only
once.
-/

namespace SourceScribe

open Relation (ReflTransGen)

/-- The visitors that are at hand: the one that the grammar has for some kind,
and those that write the children and nothing else. -/
def Visitor.Stock (visitor : Visitor) : Prop :=
  (∃ tag, visitor = .standard tag) ∨ ∃ guard, visitor = .plain guard

/-- Every kind has a visitor that is at hand, or none; it may be the one that the
grammar has for another kind. -/
def Registry.Stock (r : Registry) : Prop :=
  ∀ tag visitor, r.find? tag = some visitor → visitor.Stock

/-- A visitor that is at hand asks for the children of its node. -/
theorem Visitor.Stock.covers {visitor : Visitor} (h : visitor.Stock) : visitor.rule.Covers := by
  rcases h with ⟨tag, rfl⟩ | ⟨guard, rfl⟩
  · exact Grammar.covers_rule tag
  · exact Visitor.covers_plain guard

/-- A stock of visitors stays one with another visitor that is at hand. -/
theorem Registry.Stock.install {r : Registry} (h : r.Stock) (tag : Tag) {visitor : Visitor}
    (hv : visitor.Stock) : (r.install tag visitor).Stock := by
  intro t v hfind
  simp only [Registry.install] at hfind
  split at hfind
  next => rwa [Option.some.inj hfind] at hv
  next => exact h t v hfind

/-- The visitors of the grammar are at hand. -/
theorem Registry.stock_standard : Registry.standard.Stock := by
  intro tag visitor h
  exact .inl ⟨tag, (Option.some.inj h).symm⟩

/-- A node that is being written is still to ask for children only. -/
def Activation.Modest (ast : Ast) (a : Activation) : Prop :=
  ∀ task ∈ a.tasks, ∀ child ∈ task.calls, ast.Links a.id child

/-- What every moment of a traversal keeps. -/
structure Moment.Orderly (q : Request) (m : Moment) : Prop where
  /-- The path is a simple path along child links. -/
  trail : q.ast.Trail m.path
  /-- The path is not longer than allowed. -/
  shallow : m.path.length ≤ q.options.maxDepth
  /-- The nodes that are being written are still to ask for children only. -/
  modest : ∀ a ∈ m.stack, a.Modest q.ast
  /-- A node that is to be written is listed under the innermost node. -/
  called : ∀ first id indent, m.control = .call first id indent →
    ∀ outer ∈ m.path.head?, q.ast.Links outer id

namespace Moment

variable {q : Request} {m next : Moment} {a : Activation} {outer : List Activation}

/-- The beginning of a traversal is orderly. -/
theorem Orderly.start (root : NodeId) (visited : Array NodeId) :
    (Moment.start root visited).Orderly q where
  trail := Ast.Trail.nil
  shallow := Nat.zero_le _
  modest := by
    intro a ha
    cases ha
  called := by
    intro first id indent _ outer hm
    cases hm

/-- What an orderly moment says about its innermost node. -/
theorem Orderly.innermost (hm : m.Orderly q) (hs : m.stack = a :: outer) :
    q.ast.Trail (a.id :: outer.map Activation.id) ∧
      (a.id :: outer.map Activation.id).length ≤ q.options.maxDepth ∧ a.Modest q.ast ∧
      ∀ b ∈ outer, b.Modest q.ast := by
  have hpath : m.path = a.id :: outer.map Activation.id := by rw [path, hs, List.map_cons]
  have htrail := hm.trail
  have hshallow := hm.shallow
  have hmodest := hm.modest
  rw [hpath] at htrail hshallow
  rw [hs] at hmodest
  exact ⟨htrail, hshallow, hmodest a List.mem_cons_self,
    fun b hb => hmodest b (List.mem_cons_of_mem a hb)⟩

/-- A moment with the same path is orderly when its innermost node is modest and
it calls for nothing, or for a child of that node. -/
theorem Orderly.go_on (hm : m.Orderly q) (hs : m.stack = a :: outer) {a' : Activation}
    (hid : a'.id = a.id) (ha : a'.Modest q.ast) {control : Control} (visited : Array NodeId)
    (hc : ∀ first id indent, control = .call first id indent → q.ast.Links a.id id) :
    (Moment.mk control (a' :: outer) visited).Orderly q := by
  obtain ⟨htrail, hshallow, _, houter⟩ := hm.innermost hs
  have hpath : (Moment.mk control (a' :: outer) visited).path =
      a.id :: outer.map Activation.id := by
    rw [path, List.map_cons, hid]
  constructor
  · rwa [hpath]
  · rwa [hpath]
  · intro b hb
    rcases List.mem_cons.mp hb with rfl | hb
    · exact ha
    · exact houter b hb
  · intro first id indent hcall outer' hhead
    rw [hpath] at hhead
    cases hhead
    exact hc first id indent hcall

/-- A moment behind the innermost node is orderly. -/
theorem Orderly.pop (hm : m.Orderly q) (hs : m.stack = a :: outer) {control : Control}
    (visited : Array NodeId) (hc : ∀ first id indent, control ≠ .call first id indent) :
    (Moment.mk control outer visited).Orderly q := by
  obtain ⟨htrail, hshallow, _, houter⟩ := hm.innermost hs
  exact ⟨htrail.pop, (Nat.le_succ _).trans hshallow, houter,
    fun first id indent hcall => absurd hcall (hc first id indent)⟩

/-- A node that is let in goes onto the path. -/
theorem Orderly.begin (hq : q.registry.Stock) (hm : m.Orderly q) {first : Bool} {id : NodeId}
    {indent : Nat} (hcontrol : m.control = .call first id indent) :
    (q.begin first id indent m).Orderly q := by
  unfold Request.begin
  rcases q.gate_cases first id m.progress with
    ⟨e, _, he⟩ | ⟨node, visitor, ha, ⟨_, hgate⟩ | ⟨_, hgate⟩⟩
  · rw [he]
    exact ⟨hm.trail, hm.shallow, hm.modest, fun _ _ _ h => by cases h⟩
  · rw [hgate]
    exact ⟨hm.trail, hm.shallow, hm.modest, fun _ _ _ h => by cases h⟩
  · rw [hgate]
    have hfound : q.ast.has id = true := Ast.has_iff.mpr ⟨node, ha.found⟩
    have hlinks : ∀ outer ∈ m.path.head?, q.ast.Links outer id :=
      hm.called first id indent hcontrol
    refine ⟨hm.trail.push hfound ha.fresh hlinks, ha.shallow, ?_, fun _ _ _ h => by cases h⟩
    intro a hmem
    rcases List.mem_cons.mp hmem with rfl | hmem
    · intro task htask child hchild
      obtain ⟨p, hp, rfl⟩ := List.mem_map.mp htask
      have hcalls : child ∈ Script.calls (q.scriptOf visitor id node) :=
        List.mem_flatMap.mpr ⟨p, hp, hchild⟩
      exact Request.links_of_calls (hq _ _ ha.supported).covers ha hcalls
    · exact hm.modest a hmem

/-- A node whose first task gives way to others that ask for no other nodes is
modest. -/
theorem modest_of_tail {task : Task} {tasks : List Task} (ha : a.Modest q.ast)
    (ht : a.tasks = task :: tasks) (buffer : Buffer) (others : List Task)
    (hothers : ∀ t ∈ others, ∀ child ∈ t.calls, child ∈ task.calls) :
    (Activation.mk a.id a.tag buffer (others ++ tasks)).Modest q.ast := by
  intro t hmem child hchild
  rcases List.mem_append.mp hmem with hmem | hmem
  · refine ha task ?_ child (hothers t hmem child hchild)
    rw [ht]
    exact List.mem_cons_self
  · refine ha t ?_ child hchild
    rw [ht]
    exact List.mem_cons_of_mem task hmem

/-- The innermost node goes on with other tasks in place of its first. -/
theorem Orderly.replace (hm : m.Orderly q) (hs : m.stack = a :: outer) {task : Task}
    {tasks : List Task} (ht : a.tasks = task :: tasks) (buffer : Buffer) (visited : Array NodeId)
    (others : List Task) (hothers : ∀ t ∈ others, ∀ child ∈ t.calls, child ∈ task.calls) :
    (Moment.mk .work (⟨a.id, a.tag, buffer, others ++ tasks⟩ :: outer) visited).Orderly q := by
  have ha : a.Modest q.ast := (hm.innermost hs).2.2.1
  refine hm.go_on hs ?_ (modest_of_tail ha ht buffer others hothers) visited ?_
  · rfl
  · rintro _ _ _ ⟨⟩

/-- The innermost node calls for a node that its first task asks for. -/
theorem Orderly.call (hm : m.Orderly q) (hs : m.stack = a :: outer) {task : Task}
    {tasks : List Task} (ht : a.tasks = task :: tasks) {id : NodeId} (hid : id ∈ task.calls)
    (visited : Array NodeId) :
    (Moment.mk (.call false id a.buffer.indent) (a :: outer) visited).Orderly q := by
  have ha : a.Modest q.ast := (hm.innermost hs).2.2.1
  refine hm.go_on hs rfl ha visited ?_
  rintro first id' indent ⟨⟩
  refine ha task ?_ id hid
  rw [ht]
  exact List.mem_cons_self

/-- A node that does a task keeps a moment orderly. -/
theorem Orderly.perform (hm : m.Orderly q) (hs : m.stack = a :: outer) :
    (q.perform a outer m.visited).Orderly q := by
  have ha : a.Modest q.ast := (hm.innermost hs).2.2.1
  unfold Request.perform
  dsimp only
  split
  next => exact hm.pop hs m.visited fun _ _ _ h => by cases h
  next ht => exact hm.replace hs ht _ m.visited [] (by simp)
  next ht => exact hm.replace hs ht _ m.visited [] (by simp)
  next ht => exact hm.call hs ht (by simp [Task.calls, Piece.calls]) m.visited
  next ht =>
    exact hm.replace hs ht _ m.visited [.children _ 0 none _] (by simp [Task.calls, Piece.calls])
  next ht =>
    exact hm.replace hs ht _ m.visited [.children _ 0 none _, .close]
      (by simp [Task.calls, Piece.calls])
  next ht => exact hm.replace hs ht _ m.visited [] (by simp)
  next => exact hm.go_on hs rfl ha m.visited fun _ _ _ h => by cases h
  next ht => exact hm.replace hs ht _ m.visited [] (by simp)
  next ht => exact hm.call hs ht (by simp [Task.calls]) m.visited
  next ht => exact hm.replace hs ht _ m.visited [] (by simp)

/-- A node that takes a result keeps a moment orderly. -/
theorem Orderly.resume (hm : m.Orderly q) (hs : m.stack = a :: outer) (result : Option Buffer) :
    (q.resume result a outer m.visited).Orderly q := by
  have ha : a.Modest q.ast := (hm.innermost hs).2.2.1
  unfold Request.resume
  dsimp only
  split
  next ht => exact hm.replace hs ht _ m.visited [] (by simp)
  next => exact hm.go_on hs rfl ha m.visited fun _ _ _ h => by cases h
  next ht =>
    refine hm.replace hs ht _ m.visited [.children _ _ _ _] ?_
    simp only [List.mem_singleton, forall_eq, Task.calls]
    exact fun child hchild => List.mem_cons_of_mem _ hchild
  next ht =>
    refine hm.replace hs ht _ m.visited [.children _ _ _ _] ?_
    simp only [List.mem_singleton, forall_eq, Task.calls]
    exact fun child hchild => List.mem_cons_of_mem _ hchild
  next => exact hm.go_on hs rfl ha m.visited fun _ _ _ h => by cases h

/-- A step keeps a moment orderly. -/
theorem Orderly.step (hq : q.registry.Stock) (hm : m.Orderly q) (h : q.step m = some next) :
    next.Orderly q := by
  unfold Request.step at h
  split at h
  next first id indent hcontrol =>
    cases h
    exact hm.begin hq hcontrol
  next hs =>
    cases h
    exact hm.perform hs
  next hs =>
    cases h
    exact hm.resume hs _
  next hs =>
    cases h
    exact hm.pop hs m.visited fun _ _ _ h => by cases h
  next => cases h

/-- A traversal keeps a moment orderly. -/
theorem Orderly.leads (hq : q.registry.Stock) (hm : m.Orderly q) (h : q.Leads m next) :
    next.Orderly q := by
  induction h with
  | refl => exact hm
  | tail _ hstep ih => exact ih.step hq hstep

/-- A moment is what a traversal from a root comes to with the given result. -/
def Delivers (q : Request) (root : NodeId) (m : Moment) :
    EStateM.Result GenerateError Progress Buffer → Prop
  | .ok buffer p => p.path = [] ∧ ∃ result, m = ⟨.back result, [], p.visited⟩ ∧
      buffer = result.getD (.ofNode root 0 q.options.indent)
  | .error e p => p.path = [] ∧ m = ⟨.fail e, [], p.visited⟩

end Moment

namespace Request

variable {q : Request} {m last : Moment}

/-- All moments of a traversal that stops lead to where it stops. -/
theorem Leads.to_last {first : Moment} (hm : q.Leads first m) (hl : q.Leads first last)
    (hlast : q.step last = none) : q.Leads m last := by
  induction hm with
  | refl => exact hl
  | tail _ hstep ih =>
    rcases ReflTransGen.cases_head ih with heq | ⟨next, hnext, hrest⟩
    · rw [heq, hlast] at hstep
      cases hstep
    · rw [hstep] at hnext
      cases hnext
      exact hrest

/-- The machine comes to what the recursive traversal returns. -/
theorem run_delivered (q : Request) (root : NodeId) (visited : Array NodeId) :
    ∃ last, q.Leads (.start root visited) last ∧ q.step last = none ∧
      last.Delivers q root (q.run root ⟨visited, []⟩) := by
  have hroom : q.ast.size < q.nesting + ([] : List Activation).length :=
    Nat.lt_succ_self q.ast.size
  have hreturns := q.render_mimicked Ast.Simple.nil hroom true root 0 visited
  change Moment.ReturnsAs q [] (.start root visited) (q.render q.nesting true root 0 ⟨visited, []⟩)
    at hreturns
  cases h : q.run root ⟨visited, []⟩ with
  | ok buffer p =>
    obtain ⟨result, hr, hbuffer⟩ := run_eq_ok h
    rw [hr] at hreturns
    exact ⟨_, hreturns.2, rfl, hreturns.1, result, rfl, hbuffer⟩
  | error e p =>
    rw [run_eq_error.mp h] at hreturns
    exact ⟨_, hreturns.2, rfl, hreturns.1, rfl⟩

/-- **A traversal stops, and its path stays short.** With any visitors that are
at hand, on any tree and with any options, a traversal has a last moment to
which all others lead and at which it has what the recursive traversal returns;
and at every moment its path is a simple path along child links, no longer than
the options allow and the tree has nodes. -/
theorem run_stops (q : Request) (hq : q.registry.Stock) (root : NodeId)
    (visited : Array NodeId) :
    (∃ last, q.step last = none ∧ last.Delivers q root (q.run root ⟨visited, []⟩) ∧
        ∀ m, q.Leads (.start root visited) m → q.Leads m last) ∧
      ∀ m, q.Leads (.start root visited) m →
        q.ast.Trail m.path ∧ m.path.length ≤ min q.options.maxDepth q.ast.size := by
  constructor
  · obtain ⟨last, hl, hlast, hdelivers⟩ := q.run_delivered root visited
    exact ⟨last, hlast, hdelivers, fun m hm => hm.to_last hl hlast⟩
  · intro m hm
    have horderly : m.Orderly q := (Moment.Orderly.start root visited).leads hq hm
    exact ⟨horderly.trail, le_min horderly.shallow horderly.trail.length_le⟩

/-- Three blocks, two of which list each other; a fourth that does not exist is
listed as well. Blocks are entered as often as they are listed. -/
def chasedBlocks : Request where
  ast := { nodes := #[
    { construct := .blockStatement, children := [⟨1⟩, ⟨3⟩] },
    { construct := .blockStatement, children := [⟨2⟩], parent := some ⟨0⟩ },
    { construct := .blockStatement, children := [⟨1⟩], parent := some ⟨1⟩ }] }
  registry := Registry.standard.install .blockStatement (.plain .always)
  options := { maxDepth := 1000000 }

/-- The traversal of the three blocks stops. -/
theorem run_stops_chasedBlocks :
    chasedBlocks.registry.Stock ∧
      (∃ last, chasedBlocks.step last = none ∧
        last.Delivers chasedBlocks ⟨0⟩ (chasedBlocks.run ⟨0⟩ ⟨#[], []⟩) ∧
        ∀ m, chasedBlocks.Leads (.start ⟨0⟩ #[]) m → chasedBlocks.Leads m last) ∧
      ∀ m, chasedBlocks.Leads (.start ⟨0⟩ #[]) m →
        chasedBlocks.ast.Trail m.path ∧
          m.path.length ≤ min chasedBlocks.options.maxDepth chasedBlocks.ast.size := by
  have hstock : chasedBlocks.registry.Stock :=
    Registry.stock_standard.install .blockStatement (.inr ⟨.always, rfl⟩)
  exact ⟨hstock, run_stops chasedBlocks hstock ⟨0⟩ #[]⟩

end Request

end SourceScribe
