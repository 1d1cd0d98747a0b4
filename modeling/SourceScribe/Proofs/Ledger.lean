import Mathlib.Data.List.Perm.Basic
import SourceScribe.Proofs.Composition
import SourceScribe.Proofs.Thinning

/-!
# What becomes of children

The ledger of a traversal says of every node that is entered which of its children
are written under it and which are left out, because they have been entered before.
It names every node that is entered once, and a child is written under one node only.
So the places at which children are written make a tree.
-/

namespace SourceScribe

open Marked

/-- Nodes, each with what becomes of its children. -/
abbrev Ledger := List (NodeId × Marked)

namespace Ledger

variable {ast : Ast} {l l' : Ledger} {wanted wanted' : List NodeId} {p p₁ p₂ : Progress}

/-- The nodes that are entered, in order. -/
def owners (l : Ledger) : List NodeId := l.map Prod.fst

/-- The children that are written, under one node after the other. -/
def written (l : Ledger) : List NodeId := l.flatMap fun entry => kept entry.2

/-- A ledger tells the part of a traversal between two points in which some nodes are
called for and written. -/
structure Tells (ast : Ast) (l : Ledger) (wanted : List NodeId) (p p' : Progress) : Prop where
  /-- It says something of every child of its nodes. -/
  children : ∀ entry ∈ l, ids entry.2 = ast.children entry.1
  /-- Its nodes are those that are entered. -/
  visited : p'.visited.toList = p.visited.toList ++ l.owners
  /-- Its nodes are those that are called for and those that are written as children. -/
  owners : l.owners.Perm (wanted ++ l.written)

/-- Nothing is told about no calls. -/
theorem tells_nil (ast : Ast) (p : Progress) : Tells ast [] [] p p :=
  ⟨by simp, (List.append_nil _).symm, .refl _⟩

/-- One part of a traversal is told after the other. -/
theorem Tells.append (h : Tells ast l wanted p p₁) (h' : Tells ast l' wanted' p₁ p₂) :
    Tells ast (l ++ l') (wanted ++ wanted') p p₂ where
  children := List.forall_mem_append.mpr ⟨h.children, h'.children⟩
  visited := by
    have howners : (l ++ l').owners = l.owners ++ l'.owners := List.map_append
    rw [h'.visited, h.visited, howners, List.append_assoc]
  owners := by
    have hboth := h.owners.append h'.owners
    rw [List.perm_iff_count] at hboth ⊢
    intro id
    have hid := hboth id
    simp only [Ledger.owners, written, List.map_append, List.flatMap_append,
      List.count_append] at hid ⊢
    omega

/-- What is told about the children of a new node is told about the node. -/
theorem Tells.enter {id : NodeId} {ms : Marked} (h : Tells ast l (kept ms) (p.enter id) p₁)
    (hnew : id ∉ p.visited) (hchildren : ids ms = ast.children id) :
    Tells ast ((id, ms) :: l) [id] p p₁.leave where
  children := List.forall_mem_cons.mpr ⟨hchildren, h.children⟩
  visited := by
    change p₁.visited.toList = _
    rw [h.visited, Progress.visited_enter hnew, Array.toList_push, List.append_assoc]
    rfl
  owners := h.owners.cons id

/-- In a traversal from the start no node is entered twice, and no child is written
twice or is the node from which the traversal starts. -/
theorem Tells.nodup {id : NodeId} (h : Tells ast l [id] {} p) (hvisited : p.visited.toList.Nodup) :
    l.owners.Nodup ∧ (id :: l.written).Nodup := by
  have howners : p.visited.toList = l.owners := h.visited
  rw [howners] at hvisited
  exact ⟨hvisited, h.owners.nodup_iff.mp hvisited⟩

/-- A ledger that names no node twice says one thing of a node. -/
theorem unique (h : l.owners.Nodup) {id : NodeId} {ms other : Marked} (hms : (id, ms) ∈ l)
    (hother : (id, other) ∈ l) : ms = other :=
  congrArg Prod.snd (List.inj_on_of_nodup_map h hms hother rfl)

/-- Where no child is written twice, a child is written at one place. -/
theorem place_unique (h : l.written.Nodup) {a b id : NodeId} {ms ns : Marked} {i j : Nat}
    (ha : (a, ms) ∈ l) (hb : (b, ns) ∈ l) (hi : (kept ms)[i]? = some id)
    (hj : (kept ns)[j]? = some id) : (a, i) = (b, j) := by
  obtain ⟨hparts, hapart⟩ := List.nodup_flatMap.mp h
  have hentry : (a, ms) = (b, ns) := by
    by_contra hne
    have hsymm : Std.Symm (Function.onFun List.Disjoint fun entry : NodeId × Marked =>
      kept entry.2) := ⟨fun _ _ hd _ hb ha => hd ha hb⟩
    exact hapart.forall ha hb hne (List.mem_of_getElem? hi) (List.mem_of_getElem? hj)
  cases hentry
  have hindex : i = j :=
    (List.getElem?_inj (List.getElem?_eq_some_iff.mp hi).1 (hparts _ ha)).mp (hi.trans hj.symm)
  rw [hindex]

end Ledger

namespace Renderer

variable {render : Renderer} {id : NodeId} {p p₁ : Progress}

/-- What becomes of nodes that are called for one after the other: each with whether it
is written. That does not depend on the level at which they are called for. -/
def fates (render : Renderer) : List NodeId → Progress → Marked
  | [], _ => []
  | id :: ids, p =>
    match render id 0 p with
    | .ok result next => (id, result.isSome) :: fates render ids next
    | .error _ _ => []

/-- What is on record about calls for nodes one after the other. -/
def records (render : Renderer) (record : NodeId → Progress → Ledger) :
    List NodeId → Progress → Ledger
  | [], _ => []
  | id :: ids, p =>
    match render id 0 p with
    | .ok _ next => record id p ++ records render record ids next
    | .error _ _ => []

/-- A call at any level does what the call at level zero does. -/
theorem ok_at_zero (hshift : ∀ k, render.Shifts k) {indent : Nat} {result : Option Buffer}
    (h : render id indent p = .ok result p₁) :
    ∃ outermost, render id 0 p = .ok outermost p₁ ∧ outermost.isSome = result.isSome := by
  have hlevel := hshift indent id 0 p
  rw [Nat.zero_add, h] at hlevel
  cases hzero : render id 0 p with
  | ok outermost next =>
    rw [hzero] at hlevel
    cases hlevel
    exact ⟨outermost, rfl, (Option.isSome_map ..).symm⟩
  | error e next =>
    rw [hzero] at hlevel
    cases hlevel

/-- The first of several nodes is written or left out as its call says. -/
theorem fates_cons (hshift : ∀ k, render.Shifts k) {indent : Nat} {result : Option Buffer}
    (h : render id indent p = .ok result p₁) (ids : List NodeId) :
    render.fates (id :: ids) p = (id, result.isSome) :: render.fates ids p₁ := by
  obtain ⟨outermost, hzero, hsame⟩ := ok_at_zero hshift h
  rw [fates, hzero, ← hsame]

/-- What is on record about the first of several nodes comes first. -/
theorem records_cons (hshift : ∀ k, render.Shifts k) {indent : Nat} {result : Option Buffer}
    (h : render id indent p = .ok result p₁) (record : NodeId → Progress → Ledger)
    (ids : List NodeId) :
    render.records record (id :: ids) p = record id p ++ render.records record ids p₁ := by
  obtain ⟨outermost, hzero, -⟩ := ok_at_zero hshift h
  rw [records, hzero]

/-- Something becomes of every node in a walk. -/
theorem Walk.ids_fates (hshift : ∀ k, render.Shifts k) {ids : List NodeId}
    (h : render.Walk ids p p₁) : Marked.ids (render.fates ids p) = ids := by
  induction h with
  | nil p => rfl
  | cons hpass _ ih =>
    obtain ⟨indent, result, hr⟩ := hpass
    rw [fates_cons hshift hr, ids_cons, ih]

end Renderer

namespace Request

variable {q : Request} {limit : Nat} {first : Bool} {id : NodeId} {indent : Nat}
  {p p' : Progress} {result : Option Buffer}

/-- The nodes that a call enters, each with what becomes of its children. -/
def ledger (q : Request) : Nat → Bool → NodeId → Progress → Ledger
  | 0, _, _, _ => []
  | limit + 1, first, id, p =>
    match q.gate first id p with
    | .ok (some _) =>
      (id, (q.render limit false).fates (q.ast.children id) (p.enter id)) ::
        (q.render limit false).records (q.ledger limit false) (q.ast.children id) (p.enter id)
    | _ => []

/-- A call that succeeds leaves out a node that has been entered, and nothing is on
record about it; or it enters a new node, and its script is written. -/
theorem ledger_cases (hq : q.registry.EntersOnce)
    (h : q.render (limit + 1) first id indent p = .ok result p') :
    (id ∈ p.visited ∧ result = none ∧ p' = p ∧ q.ledger (limit + 1) first id p = []) ∨
      ∃ node visitor f, q.Admits first id p node visitor ∧ id ∉ p.visited ∧
        Writing.script q (q.render limit false) id node.tag (q.scriptOf visitor id node)
          ⟨p.enter id, .ofNode id indent q.options.indent⟩ = .ok () f ∧
        result = some f.buffer ∧ p' = f.progress.leave ∧
        q.ledger (limit + 1) first id p =
          (id, (q.render limit false).fates (q.ast.children id) (p.enter id)) ::
            (q.render limit false).records (q.ledger limit false) (q.ast.children id)
              (p.enter id) := by
  rcases q.render_cases limit first id indent p with
    ⟨e, _, he⟩ | ⟨node, visitor, ha, ⟨hg, hskip⟩ | ⟨hg, henter⟩⟩
  · rw [he] at h
    cases h
  · rw [hskip] at h
    cases h
    have hgate := gate_admits ha
    rw [if_neg (by rw [hg]; simp)] at hgate
    rw [hq _ _ ha.supported, ← Bool.not_eq_true, Guard.admits_once, not_not] at hg
    exact .inl ⟨hg, rfl, rfl, by rw [ledger, hgate]⟩
  · have hgate := gate_admits ha
    rw [if_pos hg] at hgate
    rw [hq _ _ ha.supported, Guard.admits_once] at hg
    rw [henter] at h
    cases hs : Writing.script q (q.render limit false) id node.tag (q.scriptOf visitor id node)
        ⟨p.enter id, .ofNode id indent q.options.indent⟩ with
    | error e f =>
      rw [enter_of_script_error hs] at h
      cases h
    | ok a f =>
      rw [enter_of_script hs] at h
      cases h
      exact .inr ⟨node, visitor, f, ha, hg, hs, rfl, rfl, by rw [ledger, hgate]⟩

/-- A call that leaves its node out changes nothing. -/
theorem eq_of_left_out (hq : q.registry.EntersOnce)
    (h : q.render limit first id indent p = .ok none p') : p' = p := by
  cases limit with
  | zero => cases h
  | succ limit =>
    rcases ledger_cases hq h with ⟨-, -, hsame, -⟩ | ⟨_, _, _, _, _, _, hwritten, _⟩
    · exact hsame
    · cases hwritten

/-- A node that is entered and written: its script is clean, and its children are called
for one after the other. -/
theorem walk_of_script (hq : q.registry.Thorough) {node : Node} {visitor : Visitor} {f : Frame}
    (ha : q.Admits first id p node visitor)
    (hs : Writing.script q (q.render limit false) id node.tag (q.scriptOf visitor id node)
      ⟨p.enter id, .ofNode id indent q.options.indent⟩ = .ok () f) :
    Script.Clean (q.scriptOf visitor id node) ∧
      (q.render limit false).Walk (q.ast.children id) (p.enter id) f.progress := by
  have hclean := Writing.script_clean hs
  have hwalk := (Writing.asks_script id node.tag _).passes hs
  rw [calls_scriptOf hq ha hclean] at hwalk
  exact ⟨hclean, hwalk⟩

/-- The ledger of a call that succeeds tells what the call does. -/
theorem ledger_tells (hq : q.registry.Thorough)
    (h : q.render limit first id indent p = .ok result p') :
    (q.ledger limit first id p).Tells q.ast (kept [(id, result.isSome)]) p p' := by
  induction limit generalizing first id indent p p' result with
  | zero => cases h
  | succ limit ih =>
    have hshift : ∀ k, (q.render limit false).Shifts k := fun _ => q.render_shifts limit false
    have hwalk : ∀ {ids a b}, (q.render limit false).Walk ids a b →
        Ledger.Tells q.ast ((q.render limit false).records (q.ledger limit false) ids a)
          (kept ((q.render limit false).fates ids a)) a b := by
      intro ids a b hw
      induction hw with
      | nil a => exact Ledger.tells_nil q.ast a
      | @cons id ids a b c hpass _ ihw =>
        obtain ⟨indent, result, hr⟩ := hpass
        rw [Renderer.fates_cons hshift hr, Renderer.records_cons hshift hr,
          ← List.singleton_append, kept_append]
        exact (ih hr).append ihw
    rcases ledger_cases hq.entersOnce h with
      ⟨-, rfl, rfl, hledger⟩ | ⟨node, visitor, f, ha, hnew, hs, rfl, rfl, hledger⟩
    · rw [hledger]
      exact Ledger.tells_nil q.ast _
    · rw [hledger]
      have hw := (walk_of_script hq ha hs).2
      exact (hwalk hw).enter hnew (hw.ids_fates hshift)

end Request

end SourceScribe
