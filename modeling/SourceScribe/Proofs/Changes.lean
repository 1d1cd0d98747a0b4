import Mathlib.Algebra.Group.Nat.Defs
import SourceScribe.Ast.Edit
import SourceScribe.Proofs.Links

/-!
# Changes of single nodes

Every edit of a graph adds a node behind the others or changes one that is there.
What that does to the nodes, to the lists of children and to the parent links is
said here once. The identity of an added node is that of its place as long as
there are identities; behind them it is that of a node which is there already.
-/

namespace SourceScribe.Ast

variable {ast next : Ast} {parent child id x : NodeId}

/-- Identities differ in their places only. -/
theorem eq_iff_index {a b : NodeId} : a = b ↔ a.index = b.index := by
  constructor
  · exact congrArg NodeId.index
  · intro h
    cases a
    cases b
    exact congrArg NodeId.mk h

/-- A node is there when its place is. -/
theorem has_iff_lt : ast.has id = true ↔ id.index < ast.nodes.size := decide_eq_true_iff

/-- Graphs with the same list of nodes, root and file are the same. -/
theorem ext_toList (hnodes : ast.nodes.toList = next.nodes.toList) (hroot : ast.root = next.root)
    (hfile : ast.file = next.file) : ast = next := by
  obtain ⟨nodes, root, file⟩ := ast
  obtain ⟨nodes', root', file'⟩ := next
  have hsame : nodes = nodes' := Array.toList_inj.mp hnodes
  subst hsame hroot hfile
  rfl

/-- Graphs with the same node at every place, root and file are the same. -/
theorem ext_node? (hnodes : ∀ x, ast.node? x = next.node? x) (hroot : ast.root = next.root)
    (hfile : ast.file = next.file) : ast = next :=
  ext_toList (congrArg Array.toList (Array.ext_getElem? fun i => hnodes ⟨i⟩)) hroot hfile

/-- A graph in which all nodes of another are there has as many nodes. -/
theorem size_le_of_has (h : ∀ x, ast.has x = true → next.has x = true) : ast.size ≤ next.size := by
  by_contra hlt
  have hthere : ast.has ⟨next.size⟩ = true := has_iff_lt.mpr (Nat.lt_of_not_le hlt)
  exact Nat.lt_irrefl _ (has_iff_lt.mp (h _ hthere))

/-! ### Changing a node -/

/-- A change touches the node that it is for. -/
theorem node?_modify (ast : Ast) (id x : NodeId) (change : Node → Node) :
    (ast.modify id change).node? x =
      if x = id then (ast.node? x).map change else ast.node? x := by
  simp only [modify, node?, Array.getElem?_modify, eq_iff_index, eq_comm (a := id.index)]

/-- A change adds and removes no node. -/
@[simp] theorem has_modify (ast : Ast) (id x : NodeId) (change : Node → Node) :
    (ast.modify id change).has x = ast.has x := by
  rw [Bool.eq_iff_iff, has_iff_lt, has_iff_lt, modify, Array.size_modify]

/-- A change of the list of a node that is there. -/
theorem children_modify_list (list : List NodeId → List NodeId) (h : ast.has parent = true)
    (x : NodeId) :
    (ast.modify parent fun n => { n with children := list n.children }).children x =
      if x = parent then list (ast.children parent) else ast.children x := by
  obtain ⟨node, hnode⟩ := has_iff.mp h
  simp only [children, node?_modify]
  split
  next hx =>
    subst hx
    simp [hnode]
  next => rfl

/-- A change of a list leaves the parent links. -/
theorem parent?_modify_list (list : List NodeId → List NodeId) (x : NodeId) :
    (ast.modify parent fun n => { n with children := list n.children }).parent? x =
      ast.parent? x := by
  simp only [parent?, node?_modify]
  split
  next => cases ast.node? x <;> rfl
  next => rfl

/-- A change of a parent link leaves the lists. -/
theorem children_modify_link {link : Option NodeId} (x : NodeId) :
    (ast.modify child fun n => { n with parent := link }).children x = ast.children x := by
  simp only [children, node?_modify]
  split
  next => cases ast.node? x <;> rfl
  next => rfl

/-- A change of the parent link of a node that is there. -/
theorem parent?_modify_link {link : Option NodeId} (h : ast.has child = true) (x : NodeId) :
    (ast.modify child fun n => { n with parent := link }).parent? x =
      if x = child then link else ast.parent? x := by
  obtain ⟨node, hnode⟩ := has_iff.mp h
  simp only [parent?, node?_modify]
  split
  next hx =>
    subst hx
    simp [hnode]
  next => rfl

/-! ### Adding a node -/

/-- The node that is added stands behind the others. -/
theorem node?_push (ast : Ast) (node : Node) (x : NodeId) :
    (ast.push node).1.node? x = if x = ⟨ast.size⟩ then some node else ast.node? x := by
  simp [push, node?, Array.getElem?_push, eq_iff_index, size]

/-- The place behind the nodes is free. -/
theorem has_size (ast : Ast) : ast.has ⟨ast.size⟩ = false := by simp [has]

/-- Nothing stands behind the nodes. -/
theorem node?_size (ast : Ast) : ast.node? ⟨ast.size⟩ = none := by simp [node?, size]

/-- Nodes stay when one is added. -/
theorem has_push (ast : Ast) (node : Node) (x : NodeId) :
    (ast.push node).1.has x = true ↔ x = ⟨ast.size⟩ ∨ ast.has x = true := by
  rw [has_iff_lt, has_iff_lt, eq_iff_index, push, Array.size_push]
  dsimp only [size]
  omega

/-- As long as there are identities, the next one is that of the next place. -/
theorem nextId_of_lt (h : ast.size < 2 ^ 32) : ast.nextId = ⟨ast.size⟩ := by
  exact congrArg NodeId.mk (Nat.mod_eq_of_lt h)

/-- Behind all identities the next one is the first again. -/
theorem nextId_of_eq (h : ast.size = 2 ^ 32) : ast.nextId = ⟨0⟩ := by
  rw [nextId, h]
  exact congrArg NodeId.mk (Nat.mod_self _)

/-- The identity of an added node is that of a node that is there. -/
theorem has_nextId (ast : Ast) (node : Node) : (ast.push node).1.has ast.nextId = true := by
  rw [has_iff_lt, push, Array.size_push]
  exact Nat.lt_succ_of_le (Nat.mod_le _ _)

/-- There is one node more when one is added. -/
theorem size_add (ast : Ast) (construct : Construct) :
    (ast.add construct).1.size = ast.size + 1 := Array.size_push _

/-- What the added node lists. -/
theorem children_push (ast : Ast) (node : Node) (x : NodeId) :
    (ast.push node).1.children x = if x = ⟨ast.size⟩ then node.children else ast.children x := by
  simp only [children, node?_push]
  split <;> rfl

/-- Where the added node links. -/
theorem parent?_push (ast : Ast) (node : Node) (x : NodeId) :
    (ast.push node).1.parent? x = if x = ⟨ast.size⟩ then node.parent else ast.parent? x := by
  simp only [parent?, node?_push]
  split <;> rfl

/-- A node without links lists nothing. -/
theorem children_add (ast : Ast) (construct : Construct) (x : NodeId) :
    (ast.add construct).1.children x = ast.children x := by
  rw [add, children_push]
  split
  next hx => rw [hx, children_eq_nil ast.has_size]
  next => rfl

/-- A node without links links nowhere. -/
theorem parent?_add (ast : Ast) (construct : Construct) (x : NodeId) :
    (ast.add construct).1.parent? x = ast.parent? x := by
  rw [add, parent?_push]
  split
  next hx => rw [hx, parent?, node?_size, Option.bind_none]
  next => rfl

/-- As long as there are identities, the next one belongs to no node. -/
theorem parent?_nextId (h : ast.size < 2 ^ 32) : ast.parent? ast.nextId = none := by
  rw [nextId_of_lt h, parent?, node?_size, Option.bind_none]

end SourceScribe.Ast
