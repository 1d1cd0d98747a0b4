import SourceScribe.Ast.Edit

/-!
# Editing in place

The edits of a tree as programs that change it step by step. What a program has
changed stays changed when it stops later on, so a refusal leaves the tree as it was
only if nothing has been changed before it. A program breaks when it touches a node,
or a place in a list, that is not there.
-/

namespace SourceScribe

/-- Why a program stops before its end. -/
inductive Stop where
  /-- The edit is refused. -/
  | refused (error : EditError)
  /-- A node or a place in a list is touched that is not there. -/
  | broken
deriving DecidableEq, Repr

/-- A program that changes a tree in place. -/
abbrev Editing := EStateM Stop Ast

namespace Editing

/-- The node of an identity; the edit is refused when it does not exist. -/
def known (id : NodeId) : Editing Node := do
  match (← get).node? id with
  | some node => return node
  | none => throw (.refused (.unknownNode id))

/-- The node of an identity, which has to exist. -/
def node (id : NodeId) : Editing Node := do
  match (← get).node? id with
  | some node => return node
  | none => throw .broken

/-- Changes a node, which has to exist. -/
def change (id : NodeId) (edit : Node → Node) : Editing Unit := do
  let _ ← node id
  modify fun ast => ast.modify id edit

/-- Adds a node behind the others. -/
def push (node : Node) : Editing NodeId := do
  let (ast, id) := (← get).push node
  set ast
  return id

/-- Lists a child last. -/
def listLast (parent child : NodeId) : Editing Unit :=
  change parent fun n => { n with children := n.children ++ [child] }

/-- Lists a child at a place, which must not lie behind the end of the list. -/
def listAt (parent : NodeId) (index : Nat) (child : NodeId) : Editing Unit := do
  if (← node parent).children.length < index then throw .broken
  change parent fun n => { n with children := n.children.insertIdx index child }

/-- Takes an entry off a list, in which its place has to exist. -/
def unlistAt (parent : NodeId) (index : Nat) : Editing Unit := do
  if (← node parent).children.length ≤ index then throw .broken
  change parent fun n => { n with children := n.children.eraseIdx index }

/-- Sets or takes away the parent link of a node. -/
def link (child : NodeId) (parent : Option NodeId) : Editing Unit :=
  change child fun n => { n with parent := parent }

/-- Makes a node the root. -/
def setRoot (id : NodeId) : Editing Unit := do
  let _ ← known id
  modify fun ast => { ast with root := some id }

/-- Sets where a node was read. -/
def setPosition (id : NodeId) (position : SourcePosition) : Editing Unit := do
  let _ ← known id
  change id fun n => { n with position := some position }

/-- Makes a node without parent the last child of another. -/
def attach (parent child : NodeId) : Editing Unit := do
  let _ ← known parent
  match (← known child).parent with
  | some existing => throw (.refused (.alreadyAttached child existing))
  | none =>
    link child (some parent)
    listLast parent child

/-- Adds a node as the last child of another. -/
def appendChild (parent : NodeId) (construct : Construct) : Editing NodeId := do
  let _ ← known parent
  let child ← push { construct := construct }
  attach parent child
  return child

/-- Adds a node at the given place among the children of another. -/
def insertChild (parent : NodeId) (index : Nat) (construct : Construct) : Editing NodeId := do
  let length := (← known parent).children.length
  if length < index then throw (.refused (.indexOutOfBounds parent index length))
  let child ← push { construct := construct }
  link child (some parent)
  listAt parent index child
  return child

/-- Lists a node under another without setting its parent link. -/
def shareChild (parent child : NodeId) : Editing Unit := do
  let _ ← known parent
  let _ ← known child
  listLast parent child

/-- Removes the first mention of a child. The child loses its parent link when that
names this parent and no mention is left. -/
def removeChild (parent child : NodeId) : Editing Unit := do
  let _ ← known child
  match (← known parent).children.idxOf? child with
  | none => throw (.refused (.notAChild parent child))
  | some index =>
    unlistAt parent index
    let left := (← node parent).children
    if (← node child).parent = some parent && !left.contains child then
      link child none

end Editing

end SourceScribe
