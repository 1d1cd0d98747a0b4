import SourceScribe.Construct.Basic

/-!
# Syntax trees

The nodes of a syntax tree stand in an array, and a node is known by its
place there. A node lists its children in order and has at most one link to a
parent. Nothing forces the two to agree: a node may be listed more than once,
a list may name nodes that do not exist, and lists may run in cycles.
-/

namespace SourceScribe

/-- The identity of a node: its place among the nodes. -/
structure NodeId where
  /-- The place, from zero on. -/
  index : Nat
deriving DecidableEq, Repr

/-- How messages name a node. -/
def NodeId.text (id : NodeId) : String := "#" ++ toString id.index

/-- A place in the file that a tree was read from, counted from zero. -/
structure SourcePosition where
  /-- The line. -/
  line : Nat
  /-- The column. -/
  column : Nat
deriving DecidableEq, Repr

/-- The file that a tree was read from. -/
structure SourceFile where
  /-- Where the file is found. -/
  url : String
  /-- The text of the file, if it is known. -/
  content : Option String
deriving DecidableEq, Repr

/-- A node: a construct and its links. -/
structure Node where
  /-- The construct. -/
  construct : Construct
  /-- The children, in order. -/
  children : List NodeId := []
  /-- The parent. -/
  parent : Option NodeId := none
  /-- Where the construct was read. -/
  position : Option SourcePosition := none
deriving DecidableEq, Repr

/-- The kind of a node. -/
def Node.tag (n : Node) : Tag := n.construct.tag

/-- A syntax tree. -/
structure Ast where
  /-- The nodes. -/
  nodes : Array Node := #[]
  /-- The node from which the whole tree is written. -/
  root : Option NodeId := none
  /-- The file that the tree was read from. -/
  file : Option SourceFile := none

namespace Ast

/-- The tree without nodes. -/
def empty : Ast := {}

/-- The number of nodes. -/
def size (ast : Ast) : Nat := ast.nodes.size

/-- The node of an identity. -/
def node? (ast : Ast) (id : NodeId) : Option Node := ast.nodes[id.index]?

/-- The kind of a node. -/
def tag? (ast : Ast) (id : NodeId) : Option Tag := (ast.node? id).map Node.tag

/-- Whether a node exists. -/
def has (ast : Ast) (id : NodeId) : Bool := id.index < ast.size

/-- The children of a node; none when the node does not exist. -/
def children (ast : Ast) (id : NodeId) : List NodeId :=
  ((ast.node? id).map Node.children).getD []

/-- The parent of a node. -/
def parent? (ast : Ast) (id : NodeId) : Option NodeId := (ast.node? id).bind Node.parent

/-- Where a node was read. -/
def position? (ast : Ast) (id : NodeId) : Option SourcePosition :=
  (ast.node? id).bind Node.position

end Ast

end SourceScribe
