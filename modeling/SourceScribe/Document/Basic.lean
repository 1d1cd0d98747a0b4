import SourceScribe.Ast.Edit
import SourceScribe.Json.Error

/-!
# Documents

A document holds a syntax tree in one of two shapes. In the arena shape the
nodes stand in a list and every link is given, so that shared nodes and links
that do not agree survive. In the tree shape the nodes stand inside each
other, and their links follow from that.
-/

namespace SourceScribe

/-- A node of the arena shape. -/
structure ArenaNode where
  /-- The identity that the node declares. -/
  id : NodeId
  /-- The construct. -/
  construct : Construct
  /-- The children, in order. -/
  children : List NodeId := []
  /-- The parent. -/
  parent : Option NodeId := none
  /-- Where the construct was read. -/
  position : Option SourcePosition := none
deriving DecidableEq, Repr

/-- A document of the arena shape. -/
structure ArenaDocument where
  /-- The file that the tree was read from. -/
  file : Option SourceFile := none
  /-- The root. -/
  root : NodeId
  /-- The nodes. -/
  nodes : List ArenaNode
deriving DecidableEq, Repr

/-- A node of the tree shape. -/
inductive TreeNode where
  /-- A construct, the nodes inside it, and where it was read. -/
  | node (construct : Construct) (children : List TreeNode) (position : Option SourcePosition)

/-- A document of the tree shape. -/
structure TreeDocument where
  /-- The file that the tree was read from. -/
  file : Option SourceFile := none
  /-- The root. -/
  root : TreeNode

/-- A document. -/
inductive Document where
  /-- A document of the arena shape. -/
  | arena (document : ArenaDocument)
  /-- A document of the tree shape. -/
  | tree (document : TreeDocument)

/-- Why a document is not loaded or saved. -/
inductive DocumentError where
  /-- The text is not a document. -/
  | json (error : Json.Error)
  /-- A node declares another identity than its place. -/
  | idMismatch (index : Nat) (id : NodeId)
  /-- A node links to a node that does not exist. -/
  | danglingReference (source target : NodeId)
  /-- The root does not exist. -/
  | missingRoot (id : NodeId)
  /-- The tree has no root. -/
  | noRoot

/-- The wording of an error. -/
def DocumentError.message : DocumentError → String
  | .json error => "invalid AST document: " ++ error.message
  | .idMismatch index id => "node at index " ++ toString index ++ " declares id " ++ id.text
  | .danglingReference source target =>
    source.text ++ " references missing node " ++ target.text
  | .missingRoot id => "root " ++ id.text ++ " is not in the document"
  | .noRoot => "AST has no root node"

namespace ArenaNode

/-- The node without its identity. -/
def toNode (n : ArenaNode) : Node := ⟨n.construct, n.children, n.parent, n.position⟩

/-- The nodes to which a node links, its children first. -/
def links (n : ArenaNode) : List NodeId := n.children ++ n.parent.toList

end ArenaNode

namespace ArenaDocument

/-- Checks nodes from an index on: each declares its place and links only to
places below the given number. -/
def checkFrom (size : Nat) : Nat → List ArenaNode → Except DocumentError Unit
  | _, [] => .ok ()
  | index, n :: rest =>
    if n.id.index ≠ index then .error (.idMismatch index n.id)
    else
      match n.links.find? fun id => size ≤ id.index with
      | some target => .error (.danglingReference n.id target)
      | none => checkFrom size (index + 1) rest

/-- The tree of a document, with its links as given. -/
def toAst (d : ArenaDocument) : Except DocumentError Ast := do
  checkFrom d.nodes.length 0 d.nodes
  if d.root.index < d.nodes.length then
    return { nodes := (d.nodes.map ArenaNode.toNode).toArray, root := some d.root, file := d.file }
  else throw (.missingRoot d.root)

/-- The nodes of a tree from an index on, each with the identity of its place. -/
def nodesFrom : Nat → List Node → List ArenaNode
  | _, [] => []
  | index, n :: rest =>
    ⟨⟨index % Nat.pow 2 32⟩, n.construct, n.children, n.parent, n.position⟩ ::
      nodesFrom (index + 1) rest

/-- The document of a tree. -/
def ofAst (ast : Ast) : Except DocumentError ArenaDocument :=
  match ast.root with
  | some root => .ok ⟨ast.file, root, nodesFrom 0 ast.nodes.toList⟩
  | none => .error .noRoot

end ArenaDocument

namespace TreeNode

mutual

/-- Adds a node and the nodes inside it, each in front of the ones inside it. -/
def push (ast : Ast) (parent : Option NodeId) : TreeNode → Ast × NodeId
  | .node construct children position =>
    let (ast, id) := ast.push ⟨construct, [], parent, position⟩
    (pushAll ast id children, id)

/-- Adds nodes and the nodes inside them, and lists each of them under the parent. -/
def pushAll (ast : Ast) (parent : NodeId) : List TreeNode → Ast
  | [] => ast
  | n :: rest =>
    let (ast, id) := n.push ast (some parent)
    pushAll (ast.modify parent fun n => { n with children := n.children ++ [id] }) parent rest

end

end TreeNode

namespace TreeDocument

/-- The tree of a document: its nodes numbered in the order of their texts. -/
def toAst (d : TreeDocument) : Ast :=
  let (ast, root) := d.root.push {} none
  { ast with root := some root, file := d.file }

end TreeDocument

namespace Document

/-- The tree of a document. -/
def toAst : Document → Except DocumentError Ast
  | .arena d => d.toAst
  | .tree d => .ok d.toAst

end Document

end SourceScribe
