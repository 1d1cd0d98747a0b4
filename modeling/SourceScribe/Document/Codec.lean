import SourceScribe.Construct.Codec
import SourceScribe.Document.Basic
import SourceScribe.Json.Printer

/-!
# Documents as text

The shape of a document shows at its member `root` alone: a number is an
identity and selects the arena shape. The text is read for that member first
and then again as a document of that shape, so that an error names its place.
Saving writes the arena shape.
-/

namespace SourceScribe

open Json (Decoder Member Limits Value required)

namespace NodeId

/-- An identity as a number. -/
def toValue (id : NodeId) : Value := .ofNat id.index

/-- Reads an identity. -/
def decoder : Decoder NodeId := NodeId.mk <$> Decoder.natural .identity

end NodeId

namespace SourcePosition

/-- A place as an object. -/
def toValue (p : SourcePosition) : Value :=
  .object [("line", .ofNat p.line), ("column", .ofNat p.column)]

/-- What has been read of a place. -/
structure Draft where
  /-- The line. -/
  line : Option Nat := none
  /-- The column. -/
  column : Option Nat := none

/-- The members of a place. -/
def fields : List (Member Draft) :=
  [.of "line" false (fun _ => Decoder.natural .size) (·.line) fun v d => { d with line := some v },
    .of "column" false (fun _ => Decoder.natural .size) (·.column)
      fun v d => { d with column := some v }]

/-- Reads a place. -/
def decoder (l : Limits) : Decoder SourcePosition :=
  Decoder.record l "struct SourcePosition" fields {} fun d => do
    return ⟨← required "line" d.line, ← required "column" d.column⟩

end SourcePosition

namespace SourceFile

/-- A file as an object. -/
def toValue (f : SourceFile) : Value :=
  .object (("url", .string f.url) :: Json.optionalMember "content" .string f.content)

/-- What has been read of a file. -/
structure Draft where
  /-- Where the file is found. -/
  url : Option String := none
  /-- The text of the file. -/
  content : Option (Option String) := none

/-- The members of a file. -/
def fields : List (Member Draft) :=
  [.of "url" false (fun _ => Decoder.string) (·.url) fun v d => { d with url := some v },
    .of "content" true (fun _ => Decoder.nullable Decoder.string) (·.content)
      fun v d => { d with content := some v }]

/-- Reads a file. -/
def decoder (l : Limits) : Decoder SourceFile :=
  Decoder.record l "struct SourceFile" fields {} fun d => do
    return ⟨← required "url" d.url, d.content.join⟩

end SourceFile

/-- The member of children, left out when there are none. -/
def childrenMember (children : List Value) : List (String × Value) :=
  if children.isEmpty then [] else [("children", .array children)]

namespace ArenaNode

/-- A node as an object. -/
def toValue (n : ArenaNode) : Value :=
  .object ([("id", n.id.toValue), ("kind", n.construct.toValue)] ++
    childrenMember (n.children.map NodeId.toValue) ++
    [("parent", .ofOption NodeId.toValue n.parent)] ++
    Json.optionalMember "position" SourcePosition.toValue n.position)

/-- What has been read of a node. -/
structure Draft where
  /-- The identity. -/
  id : Option NodeId := none
  /-- The construct. -/
  construct : Option Construct := none
  /-- The children. -/
  children : Option (List NodeId) := none
  /-- The parent. -/
  parent : Option (Option NodeId) := none
  /-- The place. -/
  position : Option (Option SourcePosition) := none

/-- The members of a node. -/
def fields : List (Member Draft) :=
  [.of "id" false (fun _ => NodeId.decoder) (·.id) fun v d => { d with id := some v },
    .of "kind" false Construct.decoder (·.construct) fun v d => { d with construct := some v },
    .of "children" true (fun l => Decoder.list l NodeId.decoder) (·.children)
      fun v d => { d with children := some v },
    .of "parent" true (fun _ => Decoder.nullable NodeId.decoder) (·.parent)
      fun v d => { d with parent := some v },
    .of "position" true (fun l => Decoder.nullable (SourcePosition.decoder l)) (·.position)
      fun v d => { d with position := some v }]

/-- Reads a node. -/
def decoder (l : Limits) : Decoder ArenaNode :=
  Decoder.record l "struct ArenaNode" fields {} fun d => do
    return ⟨← required "id" d.id, ← required "kind" d.construct, d.children.getD [],
      d.parent.join, d.position.join⟩

end ArenaNode

/-- The member of the file, left out when there is none. -/
def fileMember (file : Option SourceFile) : List (String × Value) :=
  Json.optionalMember "file" SourceFile.toValue file

namespace ArenaDocument

/-- A document as an object. -/
def toValue (d : ArenaDocument) : Value :=
  .object (fileMember d.file ++
    [("root", d.root.toValue), ("nodes", .array (d.nodes.map ArenaNode.toValue))])

/-- What has been read of a document. -/
structure Draft where
  /-- The file. -/
  file : Option (Option SourceFile) := none
  /-- The root. -/
  root : Option NodeId := none
  /-- The nodes. -/
  nodes : Option (List ArenaNode) := none

/-- The members of a document. -/
def fields : List (Member Draft) :=
  [.of "file" true (fun l => Decoder.nullable (SourceFile.decoder l)) (·.file)
      fun v d => { d with file := some v },
    .of "root" false (fun _ => NodeId.decoder) (·.root) fun v d => { d with root := some v },
    .of "nodes" false (fun l => Decoder.list l (ArenaNode.decoder l.inside)) (·.nodes)
      fun v d => { d with nodes := some v }]

/-- Reads a document. -/
def decoder (l : Limits) : Decoder ArenaDocument :=
  Decoder.record l "struct ArenaDocument" fields {} fun d => do
    return ⟨d.file.join, ← required "root" d.root, ← required "nodes" d.nodes⟩

end ArenaDocument

namespace TreeNode

mutual

/-- A node as an object. -/
def toValue : TreeNode → Value
  | .node construct children position =>
    .object (("kind", construct.toValue) :: childrenMember (toValues children) ++
      Json.optionalMember "position" SourcePosition.toValue position)

/-- Nodes as objects. -/
def toValues : List TreeNode → List Value
  | [] => []
  | n :: rest => n.toValue :: toValues rest

end

/-- What has been read of a node. -/
structure Draft where
  /-- The construct. -/
  construct : Option Construct := none
  /-- The children. -/
  children : Option (List TreeNode) := none
  /-- The place. -/
  position : Option (Option SourcePosition) := none

/-- The members of a node, by how its children are read. -/
def fields (children : Decoder (List TreeNode)) : List (Member Draft) :=
  [.of "kind" false Construct.decoder (·.construct) fun v d => { d with construct := some v },
    .of "children" true (fun _ => children) (·.children) fun v d => { d with children := some v },
    .of "position" true (fun l => Decoder.nullable (SourcePosition.decoder l)) (·.position)
      fun v d => { d with position := some v }]

/-- Reads a node, by how its children are read. -/
def decodeNode (l : Limits) (children : Decoder (List TreeNode)) : Decoder TreeNode :=
  Decoder.record l "struct TreeNode" (fields children) {} fun d => do
    return .node (← required "kind" d.construct) (d.children.getD []) d.position.join

/-- Reads a node, with the number of brackets that may be opened: one for the
node and one more for its children. -/
def decodeAt (steps : Nat) : Nat → Decoder TreeNode
  | 0 => decodeNode ⟨steps, 0⟩ noChildren
  | 1 => decodeNode ⟨steps, 1⟩ noChildren
  | depth + 2 =>
    decodeNode ⟨steps, depth + 2⟩ (Decoder.list ⟨steps, depth + 1⟩ (decodeAt steps depth))
where
  /-- The list of children for which no bracket is left. -/
  noChildren : Decoder (List TreeNode) :=
    Decoder.list ⟨steps, 0⟩ (Decoder.failHere .recursionLimit)

/-- Reads a node. -/
def decoder (l : Limits) : Decoder TreeNode := decodeAt l.steps l.depth

end TreeNode

namespace TreeDocument

/-- A document as an object. -/
def toValue (d : TreeDocument) : Value :=
  .object (fileMember d.file ++ [("root", d.root.toValue)])

/-- What has been read of a document. -/
structure Draft where
  /-- The file. -/
  file : Option (Option SourceFile) := none
  /-- The root. -/
  root : Option TreeNode := none

/-- The members of a document. -/
def fields : List (Member Draft) :=
  [.of "file" true (fun l => Decoder.nullable (SourceFile.decoder l)) (·.file)
      fun v d => { d with file := some v },
    .of "root" false TreeNode.decoder (·.root) fun v d => { d with root := some v }]

/-- Reads a document. -/
def decoder (l : Limits) : Decoder TreeDocument :=
  Decoder.record l "struct TreeDocument" fields {} fun d => do
    return ⟨d.file.join, ← required "root" d.root⟩

end TreeDocument

namespace Document

/-- The member that shows the shape. -/
def shapeFields : List (Member (Option Value)) :=
  [.of "root" false Decoder.value id fun v _ => some v]

/-- Reads what stands at the root. -/
def shapeDecoder (l : Limits) : Decoder Value :=
  Decoder.record l "struct DocumentShape" shapeFields none (required "root")

/-- Reads a document from a text. -/
def parse (text : String) : Except Json.Error Document := do
  if (← Json.decode shapeDecoder text).isNumber then
    return .arena (← Json.decode ArenaDocument.decoder text)
  else return .tree (← Json.decode TreeDocument.decoder text)

/-- A document as an object. -/
def toValue : Document → Value
  | .arena d => d.toValue
  | .tree d => d.toValue

/-- Loads the tree of a document. -/
def load (text : String) : Except DocumentError Ast :=
  match parse text with
  | .ok d => d.toAst
  | .error e => .error (.json e)

/-- Saves a tree. -/
def save (ast : Ast) : Except DocumentError String := do
  return (← ArenaDocument.ofAst ast).toValue.pretty

end Document

end SourceScribe
