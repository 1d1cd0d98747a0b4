import SourceScribe.Grammar.Fault
import SourceScribe.Options

/-!
# Scripts

A script says how a node is written: a list of pieces that are written one
after the other. A piece is text, a line end, a child that
must be written here, a group of children that are written unless they were
written before, or a fault, at which writing stops. What stands around the
children of a group depends only on which of them are written.
-/

namespace SourceScribe

/-- Text or a line end between children. -/
inductive Mark where
  /-- Text. -/
  | text (value : String)
  /-- The end of a line. -/
  | newline
deriving DecidableEq, Repr

/-- How the children of a group are set apart. -/
inductive Arrangement where
  /-- The text stands between children. -/
  | separated (separator : String)
  /-- The text stands in front of every child. -/
  | led (text : String)
  /-- The text stands behind every child. -/
  | followed (text : String)
  /-- Every child ends its line. -/
  | lines
  /-- Every child ends its line; a blank line stands in front of every nested
  definition but the first child. -/
  | members
  /-- A line end stands between children, and a blank line too between children
  of different kinds and in front of definitions, but not behind a comment. -/
  | topLevel
deriving DecidableEq, Repr

/-- Whether a kind is a definition among the members of another. -/
def Tag.isNestedDefinition : Tag → Bool
  | .resourceDefinition | .actionDefinition => true
  | _ => false

namespace Arrangement

/-- What stands in front of a child, by the number of children written before,
the kind of the last of them, and the kind of the child. -/
def before (blankLines : Bool) (written : Nat) (previous current : Option Tag) :
    Arrangement → List Mark
  | .separated separator => if written = 0 then [] else [.text separator]
  | .led text => [.text text]
  | .followed _ => []
  | .lines => []
  | .members =>
    if blankLines && written != 0 && current.any Tag.isNestedDefinition then [.newline] else []
  | .topLevel =>
    match previous with
    | none => []
    | some last =>
      let startsGroup := current.any fun tag => tag != last || tag.isDefinition
      if blankLines && startsGroup && last != .commentStatement then [.newline, .newline]
      else [.newline]

/-- What stands behind a child. -/
def after : Arrangement → List Mark
  | .followed text => [.text text]
  | .lines => [.newline]
  | .members => [.newline]
  | _ => []

end Arrangement

/-- The nodes on a path, from its start on, with their kinds. -/
abbrev NodePath := List (NodeId × Tag)

/-- How far a traversal has come. -/
structure Standing where
  /-- The nodes that are being written. -/
  path : NodePath
  /-- The number of nodes on the path. -/
  depth : Nat
  /-- The number of nodes that have been entered. -/
  visited : Nat

/-- A piece of a script. -/
inductive Piece where
  /-- Text. -/
  | text (value : String)
  /-- The end of a line. -/
  | newline
  /-- A child that the node cannot do without. -/
  | required (slot : String) (child : NodeId)
  /-- Children that are written here unless they were written before. -/
  | group (arrangement : Arrangement) (children : List NodeId)
  /-- A group between braces, each child one level further in. -/
  | braced (arrangement : Arrangement) (children : List NodeId)
  /-- Text about the traversal itself. -/
  | standing (describe : Standing → String)
  /-- The node is malformed. -/
  | reject (fault : Fault)

/-- The pieces of a node, in order. -/
abbrev Script := List Piece

/-- What a rule of the grammar may look at: a node with its identity, the tree
around it, and the options. -/
structure Setting where
  /-- The tree. -/
  ast : Ast
  /-- The options. -/
  options : Options
  /-- The identity of the node. -/
  id : NodeId
  /-- The node. -/
  node : Node

namespace Setting

/-- The construct of the node. -/
def construct (s : Setting) : Construct := s.node.construct

/-- The children of the node. -/
def children (s : Setting) : List NodeId := s.node.children

/-- The kind of a child, if it exists. -/
def tag? (s : Setting) (child : NodeId) : Option Tag := s.ast.tag? child

end Setting

/-- How the nodes of a kind are written. -/
abbrev Rule := Setting → Script

namespace Script

/-- The node is malformed. -/
def fail (fault : Fault) : Script := [.reject fault]

/-- The node is malformed unless the condition holds. -/
def demand (condition : Bool) (fault : Fault) : Script := if condition then [] else fail fault

/-- Goes on with the result of a check. -/
def checked (result : Except Fault α) (next : α → Script) : Script :=
  match result with
  | .ok a => next a
  | .error fault => fail fault

/-- All the text that follows one after the other. -/
def texts (values : List String) : Script := values.map .text

/-- Children with nothing between them. -/
def plain (children : List NodeId) : Script := [.group (.separated "") children]

/-- Children that the node cannot do without, with the text between them. -/
def requiredAll (slot separator : String) : List NodeId → Script
  | [] => []
  | child :: rest =>
    .required slot child :: rest.flatMap fun c => [.text separator, .required slot c]

/-- Statements between braces. -/
def block (children : List NodeId) : Script := [.braced .lines children]

/-- Members between braces. -/
def memberBlock (children : List NodeId) : Script := [.braced .members children]

end Script

end SourceScribe
