import SourceScribe.Ast.Basic

/-!
# Editing syntax trees

Nodes are added at the end and never removed. An identity holds 32 bits of the
place of its node, so that behind as many nodes identities begin again at zero.
Linking a child lists it under its parent and sets its parent link; sharing a
child only lists it.
-/

namespace SourceScribe

/-- Why an edit is refused. -/
inductive EditError where
  /-- The node does not exist. -/
  | unknownNode (id : NodeId)
  /-- The node has a parent already. -/
  | alreadyAttached (child parent : NodeId)
  /-- The node is not among the children. -/
  | notAChild (parent child : NodeId)
  /-- The place lies behind the end of the children. -/
  | indexOutOfBounds (parent : NodeId) (index length : Nat)
deriving DecidableEq, Repr

/-- The wording of a refusal. -/
def EditError.message : EditError → String
  | .unknownNode id => "node " ++ id.text ++ " does not exist"
  | .alreadyAttached child parent =>
    "node " ++ child.text ++ " is already attached to " ++ parent.text
  | .notAChild parent child => "node " ++ child.text ++ " is not a child of " ++ parent.text
  | .indexOutOfBounds parent index length =>
    "index " ++ toString index ++ " is out of bounds for " ++ parent.text ++ " with " ++
      toString length ++ " children"

namespace Ast

/-- Changes one node; nothing happens when it does not exist. -/
def modify (ast : Ast) (id : NodeId) (change : Node → Node) : Ast :=
  { ast with nodes := ast.nodes.modify id.index change }

/-- The identity of the node that is added next. -/
def nextId (ast : Ast) : NodeId := ⟨ast.size % Nat.pow 2 32⟩

/-- Adds a node exactly as given. -/
def push (ast : Ast) (node : Node) : Ast × NodeId :=
  ({ ast with nodes := ast.nodes.push node }, ast.nextId)

/-- Adds a node without links. -/
def add (ast : Ast) (construct : Construct) : Ast × NodeId := ast.push { construct := construct }

/-- A tree of one node, its root. -/
def withRoot (construct : Construct) : Ast × NodeId :=
  let (ast, id) := empty.add construct
  ({ ast with root := some id }, id)

/-- Refuses nodes that do not exist. -/
def check (ast : Ast) (id : NodeId) : Except EditError Unit :=
  if ast.has id then .ok () else .error (.unknownNode id)

/-- Makes a node the root. -/
def setRoot (ast : Ast) (id : NodeId) : Except EditError Ast := do
  ast.check id
  return { ast with root := some id }

/-- Sets the file that the tree was read from. -/
def setFile (ast : Ast) (file : Option SourceFile) : Ast := { ast with file := file }

/-- Sets where a node was read. -/
def setPosition (ast : Ast) (id : NodeId) (position : SourcePosition) : Except EditError Ast := do
  ast.check id
  return ast.modify id fun n => { n with position := some position }

/-- Makes a node without parent the last child of another. -/
def attach (ast : Ast) (parent child : NodeId) : Except EditError Ast := do
  ast.check parent
  ast.check child
  match ast.parent? child with
  | some existing => .error (.alreadyAttached child existing)
  | none =>
    return (ast.modify child fun n => { n with parent := some parent }).modify parent
      fun n => { n with children := n.children ++ [child] }

/-- Adds a node as the last child of another. -/
def appendChild (ast : Ast) (parent : NodeId) (construct : Construct) :
    Except EditError (Ast × NodeId) := do
  ast.check parent
  let (ast, child) := ast.add construct
  return (← ast.attach parent child, child)

/-- Adds a node at the given place among the children of another. -/
def insertChild (ast : Ast) (parent : NodeId) (index : Nat) (construct : Construct) :
    Except EditError (Ast × NodeId) := do
  ast.check parent
  let length := (ast.children parent).length
  if length < index then .error (.indexOutOfBounds parent index length)
  else
    let (ast, child) := ast.add construct
    return ((ast.modify child fun n => { n with parent := some parent }).modify parent
      fun n => { n with children := n.children.insertIdx index child }, child)

/-- Lists a node under another without setting its parent link. -/
def shareChild (ast : Ast) (parent child : NodeId) : Except EditError Ast := do
  ast.check parent
  ast.check child
  return ast.modify parent fun n => { n with children := n.children ++ [child] }

/-- Removes the first mention of a child. The child loses its parent link when
that names this parent and no mention is left. -/
def removeChild (ast : Ast) (parent child : NodeId) : Except EditError Ast := do
  ast.check child
  ast.check parent
  let listed := ast.children parent
  if !listed.contains child then .error (.notAChild parent child)
  else
    let left := listed.erase child
    let edited := ast.modify parent fun n => { n with children := left }
    if edited.parent? child = some parent && !left.contains child then
      return edited.modify child fun n => { n with parent := none }
    else return edited

end Ast

end SourceScribe
