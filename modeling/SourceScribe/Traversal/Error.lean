import SourceScribe.Grammar.Script
import SourceScribe.SourceMap

/-!
# Why generation fails

An error names the node at fault and the path from the start of the traversal
to the node that was being written. The innermost node that fails fixes the
path.
-/

namespace SourceScribe

/-- Why generation fails. -/
inductive GenerateError where
  /-- The tree has no root. -/
  | noRoot
  /-- A node does not exist. -/
  | unknownNode (node : NodeId) (path : NodePath)
  /-- A child has no parent link. -/
  | missingParent (node : NodeId) (tag : Tag) (path : NodePath)
  /-- A node is malformed. -/
  | malformed (node : NodeId) (tag : Tag) (fault : Fault) (path : NodePath)
  /-- A node is its own descendant. -/
  | cycleDetected (node : NodeId) (path : NodePath)
  /-- A path is too long. -/
  | depthExceeded (node : NodeId) (limit : Nat) (path : NodePath)
  /-- Nothing says how nodes of the kind are written. -/
  | unsupported (tag : Tag)
  /-- The map of the generated text was refused. -/
  | sourceMap (error : MappingError)
deriving DecidableEq, Repr

/-- How a message shows a path. -/
def NodePath.text (path : NodePath) : String :=
  if path.isEmpty then "<root>"
  else String.intercalate " > " (path.map fun (id, tag) => tag.name ++ id.text)

namespace GenerateError

/-- The path of an error that carries one. -/
def path? : GenerateError → Option NodePath
  | .unknownNode _ path => some path
  | .missingParent _ _ path => some path
  | .malformed _ _ _ path => some path
  | .cycleDetected _ path => some path
  | .depthExceeded _ _ path => some path
  | _ => none

/-- The wording of an error without its path. -/
def summary : GenerateError → String
  | .noRoot => "AST has no root node"
  | .unknownNode node _ => "node " ++ node.text ++ " is not part of the AST"
  | .missingParent node tag _ => tag.name ++ node.text ++ " has no parent link"
  | .malformed node tag fault _ => "malformed " ++ tag.name ++ node.text ++ ": " ++ fault.message
  | .cycleDetected node _ =>
    "cycle detected: " ++ node.text ++ " is already on the active path"
  | .depthExceeded node limit _ =>
    "nesting deeper than " ++ toString limit ++ " at " ++ node.text
  | .unsupported tag => "no visitor registered for " ++ tag.name
  | .sourceMap error => "failed to build source map: " ++ error.message

/-- The wording of an error. -/
def message (e : GenerateError) : String :=
  match e.path? with
  | some path => e.summary ++ " (at " ++ NodePath.text path ++ ")"
  | none => e.summary

/-- Fixes the path of an error unless it is fixed already. -/
def within (e : GenerateError) (path : NodePath) : GenerateError :=
  match e with
  | .unknownNode node [] => .unknownNode node path
  | .missingParent node tag [] => .missingParent node tag path
  | .malformed node tag fault [] => .malformed node tag fault path
  | .cycleDetected node [] => .cycleDetected node path
  | .depthExceeded node limit [] => .depthExceeded node limit path
  | e => e

end GenerateError

end SourceScribe
