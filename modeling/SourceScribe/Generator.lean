import SourceScribe.Positions
import SourceScribe.Traversal.Basic

/-!
# Generating source

A generator is a registry and options. Every request to it is a traversal of
its own.
-/

namespace SourceScribe

/-- A generated text and the map of where its parts come from. -/
structure Generated where
  /-- The text. -/
  source : String
  /-- The map, if any part has a place. -/
  map : Option SourceMap
deriving DecidableEq, Repr

/-- What generation needs besides the tree. -/
structure Generator where
  /-- The visitors. -/
  registry : Registry := .standard
  /-- The options. -/
  options : Options := {}

namespace Generator

/-- The buffer that a node leaves at the start of a traversal. -/
def render (g : Generator) (ast : Ast) (id : NodeId) : Except GenerateError Buffer :=
  let q : Request := ⟨ast, g.registry, g.options⟩
  match q.run id {} with
  | .ok buffer _ => .ok buffer
  | .error e _ => .error e

/-- The text of a node. -/
def generateNode (g : Generator) (ast : Ast) (id : NodeId) : Except GenerateError String := do
  return (← g.render ast id).source

/-- The root of a tree. -/
def rootOf (ast : Ast) : Except GenerateError NodeId :=
  match ast.root with
  | some root => .ok root
  | none => .error .noRoot

/-- The text of a tree. -/
def generate (g : Generator) (ast : Ast) : Except GenerateError String := do
  g.generateNode ast (← rootOf ast)

/-- The text of a tree and the map of a file with that text. -/
def generateWithMap (g : Generator) (ast : Ast) (file : String) :
    Except GenerateError Generated := do
  let buffer ← g.render ast (← rootOf ast)
  match buffer.track ast file 0 with
  | .ok recorder => return ⟨buffer.source, recorder.finish⟩
  | .error e => throw (.sourceMap e)

end Generator

end SourceScribe
