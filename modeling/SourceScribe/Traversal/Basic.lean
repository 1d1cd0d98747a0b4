import SourceScribe.Traversal.Error
import SourceScribe.Traversal.Registry

/-!
# Traversals

A traversal enters nodes depth first. A node that is entered writes its
script into a buffer of its own, which the node that asked for it appends to
its own buffer. The traversal remembers the nodes that have been entered, in
order, and the path of those that are being written: a node on the path is a
cycle, and the path may not grow beyond the limit of the options.

A failed step keeps what it has done so far: the nodes it has entered, and
the text that it has appended.
-/

namespace SourceScribe

/-- What a traversal works on. -/
structure Request where
  /-- The tree. -/
  ast : Ast
  /-- The visitors. -/
  registry : Registry
  /-- The options. -/
  options : Options

/-- How far a traversal has come. -/
structure Progress where
  /-- The nodes that have been entered, in order. -/
  visited : Array NodeId := #[]
  /-- The nodes that are being written, the innermost first. -/
  path : List NodeId := []
deriving DecidableEq, Repr

namespace Progress

/-- Goes into a node; the first time it is noted. -/
def enter (p : Progress) (id : NodeId) : Progress where
  visited := if p.visited.contains id then p.visited else p.visited.push id
  path := id :: p.path

/-- Leaves the innermost node. -/
def leave (p : Progress) : Progress := { p with path := p.path.tail }

end Progress

/-- A traversal and the buffer into which it writes. -/
structure Frame where
  /-- How far the traversal has come. -/
  progress : Progress
  /-- The buffer. -/
  buffer : Buffer
deriving DecidableEq, Repr

/-- A step of a traversal. -/
abbrev Stepping := EStateM GenerateError Progress

/-- A step of a traversal that writes into a buffer. -/
abbrev Writing := EStateM GenerateError Frame

/-- Writes a node at a level of indentation into a buffer of its own, or
nothing when the node may not be entered. -/
abbrev Renderer := NodeId → Nat → Stepping (Option Buffer)

namespace Request

/-- A path with the kinds of its nodes, the outermost first. -/
def pathOf (q : Request) (path : List NodeId) : NodePath :=
  path.reverse.filterMap fun id => (q.ast.tag? id).map fun tag => (id, tag)

/-- How far a traversal has come, for those that want to know. -/
def standing (q : Request) (p : Progress) : Standing :=
  ⟨q.pathOf p.path, p.path.length, p.visited.size⟩

/-- The error for a child that was written elsewhere: it is a fault of the
innermost node that is being written, or of the child itself if none is. -/
def alreadyGenerated (q : Request) (p : Progress) (slot : String) (child : NodeId) :
    GenerateError :=
  let owner := p.path.head?.getD child
  match q.ast.tag? owner, q.ast.tag? child with
  | some ownerTag, some tag => .malformed owner ownerTag (.alreadyGenerated slot tag child) []
  | _, _ => .unknownNode child (q.pathOf p.path)

end Request

namespace Mark

/-- Writes a mark. -/
def write (m : Mark) (b : Buffer) : Buffer :=
  match m with
  | .text value => b.print value
  | .newline => b.newline

/-- Writes marks, one after the other. -/
def writeAll (ms : List Mark) (b : Buffer) : Buffer := ms.foldl (fun b m => m.write b) b

end Mark

/-- Appends a child of a group, with what stands in front of it and behind it. -/
def Arrangement.place (arrangement : Arrangement) (blankLines : Bool) (written : Nat)
    (previous current : Option Tag) (child b : Buffer) : Buffer :=
  Mark.writeAll arrangement.after
    ((Mark.writeAll (arrangement.before blankLines written previous current) b).append child)

namespace Writing

/-- Changes the buffer. -/
def onBuffer (change : Buffer → Buffer) : Writing Unit :=
  modify fun f => { f with buffer := change f.buffer }

/-- Writes a child into a buffer of its own, at the level of the buffer. -/
def child (render : Renderer) (id : NodeId) : Writing (Option Buffer) := fun f =>
  match render id f.buffer.indent f.progress with
  | .ok result progress => .ok result { f with progress := progress }
  | .error e progress => .error e { f with progress := progress }

/-- Writes a child and appends it; tells whether the child could be entered. -/
def emit (render : Renderer) (id : NodeId) : Writing Bool := do
  match ← child render id with
  | some written =>
    onBuffer (·.append written)
    pure true
  | none => pure false

/-- Writes a child that must be written here. -/
def required (q : Request) (render : Renderer) (slot : String) (id : NodeId) : Writing Unit := do
  if !(← emit render id) then
    let f ← get
    throw (q.alreadyGenerated f.progress slot id)

/-- Writes children that must be written here, with the text between them. -/
def requiredSeparated (q : Request) (render : Renderer) (slot separator : String) :
    List NodeId → Writing Unit
  | [] => pure ()
  | id :: rest => do
    required q render slot id
    rest.forM fun next => do
      onBuffer (·.print separator)
      required q render slot next

/-- Writes the children of a group, after some of them have been written;
returns the number of all that are written. -/
def groupFrom (q : Request) (render : Renderer) (arrangement : Arrangement) :
    Nat → Option Tag → List NodeId → Writing Nat
  | written, _, [] => pure written
  | written, previous, id :: rest => do
    match ← child render id with
    | none => groupFrom q render arrangement written previous rest
    | some buffer =>
      let current := q.ast.tag? id
      onBuffer (arrangement.place q.options.blankLineBetweenDefinitions written previous current
        buffer)
      groupFrom q render arrangement (written + 1) current rest

/-- Writes the children of a group; returns the number of those written. -/
def group (q : Request) (render : Renderer) (arrangement : Arrangement) (ids : List NodeId) :
    Writing Nat := groupFrom q render arrangement 0 none ids

/-- Writes the children of a group between braces, one level further in;
returns the number of those written. -/
def braced (q : Request) (render : Renderer) (arrangement : Arrangement) (ids : List NodeId) :
    Writing Nat := do
  onBuffer (·.println "\x7b")
  onBuffer Buffer.deeper
  let written ← group q render arrangement ids
  onBuffer Buffer.shallower
  onBuffer (·.print "\x7d")
  return written

/-- Writes children between braces, each on a line of its own; returns the
number of those written. -/
def block (q : Request) (render : Renderer) (ids : List NodeId) : Writing Nat :=
  braced q render .lines ids

/-- Writes a piece of the script of a node. -/
def piece (q : Request) (render : Renderer) (owner : NodeId) (tag : Tag) : Piece → Writing Unit
  | .text value => onBuffer (·.print value)
  | .newline => onBuffer Buffer.newline
  | .required slot id => required q render slot id
  | .group arrangement ids => discard (group q render arrangement ids)
  | .braced arrangement ids => discard (braced q render arrangement ids)
  | .standing describe => do
    let f ← get
    onBuffer (·.print (describe (q.standing f.progress)))
  | .reject fault => throw (.malformed owner tag fault [])

/-- Writes the script of a node. -/
def script (q : Request) (render : Renderer) (owner : NodeId) (tag : Tag) :
    Script → Writing Unit
  | [] => pure ()
  | p :: rest => do
    piece q render owner tag p
    script q render owner tag rest

end Writing

namespace Request

/-- Looks at a node before it is written: finds it and its visitor, or nothing
when the visitor leaves it out. The first node of a traversal needs no parent
link. -/
def gate (q : Request) (first : Bool) (id : NodeId) (p : Progress) :
    Except GenerateError (Option (Node × Visitor)) :=
  match q.ast.node? id with
  | none => .error (.unknownNode id (q.pathOf p.path))
  | some node =>
    if p.path.contains id then .error (.cycleDetected id (q.pathOf (id :: p.path)))
    else if q.options.maxDepth ≤ p.path.length then
      .error (.depthExceeded id q.options.maxDepth (q.pathOf (id :: p.path)))
    else if !first && node.parent.isNone then
      .error (.missingParent id node.tag (q.pathOf (id :: p.path)))
    else
      match q.registry.find? node.tag with
      | none => .error (.unsupported node.tag)
      | some visitor =>
        .ok (if visitor.guard.admits p.visited id then some (node, visitor) else none)

/-- Enters a node: its script is written into a new buffer while the node is
on the path. A failure without path gets the one up to this node. -/
def enter (q : Request) (render : Renderer) (visitor : Visitor) (id : NodeId) (node : Node)
    (indent : Nat) : Stepping (Option Buffer) := fun p =>
  let setting : Setting := ⟨q.ast, q.options, id, node⟩
  let start : Frame := ⟨p.enter id, .ofNode id indent q.options.indent⟩
  match Writing.script q render id node.tag (visitor.rule setting) start with
  | .ok () f => .ok (some f.buffer) f.progress.leave
  | .error e f => .error (e.within (q.pathOf f.progress.path)) f.progress.leave

/-- Writes a node, with at most the given number of nodes below each other. -/
def render (q : Request) : Nat → Bool → Renderer
  | 0, _, id, _ => fun p => .error (.cycleDetected id (q.pathOf (id :: p.path))) p
  | limit + 1, first, id, indent => fun p =>
    match q.gate first id p with
    | .error e => .error e p
    | .ok none => .ok none p
    | .ok (some (node, visitor)) => q.enter (q.render limit false) visitor id node indent p

/-- The number of nodes that can lie below each other, and one more: a path
names no node twice and only nodes that exist. -/
def nesting (q : Request) : Nat := q.ast.size + 1

/-- Writes a child. -/
def child (q : Request) : Renderer := q.render q.nesting false

/-- Writes a node as the first of a traversal. A node that may not be entered
leaves an empty buffer. -/
def run (q : Request) (id : NodeId) : Stepping Buffer := do
  return (← q.render q.nesting true id 0).getD (.ofNode id 0 q.options.indent)

end Request

end SourceScribe
