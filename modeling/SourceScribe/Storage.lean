import SourceScribe.Buffer

/-!
# Buffers in storage

A buffer is stored as an array of lines, the last of which is written on. A stored line
keeps the texts of its parts, the nodes that wrote them and the number of their bytes
side by side. That there is a line, that every text has its node and that the number is
right is up to the operations; a buffer without lines gets one when it is written on.
Several buffers are stored under numbers in the order in which they are made, and one that
is appended to another is used up.
-/

namespace SourceScribe

/-- A line in storage. -/
structure StoredLine where
  /-- The level of indentation. -/
  indent : Nat
  /-- The texts of the parts, in order. -/
  texts : Array String := #[]
  /-- The nodes that wrote the parts, in order. -/
  origins : Array (Option NodeId) := #[]
  /-- The number of bytes of the texts. -/
  length : Nat := 0
deriving DecidableEq, Repr

namespace StoredLine

/-- Whether the line has no parts. -/
def isEmpty (l : StoredLine) : Bool := l.texts.isEmpty

/-- Adds a part at the end. -/
def push (l : StoredLine) (text : String) (origin : Option NodeId) : StoredLine :=
  { l with
    texts := l.texts.push text
    origins := l.origins.push origin
    length := l.length + text.utf8ByteSize }

/-- Adds the parts of another line at the end. -/
def join (l other : StoredLine) : StoredLine :=
  { l with
    texts := l.texts ++ other.texts
    origins := l.origins ++ other.origins
    length := l.length + other.length }

/-- The text of a line; an empty line has no indentation. -/
def text (unit : String) (l : StoredLine) : String :=
  if l.isEmpty then "" else indentation unit l.indent ++ String.join l.texts.toList

/-- The line with the node and the text of a part together. -/
def line (l : StoredLine) : Line :=
  { indent := l.indent, parts := Array.zipWith Part.mk l.texts l.origins, width := l.length }

end StoredLine

/-- A buffer in storage. -/
structure StoredBuffer where
  /-- The lines, in order. -/
  lines : Array StoredLine
  /-- The level of indentation of new lines. -/
  indent : Nat
  /-- The text of one level of indentation. -/
  unit : String
  /-- The node that writes. -/
  origin : Option NodeId := none
deriving DecidableEq, Repr

namespace StoredBuffer

/-- An empty buffer at a level of indentation. -/
def ofIndent (indent : Nat) (unit : String) : StoredBuffer :=
  { lines := #[{ indent := indent }], indent := indent, unit := unit }

/-- An empty buffer in which a node writes. -/
def ofNode (origin : NodeId) (indent : Nat) (unit : String) : StoredBuffer :=
  { ofIndent indent unit with origin := some origin }

/-- The buffer with a line to write on. -/
def grounded (b : StoredBuffer) : StoredBuffer :=
  if b.lines.isEmpty then { b with lines := #[{ indent := b.indent }] } else b

/-- Changes the last line. -/
def onLast (b : StoredBuffer) (change : StoredLine → StoredLine) : StoredBuffer :=
  { b with lines := b.grounded.lines.modify (b.grounded.lines.size - 1) change }

/-- Writes at the end of the last line; empty text leaves no part. -/
def print (b : StoredBuffer) (text : String) : StoredBuffer :=
  if text.isEmpty then b else b.onLast fun l => l.push text b.origin

/-- Begins a new line. -/
def newline (b : StoredBuffer) : StoredBuffer :=
  { b with lines := b.lines.push { indent := b.indent } }

/-- Writes and begins a new line. -/
def println (b : StoredBuffer) (text : String) : StoredBuffer := (b.print text).newline

/-- Whether the last line is empty. -/
def lineIsEmpty (b : StoredBuffer) : Bool :=
  match b.lines.back? with
  | none => true
  | some last => last.isEmpty

/-- Whether nothing has been written. -/
def isEmpty (b : StoredBuffer) : Bool := b.lines.all StoredLine.isEmpty

/-- The number of bytes of the last line, with its indentation. -/
def lineLength (b : StoredBuffer) : Nat :=
  match b.lines.back? with
  | none => 0
  | some last => last.indent * b.unit.utf8ByteSize + last.length

/-- Goes to a level; an empty last line goes along. -/
def relevel (b : StoredBuffer) (level : Nat) : StoredBuffer :=
  let b := { b with indent := level }
  if b.lineIsEmpty then b.onLast fun l => { l with indent := level } else b

/-- Goes one level in; an empty last line goes along. -/
def deeper (b : StoredBuffer) : StoredBuffer := b.relevel (b.indent + 1)

/-- Goes one level out, if there is one; an empty last line goes along. -/
def shallower (b : StoredBuffer) : StoredBuffer := b.relevel (b.indent - 1)

/-- Removes the last line if it is empty and not the only one. -/
def dropEmptyLine (b : StoredBuffer) : StoredBuffer :=
  if 1 < b.lines.size && b.lineIsEmpty then { b with lines := b.lines.pop } else b

/-- Appends a finished buffer. -/
def append (b child : StoredBuffer) : StoredBuffer :=
  match child.lines.toList with
  | [] => b
  | first :: rest =>
    let begun := b.onLast fun l => l.join first
    { begun with lines := begun.lines ++ rest }

/-- The text of the buffer. -/
def source (b : StoredBuffer) : String :=
  String.intercalate "\n" (b.lines.toList.map (StoredLine.text b.unit))

/-- The buffer with its last line apart. -/
def buffer (b : StoredBuffer) : Buffer :=
  { finished := b.grounded.lines.pop.map StoredLine.line
    current := (b.grounded.lines.back?.map StoredLine.line).getD { indent := b.indent }
    indent := b.indent
    unit := b.unit
    origin := b.origin }

end StoredBuffer

/-- What is done to one buffer. -/
inductive BufferEdit where
  /-- Writes at the end of the last line. -/
  | print (text : String)
  /-- Writes and begins a new line. -/
  | println (text : String)
  /-- Begins a new line. -/
  | newline
  /-- Goes one level in. -/
  | deeper
  /-- Goes one level out. -/
  | shallower
  /-- Removes the last line if it is empty and not the only one. -/
  | dropEmptyLine
deriving DecidableEq, Repr

/-- Does an edit in storage. -/
def BufferEdit.perform (b : StoredBuffer) : BufferEdit → StoredBuffer
  | .print text => b.print text
  | .println text => b.println text
  | .newline => b.newline
  | .deeper => b.deeper
  | .shallower => b.shallower
  | .dropEmptyLine => b.dropEmptyLine

/-- A call on buffers with numbers. -/
inductive BufferCall where
  /-- Makes an empty buffer at a level of indentation. -/
  | ofIndent (indent : Nat) (unit : String)
  /-- Makes an empty buffer in which a node writes. -/
  | ofNode (origin : NodeId) (indent : Nat) (unit : String)
  /-- Edits a buffer. -/
  | edit (target : Nat) (edit : BufferEdit)
  /-- Appends a buffer, which is used up, to another. -/
  | append (target child : Nat)
deriving DecidableEq, Repr

/-- Buffers under their numbers; those that are used up are gone. -/
abbrev Store := Array (Option StoredBuffer)

namespace Store

/-- The buffer of a number, unless it is not there or used up. -/
def buffer? (s : Store) (number : Nat) : Option StoredBuffer := s[number]?.join

/-- Carries out a call. A buffer that is not there is left alone, and nothing is appended
that is not there. -/
def perform (s : Store) : BufferCall → Store
  | .ofIndent indent unit => s.push (some (.ofIndent indent unit))
  | .ofNode origin indent unit => s.push (some (.ofNode origin indent unit))
  | .edit target edit => s.modify target fun b => b.map edit.perform
  | .append target child =>
    match s.buffer? child with
    | none => s
    | some taken => (s.setIfInBounds child none).modify target fun b => b.map (·.append taken)

/-- Carries out calls, one after the other. -/
def run (s : Store) (calls : List BufferCall) : Store := calls.foldl perform s

end Store

end SourceScribe
