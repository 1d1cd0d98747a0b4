import SourceScribe.Ast.Basic

/-!
# Buffers of indented lines

A buffer holds the text that one node writes, line by line. Every part of a
line remembers the node that wrote it. A line is indented by the level that
the buffer has when the line begins, or by a later one as long as the line is
empty. A finished buffer is appended to another: its first line goes on where
the other stands, and its other lines keep their own indentation.
-/

namespace SourceScribe

/-- The text of so many levels of indentation. Levels without text are not
counted out, however many there are. -/
def indentation (unit : String) (levels : Nat) : String :=
  if unit.isEmpty then "" else String.join (List.replicate levels unit)

/-- Joining empty texts leaves nothing. -/
theorem join_replicate_empty (n : Nat) : String.join (List.replicate n "") = "" := by
  induction n with
  | zero => rfl
  | succ n ih => simpa [List.replicate_succ, String.join_cons] using ih

/-- Each level of indentation is one unit. -/
theorem indentation_eq (unit : String) (levels : Nat) :
    indentation unit levels = String.join (List.replicate levels unit) := by
  unfold indentation
  split
  next h => rw [String.isEmpty_iff.1 h, join_replicate_empty]
  next => rfl

/-- A piece of text and the node that wrote it. -/
structure Part where
  /-- The text. -/
  text : String
  /-- The node that wrote the text. -/
  origin : Option NodeId
deriving DecidableEq, Repr

/-- A line of a buffer. -/
structure Line where
  /-- The level of indentation. -/
  indent : Nat
  /-- The parts, in order. -/
  parts : Array Part := #[]
  /-- The number of bytes of the parts. -/
  width : Nat := 0
deriving DecidableEq, Repr

namespace Line

/-- Whether the line has no parts. -/
def isEmpty (l : Line) : Bool := l.parts.isEmpty

/-- Adds a part at the end. -/
def push (l : Line) (part : Part) : Line :=
  { l with parts := l.parts.push part, width := l.width + part.text.utf8ByteSize }

/-- Adds the parts of another line at the end. -/
def join (l other : Line) : Line :=
  { l with parts := l.parts ++ other.parts, width := l.width + other.width }

/-- Indents the line anew if it is still empty. -/
def reindent (l : Line) (indent : Nat) : Line :=
  if l.isEmpty then { l with indent := indent } else l

/-- The text of a line; an empty line has no indentation. -/
def text (unit : String) (l : Line) : String :=
  if l.isEmpty then ""
  else indentation unit l.indent ++ String.join (l.parts.toList.map Part.text)

end Line

/-- The text that one node writes. -/
structure Buffer where
  /-- The lines in front of the last, in order. -/
  finished : Array Line := #[]
  /-- The last line. -/
  current : Line
  /-- The level of indentation of new lines. -/
  indent : Nat
  /-- The text of one level of indentation. -/
  unit : String
  /-- The node that writes. -/
  origin : Option NodeId := none
deriving DecidableEq, Repr

namespace Buffer

/-- One level of indentation when nothing else is asked for. -/
def defaultUnit : String := "    "

/-- An empty buffer at a level of indentation. -/
def ofIndent (indent : Nat) (unit : String) : Buffer :=
  { current := { indent := indent }, indent := indent, unit := unit }

/-- An empty buffer in which a node writes. -/
def ofNode (origin : NodeId) (indent : Nat) (unit : String) : Buffer :=
  { ofIndent indent unit with origin := some origin }

/-- The lines, in order. -/
def lines (b : Buffer) : List Line := b.finished.toList ++ [b.current]

/-- Writes at the end of the last line; empty text leaves no part. -/
def print (b : Buffer) (text : String) : Buffer :=
  if text.isEmpty then b else { b with current := b.current.push ⟨text, b.origin⟩ }

/-- Begins a new line. -/
def newline (b : Buffer) : Buffer :=
  { b with finished := b.finished.push b.current, current := { indent := b.indent } }

/-- Writes and begins a new line. -/
def println (b : Buffer) (text : String) : Buffer := (b.print text).newline

/-- Goes one level in; an empty last line goes along. -/
def deeper (b : Buffer) : Buffer :=
  { b with indent := b.indent + 1, current := b.current.reindent (b.indent + 1) }

/-- Goes one level out, if there is one; an empty last line goes along. -/
def shallower (b : Buffer) : Buffer :=
  { b with indent := b.indent - 1, current := b.current.reindent (b.indent - 1) }

/-- Removes the last line if it is empty and not the only one. -/
def dropEmptyLine (b : Buffer) : Buffer :=
  match b.finished.back? with
  | none => b
  | some line =>
    if b.current.isEmpty then { b with finished := b.finished.pop, current := line } else b

/-- Appends a finished buffer. -/
def append (b child : Buffer) : Buffer :=
  match child.finished.toList with
  | [] => { b with current := b.current.join child.current }
  | first :: rest =>
    { b with finished := b.finished.push (b.current.join first) ++ rest, current := child.current }

/-- Whether the last line is empty. -/
def lineIsEmpty (b : Buffer) : Bool := b.current.isEmpty

/-- Whether nothing has been written. -/
def isEmpty (b : Buffer) : Bool := b.lines.all Line.isEmpty

/-- The number of bytes of the last line, with its indentation. -/
def lineLength (b : Buffer) : Nat := b.current.indent * b.unit.utf8ByteSize + b.current.width

/-- The text of the buffer. -/
def source (b : Buffer) : String := String.intercalate "\n" (b.lines.map (Line.text b.unit))

end Buffer

end SourceScribe
