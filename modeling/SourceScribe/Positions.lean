import SourceScribe.Buffer
import SourceScribe.SourceMap

/-!
# Where the parts of a buffer come from

Every part of a buffer stems from the place at which the node that wrote it
was read. A part with the same place as the last one that has a place adds
nothing to the map; a part whose node has no place adds nothing either. Columns
are counted in words of 64 bits, so that far enough out in a line the count
begins again at zero.
-/

namespace SourceScribe

/-- A recorder and the place of the last part that has one. -/
structure Tracking where
  /-- What has been taken down. -/
  recorder : SourceMap.Recorder
  /-- The place of the last part that has one. -/
  last : Option SourcePosition

namespace Tracking

/-- Takes down a part that begins at a column. -/
def part (ast : Ast) (column : Nat) (t : Tracking) (p : Part) : Except MappingError Tracking :=
  match ast.file, p.origin.bind ast.position? with
  | some file, some position =>
    if t.last = some position then .ok t
    else do
      let recorder := t.recorder.addSource file.url file.content
      return ⟨← recorder.addMapping column (some file.url) (some position.line)
        (some position.column), some position⟩
  | _, _ => .ok t

/-- A column as it is counted. -/
def counted (column : Nat) : Nat := column % Nat.pow 2 64

/-- Takes down the parts of a line from a column on. -/
def parts (ast : Ast) : Nat → Tracking → List Part → Except MappingError Tracking
  | _, t, [] => .ok t
  | column, t, p :: rest => do
    parts ast (counted (column + p.text.utf8ByteSize)) (← t.part ast column p) rest

/-- Takes down lines. -/
def lines (ast : Ast) (unit : String) : Tracking → List Line → Except MappingError Tracking
  | t, [] => .ok t
  | t, line :: rest => do
    let begun : Tracking := { t with recorder := t.recorder.addLine }
    let done ← begun.parts ast (counted (line.indent * unit.utf8ByteSize)) line.parts.toList
    lines ast unit done rest

end Tracking

namespace Buffer

/-- The lines that a map describes: all of them but an empty last one. -/
def mappedLines (b : Buffer) : List Line :=
  if b.current.isEmpty then b.finished.toList else b.lines

/-- Takes down where the parts of the buffer come from, in a file whose first
lines hold something else. -/
def track (b : Buffer) (ast : Ast) (file : String) (linesBefore : Nat) :
    Except MappingError SourceMap.Recorder := do
  let start : SourceMap.Recorder := { file := some file }
  let done ← Tracking.lines ast b.unit ⟨start.addLines linesBefore, none⟩ b.mappedLines
  return done.recorder

end Buffer

end SourceScribe
