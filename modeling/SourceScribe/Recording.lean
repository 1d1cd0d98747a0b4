import SourceScribe.SourceMap

/-!
# Recording in place

The calls of a recorder as programs that change a recording step by step. A recording
keeps its lines in one array, the last of which is written on, and beside them the column
of the last segment and whether there is a segment. What a program has changed stays
changed when it stops later on, so a refusal leaves the recording as it was only if
nothing has been changed before it. That a segment has a source with a number is up to
the calls; a map gives a source without one a number of its own.
-/

namespace SourceScribe.SourceMap

/-- What has been recorded. -/
structure Recording where
  /-- The name of the generated file. -/
  file : Option String
  /-- The sources and their texts, each source once. -/
  sources : List (String × Option String) := []
  /-- The segments of the lines, in order. -/
  lines : Array (Array Segment) := #[]
  /-- The column in front of which no segment may begin. -/
  lastColumn : Nat := 0
  /-- Whether there is a segment. -/
  hasMappings : Bool := false
deriving DecidableEq, Repr

/-- A program that changes a recording in place. -/
abbrev Recording.Program := EStateM MappingError Recording

namespace Recording

/-- Whether a source was added. -/
def knows (r : Recording) (url : String) : Bool := (r.sources.lookup url).isSome

/-- Adds a source; the text that is given first is kept. -/
def addSource (url : String) (content : Option String) : Program Unit :=
  modify fun r => if r.knows url then r else { r with sources := r.sources ++ [(url, content)] }

/-- Begins a line. -/
def addLine : Program Unit := do
  modify fun r => { r with lines := r.lines.push #[] }
  modify fun r => { r with lastColumn := 0 }

/-- The place of a segment; it is refused when its source was not added, or when it is
missing beside a source. -/
def place (url : Option String) (line column : Option Nat) : Program (Option Origin) := do
  match url, line, column with
  | none, _, _ => return none
  | some url, some line, some column =>
    if !(← get).knows url then throw (.unknownSource url)
    return some ⟨url, line, column⟩
  | some _, _, _ => throw .missingLocation

/-- Adds a segment to the last line. -/
def addMapping (column : Nat) (url : Option String) (sourceLine sourceColumn : Option Nat) :
    Program Unit := do
  if (← get).lines.isEmpty then throw .noLine
  if column < (← get).lastColumn then throw (.outOfOrder column (← get).lastColumn)
  let origin ← place url sourceLine sourceColumn
  modify fun r => { r with hasMappings := true }
  modify fun r => { r with lastColumn := column }
  modify fun r =>
    { r with lines := r.lines.modify (r.lines.size - 1) fun line => line.push ⟨column, origin⟩ }

/-- The numbers to which the next differences refer. -/
structure Tally where
  /-- The column of the last segment of the line. -/
  column : Int64 := 0
  /-- The numbers of the last place. -/
  place : Recorder.Reference := {}

/-- Writes a segment; sources are written as numbers. -/
def writeSegment (number : String → Nat) (s : Segment) : StateM Tally (List Char) := do
  let last ← get
  let start := Text.Vlq.encode (.ofNat s.column - last.column)
  modify fun t => { t with column := .ofNat s.column }
  match s.origin with
  | none => return start
  | some o =>
    let next : Recorder.Reference := ⟨.ofNat (number o.url), .ofNat o.line, .ofNat o.column⟩
    modify fun t => { t with place := next }
    return start ++ Text.Vlq.encode (next.source - last.place.source) ++
      Text.Vlq.encode (next.line - last.place.line) ++
      Text.Vlq.encode (next.column - last.place.column)

/-- Writes the segments of a line, with commas between them. -/
def writeLine (number : String → Nat) (line : Array Segment) : StateM Tally (List Char) := do
  modify fun t => { t with column := 0 }
  let segments ← line.toList.mapM (writeSegment number)
  return [','].intercalate segments

/-- Writes the lines, with semicolons between them. -/
def writeLines (number : String → Nat) (lines : Array (Array Segment)) :
    StateM Tally (List Char) := do
  let texts ← lines.toList.mapM (writeLine number)
  return [';'].intercalate texts

/-- The map of a recording, unless there is no segment. A source that is not among the
others gets the given number. -/
def finishWith (unknown : Nat) (r : Recording) : Option SourceMap :=
  if r.hasMappings then
    let names := (r.sources.map Prod.fst).mergeSort fun a b => decide (a ≤ b)
    let number := fun url => (names.idxOf? url).getD unknown
    some {
      file := r.file
      sources := names
      contents := names.map fun url => (r.sources.lookup url).join
      mappings := String.ofList ((writeLines number r.lines).run {}).1 }
  else none

/-- The map of a recording. -/
def finish (r : Recording) : Option SourceMap := r.finishWith 0

end Recording

end SourceScribe.SourceMap
