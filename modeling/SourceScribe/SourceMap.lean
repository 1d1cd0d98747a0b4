import SourceScribe.Json.Printer
import SourceScribe.Text.Vlq

/-!
# Source maps

A recorder takes down, line by line of a generated text, which column stems
from which place of which source. The finished map, in version 3 of the
format, lists the sources in the order of their names and writes each line as
segments of variable length quantities. All numbers of a segment are
differences: its column to the segment in front of it in the same line, its
source, line and column to the last segment that has them, in any line.
-/

namespace SourceScribe

/-- Why a recorder refuses a segment. -/
inductive MappingError where
  /-- There is no line to put it in. -/
  | noLine
  /-- The source was not added. -/
  | unknownSource (url : String)
  /-- The segment lies in front of the last one. -/
  | outOfOrder (column lastColumn : Nat)
  /-- A source is named without a place in it. -/
  | missingLocation
deriving DecidableEq, Repr

/-- The wording of a refusal. -/
def MappingError.message : MappingError → String
  | .noLine => "a line must be added before mappings can be added"
  | .unknownSource url => "unknown source file \"" ++ url ++ "\""
  | .outOfOrder column lastColumn =>
    "mapping at column " ++ toString column ++ " is before column " ++ toString lastColumn
  | .missingLocation => "a source location must be given with a source url"

/-- A place in a source. -/
structure Origin where
  /-- The name of the source. -/
  url : String
  /-- The line, from zero on. -/
  line : Nat
  /-- The column, from zero on. -/
  column : Nat
deriving DecidableEq, Repr

/-- A column of the generated text and the place that it stems from. -/
structure Segment where
  /-- The column, from zero on. -/
  column : Nat
  /-- The place that it stems from. -/
  origin : Option Origin
deriving DecidableEq, Repr

/-- A finished map. -/
structure SourceMap where
  /-- The version of the format. -/
  version : UInt32 := 3
  /-- The name of the generated file. -/
  file : Option String
  /-- What stands in front of the names of the sources. -/
  root : String := ""
  /-- The names of the sources. -/
  sources : List String
  /-- The texts of the sources, where they are known. -/
  contents : List (Option String)
  /-- The segments of all lines. -/
  mappings : String
deriving DecidableEq, Repr

namespace SourceMap

/-- The map as an object, its version first. -/
def toValue (m : SourceMap) : Json.Value :=
  .object ([("version", .ofNat m.version.toNat)] ++ Json.optionalMember "file" .string m.file ++
    [("sourceRoot", .string m.root), ("sources", .array (m.sources.map .string)),
      ("sourcesContent", .array (m.contents.map (.ofOption .string))),
      ("mappings", .string m.mappings)])

/-- What a comment with a map in it starts with. -/
def commentStart : String := "//# sourceMappingURL=data:application/json;base64,"

/-- A line comment that holds the map. -/
def comment (m : SourceMap) : String := commentStart ++ Text.Base64.ofText m.toValue.compact

/-- What takes down the segments of a generated text. -/
structure Recorder where
  /-- The name of the generated file. -/
  file : Option String
  /-- The sources and their texts, in the order in which they were added. -/
  sources : List (String × Option String) := []
  /-- The segments of the finished lines. -/
  finished : Array (Array Segment) := #[]
  /-- The segments of the last line, if there is a line. -/
  current : Option (Array Segment) := none
  /-- The column of the last segment of the last line. -/
  lastColumn : Nat := 0
  /-- Whether there is a segment. -/
  hasMappings : Bool := false
deriving DecidableEq, Repr

namespace Recorder

/-- Adds a source; the text that is given first is kept. -/
def addSource (r : Recorder) (url : String) (content : Option String) : Recorder :=
  if (r.sources.lookup url).isSome then r else { r with sources := r.sources ++ [(url, content)] }

/-- Begins a line. -/
def addLine (r : Recorder) : Recorder :=
  { r with
    finished := match r.current with
      | none => r.finished
      | some line => r.finished.push line
    current := some #[]
    lastColumn := 0 }

/-- Begins a number of lines. -/
def addLines (r : Recorder) : Nat → Recorder
  | 0 => r
  | n + 1 => r.addLine.addLines n

/-- The place that a segment is given, if it is given one that can be. -/
def origin (r : Recorder) (url : Option String) (line column : Option Nat) :
    Except MappingError (Option Origin) :=
  match url, line, column with
  | none, _, _ => .ok none
  | some url, some line, some column =>
    if (r.sources.lookup url).isSome then .ok (some ⟨url, line, column⟩)
    else .error (.unknownSource url)
  | some _, _, _ => .error .missingLocation

/-- Adds a segment to the last line. -/
def addMapping (r : Recorder) (column : Nat) (url : Option String)
    (sourceLine sourceColumn : Option Nat) : Except MappingError Recorder :=
  match r.current with
  | none => .error .noLine
  | some segments =>
    if column < r.lastColumn then .error (.outOfOrder column r.lastColumn)
    else do
      let origin ← r.origin url sourceLine sourceColumn
      return { r with
        current := some (segments.push ⟨column, origin⟩)
        lastColumn := column
        hasMappings := true }

/-- The lines, in order. -/
def lines (r : Recorder) : List (List Segment) :=
  (r.finished.toList ++ r.current.toList).map Array.toList

/-- The sources in the order of their names. -/
def sorted (r : Recorder) : List (String × Option String) :=
  r.sources.mergeSort fun a b => decide (a.1 ≤ b.1)

/-- The numbers to which the next differences refer. -/
structure Reference where
  /-- The number of the last source. -/
  source : Int64 := 0
  /-- The last line. -/
  line : Int64 := 0
  /-- The last column in a source. -/
  column : Int64 := 0

/-- One segment: the difference of its column, and of its place if it has one. -/
def encodeSegment (names : List String) (lastColumn : Int64) (last : Reference) (s : Segment) :
    List Char × Reference :=
  let start := Text.Vlq.encode (.ofNat s.column - lastColumn)
  match s.origin with
  | none => (start, last)
  | some o =>
    let source := Int64.ofNat (names.idxOf o.url)
    let next : Reference := ⟨source, .ofNat o.line, .ofNat o.column⟩
    (start ++ Text.Vlq.encode (next.source - last.source) ++
      Text.Vlq.encode (next.line - last.line) ++ Text.Vlq.encode (next.column - last.column), next)

/-- The segments of a line, with commas between them. -/
def encodeLine (names : List String) :
    Bool → Int64 → Reference → List Segment → List Char × Reference
  | _, _, last, [] => ([], last)
  | first, lastColumn, last, s :: rest =>
    let (text, last) := encodeSegment names lastColumn last s
    let (more, last) := encodeLine names false (.ofNat s.column) last rest
    ((if first then [] else [',']) ++ text ++ more, last)

/-- The lines, with semicolons between them. -/
def encodeLines (names : List String) : Bool → Reference → List (List Segment) → List Char
  | _, _, [] => []
  | first, last, line :: rest =>
    let (text, last) := encodeLine names true 0 last line
    (if first then [] else [';']) ++ text ++ encodeLines names false last rest

/-- The finished map, unless no segment was added. -/
def finish (r : Recorder) : Option SourceMap :=
  if r.hasMappings then
    let sources := r.sorted
    let names := sources.map Prod.fst
    some {
      file := r.file
      sources := names
      contents := sources.map Prod.snd
      mappings := String.ofList (encodeLines names true {} r.lines) }
  else none

end Recorder

end SourceMap

end SourceScribe
