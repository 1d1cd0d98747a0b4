/-!
# Paths

A path is a text. Slashes divide it into segments, and what it leads through
are its components: the root if it starts with a slash, and the segments that
are neither empty nor a single dot. A dot at the very start is a component
too. Two paths lead the same way when their components are equal, however
they are spelled. The parent of a path keeps the spelling of what it keeps.
-/

namespace SourceScribe

/-- The way to a file or a directory. -/
structure Path where
  /-- The way as it is written. -/
  text : String
deriving DecidableEq, Repr, Inhabited

namespace Path

/-- A path of more bytes leads nowhere. -/
def maxBytes : Nat := 4095

/-- A name of more bytes leads nowhere. -/
def maxNameBytes : Nat := 255

/-- One step on the way. -/
inductive Component where
  /-- The start of an absolute path. -/
  | root
  /-- The dot at the start of a relative path. -/
  | here
  /-- The directory above. -/
  | up
  /-- What has a name in a directory. -/
  | name (text : List Char)
deriving DecidableEq, Repr

/-- What stands between the slashes. -/
def segments (p : Path) : List (List Char) := p.text.toList.splitOn '/'

/-- The path whose segments are given. -/
def ofSegments (segments : List (List Char)) : Path := ⟨.ofList (['/'].intercalate segments)⟩

/-- Whether a segment is no step, unless it is the first. -/
def isBlank (segment : List Char) : Bool := segment == [] || segment == ['.']

/-- The step of a segment behind the first, if it is one. -/
def stepOf? (segment : List Char) : Option Component :=
  if isBlank segment then none
  else if segment = ['.', '.'] then some .up
  else some (.name segment)

/-- The step of the first segment, if it is one; the flag says whether a slash
follows. -/
def firstStepOf? (segment : List Char) (followed : Bool) : Option Component :=
  if segment = [] then if followed then some .root else none
  else if segment = ['.'] then some .here
  else stepOf? segment

/-- The steps of a path. -/
def components (p : Path) : List Component :=
  match p.segments with
  | [] => []
  | first :: rest => (firstStepOf? first (!rest.isEmpty)).toList ++ rest.filterMap stepOf?

/-- Whether two paths lead the same way. -/
def sameWay (p q : Path) : Bool := p.components == q.components

/-- Whether a path starts at the root. -/
def isAbsolute (p : Path) : Bool := p.text.toList.head? == some '/'

/-- The name that a path ends with, if it ends with one. -/
def fileName? (p : Path) : Option (List Char) :=
  match p.components.getLast? with
  | some (.name text) => some text
  | _ => none

/-- A name without its last dot and what follows it; a dot at its start does
not count. -/
def stemOf (name : List Char) : List Char :=
  match (name.reverse.dropWhile (· ≠ '.')).tail.reverse with
  | [] => name
  | stem => stem

/-- The name that a path ends with, without its extension. -/
def stem? (p : Path) : Option (List Char) := p.fileName?.map stemOf

/-- The path without its last step, unless it is the root or has no step. -/
def parent? (p : Path) : Option Path :=
  match p.segments with
  | [] => none
  | first :: rest =>
    match rest.reverse.dropWhile isBlank with
    | _ :: kept =>
      match first, kept.dropWhile isBlank with
      | [], [] => some ⟨"/"⟩
      | first, kept => some (ofSegments (first :: kept.reverse))
    | [] => if first = [] then none else some ⟨""⟩

/-- The path and everything above it, innermost first, without the empty path;
the number bounds how many there are. -/
def ancestors : Nat → Path → List Path
  | 0, _ => []
  | bound + 1, p =>
    if p.text = "" then []
    else
      match p.parent? with
      | some above => p :: ancestors bound above
      | none => [p]

/-- The path and everything above it, innermost first, without the empty
path. -/
def lineage (p : Path) : List Path := ancestors (p.text.length + 1) p

/-- A path followed by another; an absolute one stands for itself. -/
def join (p q : Path) : Path :=
  if q.isAbsolute then q
  else if p.text = "" || p.text.toList.getLast? = some '/' then ⟨p.text ++ q.text⟩
  else ⟨p.text ++ "/" ++ q.text⟩

end Path

end SourceScribe
