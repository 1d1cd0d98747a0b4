import SourceScribe.Files.Basic
import SourceScribe.Glob.Pattern

/-!
# Searching for files

A pattern for paths is a pattern for names between any two slashes. The search
starts at the working directory or at the root and takes the patterns one
after the other: a pattern without wildcards is looked up, any other is tried
on all names of the directory in ascending order. What is found in a directory
stands behind the directory and in front of the names that follow it. A
pattern that starts with a dot is also tried on the names for the directory
itself and the one above, which come first. A pattern for any number of
directories tries what follows it on every path, and stands for the
directories alone if nothing follows it.
-/

namespace SourceScribe.Glob

/-- What a search looks for. -/
structure Query where
  /-- Where the search starts. -/
  start : Path
  /-- The patterns for names. -/
  patterns : List (List Token)
  /-- Whether only directories are found. -/
  directoriesOnly : Bool

/-- The segments of a pattern; a slash at the end starts none. -/
def segments (pattern : List Char) : List (List Char) :=
  match pattern.splitOn '/' with
  | [] => []
  | parts => if parts.getLast? = some [] then parts.dropLast else parts

/-- What a pattern looks for. -/
def Query.ofPattern (pattern : String) : Except PatternError Query := do
  let chars := pattern.toList
  let _ ← tokens chars
  let absolute := chars.head? = some '/'
  let patterns ← (segments (if absolute then chars.tail else chars)).mapM tokens
  return ⟨⟨if absolute then "/" else "."⟩, patterns, chars.getLast? = some '/'⟩

/-- A directory that could not be listed. -/
structure ListingError where
  /-- The directory. -/
  path : Path
  /-- Why. -/
  fault : FileFault
deriving DecidableEq, Repr

/-- The wording of an error. -/
def ListingError.message (e : ListingError) : String :=
  "attempting to read `" ++ e.path.text ++ "` resulted in an error: " ++ e.fault.message

/-- The names that lead nowhere else than to a directory around. -/
def isSpecial (name : List Char) : Bool := name == ['.'] || name == ['.', '.']

/-- A path to something in the directory of another path; the working
directory is not named. -/
def inside (directory : Path) (name : List Char) : Path :=
  if directory.components = [.here] then ⟨.ofList name⟩ else directory.join ⟨.ofList name⟩

/-- The name of the directory itself and of the one above, if a pattern that
starts with a dot matches them; the latter is first. -/
def specialNames (pattern : List Token) : List (List Char) :=
  if pattern.head? = some (.char '.') then [['.', '.'], ['.']].filter (isMatch pattern) else []

section

variable {m : Type → Type} [Monad m] [FileSystem m]

/-- The outcome of a search, or a directory that could not be listed. -/
abbrev Finding (m : Type → Type) := ExceptT ListingError m (List Path)

/-- A path that was found, unless it is to be a directory and is none. -/
def accept (directoriesOnly : Bool) (p : Path) : Finding m := do
  if directoriesOnly && !(← FileSystem.isDirectory p) then return [] else return [p]

/-- The names in a directory, in ascending order. -/
def sortedNames (directory : Path) : ExceptT ListingError m (List String) := do
  match ← FileSystem.list directory with
  | .ok names => return names.mergeSort fun a b => decide (a ≤ b)
  | .error fault => throw ⟨directory, fault⟩

/-- Tries a pattern on the name of a path, and the patterns that follow it on
what lies below; `search` is the search below a path. -/
def onName (directoriesOnly : Bool) (search : List (List Token) → Path → Finding m)
    (pattern : List Token) (rest : List (List Token)) (p : Path) : Finding m := do
  match p.fileName? with
  | none => return []
  | some name =>
    if isMatch pattern name then
      if rest.isEmpty then accept directoriesOnly p else search rest p
    else return []

/-- Tries patterns on a path whose name the first of them has to match. -/
def onPath (directoriesOnly : Bool) (search : List (List Token) → Path → Finding m)
    (pattern : List Token) (rest : List (List Token)) (p : Path) : Finding m := do
  if isDeep pattern then
    let after := rest.dropWhile isDeep
    let isDirectory ← FileSystem.isDirectory p
    let own ← match after with
      | [] => pure (if isDirectory then [p] else [])
      | next :: more => onName directoriesOnly search next more p
    let below ← if isDirectory then search (pattern :: after) p else pure []
    return own ++ below
  else onName directoriesOnly search pattern rest p

/-- Searches below a path. Every step takes a pattern or makes the path longer,
and a path that is too long leads nowhere. -/
def searchBelow (directoriesOnly : Bool) : Nat → List (List Token) → Path → Finding m
  | 0, _, _ => pure []
  | _ + 1, [], _ => pure []
  | steps + 1, pattern :: rest, p => do
    let search := searchBelow directoriesOnly steps
    let go := fun (next : Path) =>
      if rest.isEmpty then accept directoriesOnly next else search rest next
    let isDirectory ← FileSystem.isDirectory p
    match literal? pattern with
    | some name =>
      let next := inside p name
      let found ← if isSpecial name then pure isDirectory else FileSystem.leadsSomewhere next
      if found then go next else return []
    | none =>
      if isDirectory then
        let names ← sortedNames p
        let around ← (specialNames pattern).mapM fun name => go (p.join ⟨.ofList name⟩)
        let below ← names.mapM fun name =>
          onPath directoriesOnly search pattern rest (inside p name.toList)
        return around.flatten ++ below.flatten
      else return []

/-- The paths that a query finds. -/
def Query.find (q : Query) : Finding m :=
  searchBelow q.directoriesOnly (q.patterns.length + Path.maxBytes + 1) q.patterns q.start

end

end SourceScribe.Glob
