import SourceScribe.Files.Basic

/-!
# A tree of files

Files with their texts and directories, around a working directory. A path is
followed from the working directory or from the root, one segment at a time:
what it is followed through has to be a directory, a dot stays there, and two
dots lead up. What lies above the working directory, and below the root, is
known as far as it has been written; the two are not related to each other.
-/

namespace SourceScribe

/-- Where names are counted from. -/
inductive Anchor where
  /-- A number of steps above the working directory. -/
  | above (steps : Nat)
  /-- The root. -/
  | root
deriving DecidableEq, Repr

/-- A place for a file or a directory. -/
structure Place where
  /-- Where the names are counted from. -/
  anchor : Anchor := .above 0
  /-- The names that lead to the place, innermost first. -/
  names : List String := []
deriving DecidableEq, Repr

namespace Place

/-- The place of a name in a directory. -/
def enter (p : Place) (name : String) : Place := { p with names := name :: p.names }

/-- The place of the directory above. -/
def up (p : Place) : Place :=
  match p.names, p.anchor with
  | _ :: names, _ => { p with names := names }
  | [], .above steps => { p with anchor := .above (steps + 1) }
  | [], .root => p

/-- The name that leads from a place one step down towards another, if the
other lies below it. -/
def nameTowards? (p q : Place) : Option String :=
  if p.anchor = q.anchor ∧ p.names.isSuffixOf q.names then
    (q.names.take (q.names.length - p.names.length)).getLast?
  else none

/-- The path that leads to a place in the working directory. -/
def pathText (p : Place) : String := "/".intercalate p.names.reverse

end Place

/-- Files and directories. -/
structure FileTree where
  /-- The files with their texts, each place once. -/
  files : List (Place × String) := []
  /-- The directories that were made. -/
  folders : List Place := []
deriving DecidableEq, Repr

namespace FileTree

/-- The text of the file at a place. -/
def textAt? (t : FileTree) (p : Place) : Option String := t.files.lookup p

/-- The names in the directory at a place, each once. -/
def namesAt (t : FileTree) (p : Place) : List String :=
  ((t.files.map Prod.fst ++ t.folders).filterMap p.nameTowards?).eraseDups

/-- Whether a directory is at a place: one that was made, one in which
something lies, or one from which names are counted. -/
def hasFolder (t : FileTree) (p : Place) : Bool :=
  p.names.isEmpty || t.folders.contains p || !(t.namesAt p).isEmpty

/-- What is at a place. -/
def kindAt? (t : FileTree) (p : Place) : Option EntryKind :=
  if (t.textAt? p).isSome then some .file
  else if t.hasFolder p then some .directory
  else none

/-- Follows one segment of a path. -/
def follow (t : FileTree) (p : Place) (segment : List Char) : Except FileFault Place :=
  match t.kindAt? p with
  | none => .error .notFound
  | some .file => .error .notDirectory
  | some .directory =>
    if Path.isBlank segment then .ok p
    else if segment = ['.', '.'] then .ok p.up
    else
      let name := String.ofList segment
      if Path.maxNameBytes < name.utf8ByteSize then .error .nameTooLong else .ok (p.enter name)

/-- The place to which a path leads. -/
def place (t : FileTree) (p : Path) : Except FileFault Place :=
  if p.text = "" then .error .notFound
  else if p.text.toList.contains '\x00' then .error .zeroInName
  else if Path.maxBytes < p.text.utf8ByteSize then .error .nameTooLong
  else p.segments.foldlM t.follow ⟨if p.isAbsolute then .root else .above 0, []⟩

/-- The text of the file to which a path leads. -/
def readText (t : FileTree) (p : Path) : Except FileFault String := do
  let place ← t.place p
  match t.textAt? place with
  | some text => return text
  | none => throw (if t.hasFolder place then .isDirectory else .notFound)

/-- What a path leads to. -/
def kind? (t : FileTree) (p : Path) : Option EntryKind :=
  match t.place p with
  | .ok place => t.kindAt? place
  | .error _ => none

/-- The names in the directory to which a path leads. -/
def list (t : FileTree) (p : Path) : Except FileFault (List String) := do
  let place ← t.place p
  match t.kindAt? place with
  | some .directory => return t.namesAt place
  | some .file => throw .notDirectory
  | none => throw .notFound

/-- Puts a text at a place. -/
def put (t : FileTree) (p : Place) (text : String) : FileTree :=
  { t with files := (p, text) :: t.files.filter (·.1 ≠ p) }

/-- Writes the file to which a path leads. -/
def writeText (t : FileTree) (p : Path) (text : String) : Except FileFault FileTree := do
  let place ← t.place p
  if t.kindAt? place = some .directory then throw .isDirectory else return t.put place text

/-- Makes the directory to which a path leads. -/
def makeDirectory (t : FileTree) (p : Path) : Except FileFault FileTree := do
  let place ← t.place p
  if (t.kindAt? place).isSome then throw .alreadyExists
  else return { t with folders := place :: t.folders }

/-- The tree of files with the given paths in the working directory. -/
def ofFiles (files : List (String × String)) : FileTree :=
  files.foldl (fun t (path, text) =>
    let names := (Path.mk path).segments.filter (!Path.isBlank ·)
    t.put ⟨.above 0, (names.map String.ofList).reverse⟩ text) {}

/-- The files in the working directory whose texts differ from an earlier
tree, with their paths. -/
def changedSince (t earlier : FileTree) : List (String × String) :=
  t.files.filterMap fun (place, text) =>
    if place.anchor = .above 0 ∧ earlier.textAt? place ≠ some text then
      some (place.pathText, text)
    else none

end FileTree

/-- Replaces the tree unless that fails. -/
def FileTree.update (change : FileTree → Except FileFault FileTree) :
    StateM FileTree (Except FileFault Unit) := fun t =>
  match change t with
  | .ok changed => (.ok (), changed)
  | .error fault => (.error fault, t)

instance : FileSystem (StateM FileTree) where
  readText p := fun t => (t.readText p, t)
  writeText p text := FileTree.update (·.writeText p text)
  kind? p := fun t => (t.kind? p, t)
  list p := fun t => (t.list p, t)
  makeDirectory p := FileTree.update (·.makeDirectory p)

end SourceScribe
