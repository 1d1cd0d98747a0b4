import SourceScribe.Path

/-!
# Access to files

What the program needs of the files around it: reading and writing a file,
looking at what a path leads to, listing a directory and making one. A
monad that offers this can run the program, whether it holds a tree of files
or reaches a disk.
-/

namespace SourceScribe

/-- Why a file or a directory is not to be had. -/
inductive FileFault where
  /-- Nothing is there. -/
  | notFound
  /-- Something else than a directory is on the way. -/
  | notDirectory
  /-- A directory is where a file is asked for. -/
  | isDirectory
  /-- Something is where a directory shall be made. -/
  | alreadyExists
  /-- A name or the whole path is too long. -/
  | nameTooLong
  /-- A path holds the character with the number zero. -/
  | zeroInName
  /-- A file does not hold text. -/
  | notText
  /-- Anything else, by its description and its number. -/
  | other (description : String) (number : Nat)
deriving DecidableEq, Repr

namespace FileFault

/-- A description and the number that the system has for it. -/
def numbered (description : String) (number : Nat) : String :=
  description ++ " (os error " ++ toString number ++ ")"

/-- The wording of a fault. -/
def message : FileFault → String
  | .notFound => numbered "No such file or directory" 2
  | .notDirectory => numbered "Not a directory" 20
  | .isDirectory => numbered "Is a directory" 21
  | .alreadyExists => numbered "File exists" 17
  | .nameTooLong => numbered "File name too long" 36
  | .zeroInName => "file name contained an unexpected NUL byte"
  | .notText => "stream did not contain valid UTF-8"
  | .other description number => numbered description number

end FileFault

/-- What a path leads to. -/
inductive EntryKind where
  /-- A file. -/
  | file
  /-- A directory. -/
  | directory
deriving DecidableEq, Repr

/-- Access to files from inside a monad. -/
class FileSystem (m : Type → Type) where
  /-- The text of a file. -/
  readText : Path → m (Except FileFault String)
  /-- Writes a file, whether it is there already or not. -/
  writeText : Path → String → m (Except FileFault Unit)
  /-- What a path leads to, if it leads to anything. -/
  kind? : Path → m (Option EntryKind)
  /-- The names in a directory. -/
  list : Path → m (Except FileFault (List String))
  /-- Makes a directory in one that is there. -/
  makeDirectory : Path → m (Except FileFault Unit)

instance [Monad m] [FileSystem m] : FileSystem (ExceptT ε m) where
  readText p := ExceptT.lift (FileSystem.readText p)
  writeText p text := ExceptT.lift (FileSystem.writeText p text)
  kind? p := ExceptT.lift (FileSystem.kind? p)
  list p := ExceptT.lift (FileSystem.list p)
  makeDirectory p := ExceptT.lift (FileSystem.makeDirectory p)

namespace FileSystem

variable {m : Type → Type} [Monad m] [FileSystem m]

/-- Whether a path leads to anything. -/
def leadsSomewhere (p : Path) : m Bool := do
  return (← kind? p).isSome

/-- Whether a path leads to a directory. -/
def isDirectory (p : Path) : m Bool := do
  return (← kind? p) == some .directory

/-- Takes a fault as success if a directory is there all the same. -/
def forgive (p : Path) (fault : FileFault) : m (Except FileFault Unit) := do
  return if ← isDirectory p then .ok () else .error fault

/-- Makes the first of some directories, of which each lies in the next one,
and those of the others that it needs. -/
def makeLineage : List Path → m (Except FileFault Unit)
  | [] => pure (.ok ())
  | p :: above => do
    match ← makeDirectory p with
    | .ok () => return .ok ()
    | .error .notFound =>
      match ← makeLineage above with
      | .error fault => return .error fault
      | .ok () =>
        match ← makeDirectory p with
        | .ok () => return .ok ()
        | .error fault => forgive p fault
    | .error fault => forgive p fault

/-- Makes a directory and those above it, as far as they are missing. -/
def makeDirectories (p : Path) : m (Except FileFault Unit) := makeLineage p.lineage

end FileSystem

end SourceScribe
