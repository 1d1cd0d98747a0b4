import SourceScribe.CommandLine.Run

/-!
# The command

Runs the command on the files of the system.
-/

namespace SourceScribe.CommandLine.System

/-- The number of an error without the sign that some operations give it. -/
def unsigned (number : UInt32) : UInt32 := if number < 0x80000000 then number else 0 - number

/-- The number and the description of an error of the system. -/
def described? : IO.Error → Option (UInt32 × String)
  | .otherError number details => some (number, details)
  | .resourceBusy number details => some (number, details)
  | .permissionDenied _ number details => some (number, details)
  | .resourceExhausted _ number details => some (number, details)
  | .inappropriateType _ number details => some (number, details)
  | .invalidArgument _ number details => some (number, details)
  | .noSuchThing _ number details => some (number, details)
  | _ => none

/-- The fault that an error of the system stands for. -/
def faultOf (e : IO.Error) : FileFault :=
  match e with
  | .noFileOrDirectory .. => .notFound
  | .alreadyExists .. => .alreadyExists
  | e =>
    match described? e with
    | none => .other (toString e) 0
    | some (number, details) =>
      match (unsigned number).toNat with
      | 20 => .notDirectory
      | 21 => .isDirectory
      | 36 => .nameTooLong
      | n => .other details n

/-- Turns an error of the system into a fault. -/
def guarded (act : IO α) : IO (Except FileFault α) := do
  try return .ok (← act)
  catch e => return .error (faultOf e)

/-- Whether a path leads to a directory, if it leads to anything. -/
def kindOf? (p : Path) : IO (Option EntryKind) := do
  match ← guarded (IO.FS.realPath p.text) with
  | .error _ => return none
  | .ok path =>
    if ← path.isDir then return some .directory
    else if ← path.pathExists then return some .file
    else return none

instance : FileSystem IO where
  readText p := do
    match ← kindOf? p with
    | some .directory => return .error .isDirectory
    | _ =>
      match ← guarded (IO.FS.readBinFile p.text) with
      | .error fault => return .error fault
      | .ok bytes =>
        match String.fromUTF8? bytes with
        | some text => return .ok text
        | none => return .error .notText
  writeText p text := do
    match ← kindOf? p with
    | some .directory => return .error .isDirectory
    | _ => guarded (IO.FS.writeFile p.text text)
  kind? p := kindOf? p
  list p := guarded do
    let entries ← (← IO.FS.realPath p.text).readDir
    return entries.toList.map (·.fileName)
  makeDirectory p := guarded (IO.FS.createDir p.text)

end SourceScribe.CommandLine.System

/-- Runs the command and ends with its code. -/
def main (arguments : List String) : IO UInt32 := do
  let outcome : SourceScribe.CommandLine.Outcome ← SourceScribe.CommandLine.run arguments
  (← IO.getStdout).putStr outcome.stdout
  (← IO.getStderr).putStr outcome.stderr
  return outcome.code
