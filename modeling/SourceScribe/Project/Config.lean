import SourceScribe.Files.Basic
import SourceScribe.Options

/-!
# Configuration of a project

The configuration is an object. Its own members say where generated files go
and whether source maps are written; the options of generation stand among
them. The own members are checked where they stand, and the options when the
whole object has been read.
-/

namespace SourceScribe

/-- How the documents of a project are generated. -/
structure ProjectConfig where
  /-- The options of generation. -/
  options : Options := {}
  /-- The directory for generated files, if it is not that of each document. -/
  outDir : Option Path := none
  /-- Whether a source map is written beside each generated file. -/
  sourceMap : Bool := false
  /-- Whether a generated file that has a source map ends with it. -/
  sourceMapComment : Bool := false
deriving DecidableEq, Repr

namespace ProjectConfig

open Json Json.Decoder

/-- The file that holds the configuration unless another one is named. -/
def defaultFile : Path := ⟨"sourcegen.json"⟩

/-- What has been read of a configuration. -/
structure Draft where
  /-- The directory for generated files, once its member was read. -/
  outDir : Option (Option String) := none
  /-- Whether source maps are written. -/
  sourceMap : Option Bool := none
  /-- Whether source maps are appended. -/
  sourceMapComment : Option Bool := none
  /-- The other members, last one first. -/
  others : List (String × Value) := []

/-- The members that are not options. -/
def fields : List (Member Draft) :=
  [.of "outDir" true (fun _ => nullable pathText) (·.outDir)
      fun v d => { d with outDir := some v },
    .of "sourceMap" true (fun _ => bool) (·.sourceMap)
      fun v d => { d with sourceMap := some v },
    .of "sourceMapComment" true (fun _ => bool) (·.sourceMapComment)
      fun v d => { d with sourceMapComment := some v }]
where
  /-- A path. -/
  pathText : Decoder String := do
    if (← token .endInValue) = '"' then
      advance
      stringBody
    else mismatch "path string"

/-- Reads one member into a draft. -/
def decodeMember (l : Limits) (name : String) (d : Draft) : Decoder Draft := do
  match fields.find? (·.name == name) with
  | some _ => recordMember l fields name d
  | none =>
    colon
    let v ← value l
    return { d with others := (name, v) :: d.others }

/-- The configuration of a draft. -/
def ofDraft (d : Draft) : Except Reason ProjectConfig := do
  let options ← Options.ofMembers d.others.reverse
  return {
    options := options
    outDir := d.outDir.join.map Path.mk
    sourceMap := d.sourceMap.getD false
    sourceMapComment := d.sourceMapComment.getD false }

/-- Reads a configuration from a text. -/
def decoder (l : Limits) : Decoder ProjectConfig := do
  if (← token .endInValue) = '\x7b' then
    enclosed l .object do
      ofExcept (ofDraft (← membersLoop (decodeMember l.inside) l.steps true {}))
  else mismatch "struct SourcegenConfig"

/-- Reads a configuration from a whole text. -/
def ofJson (text : String) : Except Json.Error ProjectConfig := Json.decode decoder text

end ProjectConfig

/-- Why there is no configuration. -/
inductive ConfigCause where
  /-- Its file could not be read. -/
  | unreadable (fault : FileFault)
  /-- The text of its file is not a configuration. -/
  | invalid (error : Json.Error)

/-- The wording of a cause. -/
def ConfigCause.message : ConfigCause → String
  | .unreadable fault => fault.message
  | .invalid error => error.message

/-- Why there is no configuration, and the file if it was asked for by name. -/
structure ConfigError where
  /-- The file that was asked for. -/
  file : Option Path
  /-- Why. -/
  cause : ConfigCause

/-- The wording of an error. -/
def ConfigError.message (e : ConfigError) : String :=
  match e.file with
  | some file => "failed to load " ++ file.text ++ ": " ++ e.cause.message
  | none => e.cause.message

namespace ProjectConfig

variable {m : Type → Type} [Monad m] [FileSystem m]

/-- Reads the configuration from a file. -/
def load (file : Path) : m (Except ConfigCause ProjectConfig) := do
  match ← FileSystem.readText file with
  | .error fault => return .error (.unreadable fault)
  | .ok text => return (ofJson text).mapError .invalid

/-- The configuration from the file that is asked for; if none is, from the
default file if that is there, and otherwise the defaults. -/
def resolve (file : Option Path) : m (Except ConfigError ProjectConfig) := do
  match file with
  | some file => return (← load file).mapError fun cause => ⟨some file, cause⟩
  | none =>
    if ← FileSystem.leadsSomewhere defaultFile then
      return (← load defaultFile).mapError fun cause => ⟨none, cause⟩
    else return .ok {}

end ProjectConfig

end SourceScribe
