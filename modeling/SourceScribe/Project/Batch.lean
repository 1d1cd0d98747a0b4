import SourceScribe.Document.Codec
import SourceScribe.Generator
import SourceScribe.Project.Config

/-!
# Generating many documents

A batch has one job for each document, in the order in which the documents are
named. A job reads its document, generates the source and, unless the source
is only shown, writes it to a file of its own, with the source map beside it
if one is asked for. Jobs whose outputs lead the same way all fail, and
nothing is read or written for them.
-/

namespace SourceScribe

/-- Where generated source goes. -/
inductive OutputTarget where
  /-- It is shown and not written. -/
  | shown
  /-- It is written to files, in the directory if one is given. -/
  | files (directory : Option Path)
deriving DecidableEq, Repr

/-- The name of the generated file for a document. -/
def outputName (input : Path) : List Char :=
  input.stem?.getD ['o', 'u', 't'] ++ ['.', 'b', 'a', 'l']

/-- The generated file for a document: in the given directory, or beside the
document. -/
def outputPath (input : Path) (directory : Option Path) : Path :=
  let name : Path := ⟨.ofList (outputName input)⟩
  match directory.or input.parent? with
  | some directory => directory.join name
  | none => name

/-- Why a job fails. -/
inductive JobError where
  /-- Several documents have the same output. -/
  | severalInputs (output : Path) (inputs : List Path)
  /-- The document could not be read. -/
  | unread (input : Path) (fault : FileFault)
  /-- The file does not hold a document. -/
  | invalid (error : DocumentError)
  /-- The document could not be generated. -/
  | ungenerated (error : GenerateError)
  /-- The directory of the output could not be made. -/
  | noDirectory (directory : Path) (fault : FileFault)
  /-- The output or the source map could not be written. -/
  | unwritten (file : Path) (fault : FileFault)

namespace JobError

/-- An error and its causes, each by its own wording. -/
def chain : JobError → List String
  | .severalInputs output inputs =>
    ["output " ++ output.text ++ " would be written by several inputs: " ++
      ", ".intercalate (inputs.map Path.text)]
  | .unread input fault =>
    ["failed to read " ++ input.text ++ ": " ++ fault.message, fault.message]
  | .invalid (.json e) => [(DocumentError.json e).message, e.message]
  | .invalid e => [e.message]
  | .ungenerated (.sourceMap e) => [(GenerateError.sourceMap e).message, e.message]
  | .ungenerated e => [e.message]
  | .noDirectory directory fault => ["failed to create " ++ directory.text, fault.message]
  | .unwritten file fault => ["failed to write " ++ file.text, fault.message]

/-- The wording of an error with that of its causes. -/
def message (e : JobError) : String := ": ".intercalate e.chain

end JobError

/-- A document to generate. -/
structure Job where
  /-- The document. -/
  input : Path
  /-- The file to write, if any. -/
  output : Option Path
  /-- The documents whose outputs lead the same way, this one included. -/
  claimants : List Path
deriving DecidableEq, Repr

/-- What became of a job. -/
structure JobResult where
  /-- The document. -/
  input : Path
  /-- The file that was to be written. -/
  output : Option Path
  /-- The source, or why there is none. -/
  outcome : Except JobError String

namespace Job

/-- The file for the source map of a generated file. -/
def mapPath (output : Path) : Path := ⟨output.text ++ ".map"⟩

/-- The file that a document has in a target. -/
def outputIn (config : ProjectConfig) : OutputTarget → Path → Option Path
  | .shown, _ => none
  | .files directory, input => some (outputPath input (directory.or config.outDir))

/-- The documents whose outputs lead the same way as a path. -/
def claimantsOf (outputs : List (Path × Option Path)) (output : Path) : List Path :=
  (outputs.filter fun (_, other) => other.any output.sameWay).map Prod.fst

/-- The jobs for some documents. -/
def plan (config : ProjectConfig) (target : OutputTarget) (inputs : List Path) : List Job :=
  let outputs := inputs.map fun input => (input, outputIn config target input)
  outputs.map fun (input, output) =>
    ⟨input, output, (output.map (claimantsOf outputs)).getD []⟩

/-- The source of a tree that goes to a file, and its source map if one is
asked for. With a source map the source may end with it. -/
def sourceFor (config : ProjectConfig) (ast : Ast) (output : Path) :
    Except GenerateError Generated := do
  let generator : Generator := { options := config.options }
  if config.sourceMap then
    let name := String.ofList (output.fileName?.getD [])
    let generated ← generator.generateWithMap ast name
    match generated.map with
    | none => return generated
    | some map =>
      if config.sourceMapComment then
        return ⟨generated.source ++ "\n" ++ map.comment, some map⟩
      else return generated
  else return ⟨← generator.generate ast, none⟩

variable {m : Type → Type} [Monad m] [FileSystem m]

/-- Takes over a file operation that may fail. -/
def attempt (act : m (Except FileFault α)) (asError : FileFault → JobError) :
    ExceptT JobError m α :=
  ExceptT.mk do return (← act).mapError asError

/-- Reads a document. -/
def readTree (input : Path) : ExceptT JobError m Ast := do
  let text ← attempt (FileSystem.readText input) (.unread input)
  match Document.load text with
  | .ok ast => return ast
  | .error e => throw (.invalid e)

/-- Writes a file. -/
def write (file : Path) (text : String) : ExceptT JobError m Unit :=
  attempt (FileSystem.writeText file text) (.unwritten file)

/-- Makes the directory for a file, if the file is to be in one. -/
def prepare (file : Path) : ExceptT JobError m Unit := do
  match file.parent? with
  | some directory =>
    if directory.text = "" then return ()
    else attempt (FileSystem.makeDirectories directory) (.noDirectory directory)
  | none => return ()

/-- Generates a document, and writes it if it goes to a file. -/
def generate (config : ProjectConfig) (input : Path) (output : Option Path) :
    ExceptT JobError m String := do
  let ast ← readTree input
  match output with
  | none =>
    match ({ options := config.options } : Generator).generate ast with
    | .ok source => return source
    | .error e => throw (.ungenerated e)
  | some output =>
    prepare output
    match sourceFor config ast output with
    | .error e => throw (.ungenerated e)
    | .ok ⟨source, map⟩ =>
      if let some map := map then write (mapPath output) map.toValue.compact
      write output (source ++ "\n")
      return source

/-- Runs a job. -/
def run (config : ProjectConfig) (job : Job) : m JobResult := do
  match job.output, job.claimants with
  | some output, _ :: _ :: _ =>
    return ⟨job.input, job.output, .error (.severalInputs output job.claimants)⟩
  | _, _ => return ⟨job.input, job.output, ← (generate config job.input job.output).run⟩

end Job

/-- Generates documents, one after the other. -/
def generateAll {m : Type → Type} [Monad m] [FileSystem m] (config : ProjectConfig)
    (target : OutputTarget) (inputs : List Path) : m (List JobResult) :=
  (Job.plan config target inputs).mapM (Job.run config)

end SourceScribe
