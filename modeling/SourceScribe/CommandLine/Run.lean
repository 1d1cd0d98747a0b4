import SourceScribe.CommandLine.Arguments
import SourceScribe.Project.Batch
import SourceScribe.Project.Inputs

/-!
# Running the command

The command resolves the configuration, finds the documents, generates them
and reports. Generated source that is shown goes to the standard output, in
the order of the documents; faults go to the standard error. The code is 2 if
the arguments are wrong, 1 if anything failed, and 0 otherwise. The level of
logging is checked and has no effect, because nothing is logged.
-/

namespace SourceScribe.CommandLine

/-- What the command leaves behind besides files. -/
structure Outcome where
  /-- The exit code. -/
  code : UInt32 := 0
  /-- The standard output. -/
  stdout : String := ""
  /-- The standard error. -/
  stderr : String := ""
deriving DecidableEq, Repr

/-- The name of the command and its version. -/
def versionText : String := "srcgen 0.1.0\n"

/-- How the command is used. -/
def usage : String := "Usage: srcgen [OPTIONS] <INPUT>..."

/-- What the command is for and which arguments it takes. -/
def helpText : String :=
  "Generates source from documents that hold syntax trees\n\n" ++ usage ++ "\n\n" ++
  "Arguments:\n" ++
  "  <INPUT>...  Documents, or patterns for their paths\n\n" ++
  "Options:\n" ++
  "  -c, --config <PATH>             File with the configuration\n" ++
  "  -o, --out-dir <DIR>             " ++
  "Directory for generated files [default: that of each input]\n" ++
  "      --stdout                    Print source instead of writing files\n" ++
  "      --source-map                Write a .map file beside each output\n" ++
  "      --argument-separator <SEP>  What stands between arguments\n" ++
  "      --log-level <LEVEL>         Log verbosity " ++
  "[default: warn] [possible values: trace, debug, info, warn, error]\n" ++
  "  -h, --help                      Print help\n" ++
  "  -V, --version                   Print version\n"

/-- What is left behind when the arguments are not followed. -/
def Halt.outcome : Halt → Outcome
  | .help => { stdout := helpText }
  | .version => { stdout := versionText }
  | .fault reason =>
    { code := 2, stderr := "error: " ++ reason.message ++ "\n\n" ++ usage ++
        "\n\nFor more information, try '--help'.\n" }

/-- A line that reports a failure. -/
def errorLine (message : String) : String := "Error: " ++ message ++ "\n"

/-- What is left behind when the run fails as a whole. -/
def failed (message : String) : Outcome := { code := 1, stderr := errorLine message }

namespace Arguments

/-- The configuration with what the arguments change in it. -/
def adjust (a : Arguments) (config : ProjectConfig) : ProjectConfig :=
  { config with
    sourceMap := a.sourceMap || config.sourceMap
    options := { config.options with
      argumentSeparator := a.argumentSeparator.getD config.options.argumentSeparator } }

/-- Where generated source goes. -/
def target (a : Arguments) : OutputTarget := if a.stdout then .shown else .files a.outDir

end Arguments

/-- What a job adds to what is left behind. -/
def Outcome.add (target : OutputTarget) (o : Outcome) (r : JobResult) : Outcome :=
  match r.outcome, target with
  | .ok source, .shown => { o with stdout := o.stdout ++ source ++ "\n" }
  | .ok _, .files _ => o
  | .error e, _ =>
    { o with code := 1, stderr := o.stderr ++ errorLine (r.input.text ++ ": " ++ e.message) }

/-- Reports on the jobs. -/
def report (target : OutputTarget) (results : List JobResult) : Outcome :=
  results.foldl (Outcome.add target) {}

variable {m : Type → Type} [Monad m] [FileSystem m]

/-- Does what the arguments ask for. -/
def perform (a : Arguments) : m Outcome := do
  match ← ProjectConfig.resolve a.config with
  | .error e => return failed e.message
  | .ok config =>
    match ← (Inputs.expand a.inputs).run with
    | .error e => return failed e.message
    | .ok inputs => return report a.target (← generateAll (a.adjust config) a.target inputs)

/-- Runs the command. -/
def run (arguments : List String) : m Outcome :=
  match Arguments.parse arguments with
  | .error halt => pure halt.outcome
  | .ok a => perform a

end SourceScribe.CommandLine
