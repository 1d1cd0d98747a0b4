import SourceScribe.Path

/-!
# Arguments of the command line

Arguments are read from left to right. Long options start with two hyphens
and take their value after an equals sign or from the next argument; short
ones start with one hyphen, may stand together, and take the rest of their
argument, without a leading equals sign, or the next argument. An option stands
there once, and its value is not another option. After two hyphens alone, and
for a hyphen alone, arguments are inputs. The first fault counts, and help and
version are given as soon as they are asked for.
-/

namespace SourceScribe.CommandLine

/-- How much is logged. -/
inductive LogLevel where
  /-- Everything. -/
  | trace
  /-- What helps to find faults. -/
  | debug
  /-- What is being done. -/
  | info
  /-- What may be wrong. -/
  | warn
  /-- What is wrong. -/
  | error
deriving DecidableEq, Repr

/-- The levels with their names. -/
def LogLevel.named : List (String × LogLevel) :=
  [("trace", .trace), ("debug", .debug), ("info", .info), ("warn", .warn), ("error", .error)]

/-- What a run is asked to do. -/
structure Arguments where
  /-- The documents, by paths and patterns. -/
  inputs : List String := []
  /-- The file with the configuration. -/
  config : Option Path := none
  /-- The directory for generated files. -/
  outDir : Option Path := none
  /-- Whether source is shown and not written. -/
  stdout : Bool := false
  /-- Whether source maps are written whatever the configuration says. -/
  sourceMap : Bool := false
  /-- What stands between arguments whatever the configuration says. -/
  argumentSeparator : Option String := none
  /-- How much is logged. -/
  logLevel : Option LogLevel := none
deriving DecidableEq, Repr

/-- An option that has no value. -/
inductive Flag where
  /-- Shows source. -/
  | stdout
  /-- Writes source maps. -/
  | sourceMap
  /-- Gives help. -/
  | help
  /-- Gives the version. -/
  | version
deriving DecidableEq, Repr

/-- An option that has a value. -/
inductive Setting where
  /-- The file with the configuration. -/
  | config
  /-- The directory for generated files. -/
  | outDir
  /-- What stands between arguments. -/
  | argumentSeparator
  /-- How much is logged. -/
  | logLevel
deriving DecidableEq, Repr

/-- An option. -/
inductive Switch where
  /-- One without a value. -/
  | flag (flag : Flag)
  /-- One with a value. -/
  | setting (setting : Setting)
deriving DecidableEq, Repr

/-- The long options. -/
def Switch.long : List (String × Switch) :=
  [("config", .setting .config), ("out-dir", .setting .outDir), ("stdout", .flag .stdout),
    ("source-map", .flag .sourceMap), ("argument-separator", .setting .argumentSeparator),
    ("log-level", .setting .logLevel), ("help", .flag .help), ("version", .flag .version)]

/-- The short options. -/
def Switch.short : List (Char × Switch) :=
  [('c', .setting .config), ('o', .setting .outDir), ('h', .flag .help), ('V', .flag .version)]

/-- The long name of an option with a value. -/
def Setting.name : Setting → String
  | .config => "--config"
  | .outDir => "--out-dir"
  | .argumentSeparator => "--argument-separator"
  | .logLevel => "--log-level"

/-- The long name of an option without a value. -/
def Flag.name : Flag → String
  | .stdout => "--stdout"
  | .sourceMap => "--source-map"
  | .help => "--help"
  | .version => "--version"

/-- What is wrong with the arguments. -/
inductive UsageFault where
  /-- There is no such option. -/
  | unknown (argument : String)
  /-- An option stands there twice. -/
  | repeated (option : String)
  /-- An option has no value. -/
  | noValue (option : String)
  /-- An option has a value and takes none. -/
  | unwantedValue (option : String)
  /-- An option has a value that it does not take. -/
  | badValue (option value : String)
  /-- Two options exclude each other. -/
  | conflict (option other : String)
  /-- No document is named. -/
  | noInput
deriving DecidableEq, Repr

/-- The wording of a fault. -/
def UsageFault.message : UsageFault → String
  | .unknown argument => "unexpected argument '" ++ argument ++ "' found"
  | .repeated option => "the argument '" ++ option ++ "' cannot be used multiple times"
  | .noValue option => "a value is required for '" ++ option ++ "' but none was supplied"
  | .unwantedValue option => "unexpected value for '" ++ option ++ "' found"
  | .badValue option value => "invalid value '" ++ value ++ "' for '" ++ option ++ "'"
  | .conflict option other =>
    "the argument '" ++ option ++ "' cannot be used with '" ++ other ++ "'"
  | .noInput => "the following required arguments were not provided: <INPUT>..."

/-- Why reading the arguments stops early. -/
inductive Halt where
  /-- Help is asked for. -/
  | help
  /-- The version is asked for. -/
  | version
  /-- The arguments are wrong. -/
  | fault (fault : UsageFault)
deriving DecidableEq, Repr

namespace Arguments

/-- Takes an option without a value. -/
def setFlag (a : Arguments) : Flag → Except Halt Arguments
  | .help => .error .help
  | .version => .error .version
  | .stdout =>
    if a.stdout then .error (.fault (.repeated Flag.stdout.name)) else .ok { a with stdout := true }
  | .sourceMap =>
    if a.sourceMap then .error (.fault (.repeated Flag.sourceMap.name))
    else .ok { a with sourceMap := true }

/-- Whether an option with a value has been taken. -/
def hasSetting (a : Arguments) : Setting → Bool
  | .config => a.config.isSome
  | .outDir => a.outDir.isSome
  | .argumentSeparator => a.argumentSeparator.isSome
  | .logLevel => a.logLevel.isSome

/-- Takes the value of an option that has not been taken yet. -/
def takeValue (a : Arguments) (setting : Setting) (value : String) : Except Halt Arguments :=
  match setting with
  | .config =>
    if value = "" then .error (.fault (.noValue setting.name))
    else .ok { a with config := some ⟨value⟩ }
  | .outDir =>
    if value = "" then .error (.fault (.noValue setting.name))
    else .ok { a with outDir := some ⟨value⟩ }
  | .argumentSeparator => .ok { a with argumentSeparator := some value }
  | .logLevel =>
    match LogLevel.named.lookup value with
    | some level => .ok { a with logLevel := some level }
    | none => .error (.fault (.badValue setting.name value))

/-- Takes an option with its value. -/
def setSetting (a : Arguments) (setting : Setting) (value : String) : Except Halt Arguments :=
  if a.hasSetting setting then .error (.fault (.repeated setting.name))
  else a.takeValue setting value

/-- Takes an input. -/
def addInput (a : Arguments) (text : String) : Arguments := { a with inputs := a.inputs ++ [text] }

/-- Options may not exclude each other, and there has to be an input. -/
def check (a : Arguments) : Except Halt Arguments :=
  if a.stdout && a.outDir.isSome then
    .error (.fault (.conflict Flag.stdout.name Setting.outDir.name))
  else if a.inputs.isEmpty then .error (.fault .noInput)
  else .ok a

end Arguments

/-- What has been read: the arguments, and the option whose value comes next
if there is one. -/
structure Reading where
  /-- The arguments. -/
  arguments : Arguments := {}
  /-- The option whose value comes next. -/
  pending : Option Setting := none

namespace Reading

/-- An option whose value comes next has none, for something else comes. -/
def noneAwaited (r : Reading) : Except Halt Arguments :=
  match r.pending with
  | some setting => .error (.fault (.noValue setting.name))
  | none => .ok r.arguments

/-- Reads a long option with what follows an equals sign. -/
def long (r : Reading) (name : String) (value : Option String) : Except Halt Reading := do
  match Switch.long.lookup name, value with
  | none, _ => throw (.fault (.unknown ("--" ++ name)))
  | some (.flag flag), some _ => throw (.fault (.unwantedValue flag.name))
  | some (.flag flag), none => return ⟨← (← r.noneAwaited).setFlag flag, none⟩
  | some (.setting setting), some value =>
    return ⟨← (← r.noneAwaited).setSetting setting value, none⟩
  | some (.setting setting), none => return ⟨← r.noneAwaited, some setting⟩

/-- Reads short options that stand together. -/
def shorts (r : Reading) : List Char → Except Halt Reading
  | [] => .ok r
  | c :: rest => do
    match Switch.short.lookup c, rest with
    | none, _ => throw (.fault (.unknown ("-" ++ toString c)))
    | some (.flag flag), rest =>
      let a ← (← r.noneAwaited).setFlag flag
      shorts ⟨a, none⟩ rest
    | some (.setting setting), [] => return ⟨← r.noneAwaited, some setting⟩
    | some (.setting setting), '=' :: value =>
      return ⟨← (← r.noneAwaited).setSetting setting (.ofList value), none⟩
    | some (.setting setting), value =>
      return ⟨← (← r.noneAwaited).setSetting setting (.ofList value), none⟩

/-- Reads an argument that is no option. -/
def plain (r : Reading) (text : String) : Except Halt Reading :=
  match r.pending with
  | some setting => (⟨·, none⟩) <$> r.arguments.setSetting setting text
  | none => .ok ⟨r.arguments.addInput text, none⟩

/-- Reads one argument in front of two hyphens alone. -/
def one (r : Reading) (argument : String) : Except Halt Reading :=
  match argument.toList with
  | '-' :: '-' :: text =>
    match text.span (· ≠ '=') with
    | (name, _ :: value) => r.long (.ofList name) (some (.ofList value))
    | (name, []) => r.long (.ofList name) none
  | '-' :: c :: rest => r.shorts (c :: rest)
  | _ => r.plain argument

end Reading

/-- Reads arguments in order. -/
def readArguments : Reading → List String → Except Halt Arguments
  | r, [] => do (← r.noneAwaited).check
  | r, argument :: rest => do
    if argument = "--" then
      match r.pending with
      | some setting => throw (.fault (.noValue setting.name))
      | none => (rest.foldl Arguments.addInput r.arguments).check
    else readArguments (← r.one argument) rest

/-- What the arguments ask for. -/
def Arguments.parse (arguments : List String) : Except Halt Arguments :=
  readArguments {} arguments

end SourceScribe.CommandLine
