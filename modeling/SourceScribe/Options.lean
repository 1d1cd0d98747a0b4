import SourceScribe.Buffer
import SourceScribe.Json.Typed

/-!
# Options of generation

The options are read from an object, or from an array of their values in
order. What is missing has its default value. Their members can also be taken
from among other members that have been read already.
-/

namespace SourceScribe

/-- How the generated text is laid out, and how deep it may nest. -/
structure Options where
  /-- One level of indentation. -/
  indent : String := Buffer.defaultUnit
  /-- What stands between arguments, items and entries. -/
  argumentSeparator : String := ", "
  /-- The number of nodes that may lie on a path. -/
  maxDepth : Nat := 256
  /-- Whether a blank line stands between definitions. -/
  blankLineBetweenDefinitions : Bool := true
deriving DecidableEq, Repr

namespace Options

open Json (Reason Value)

/-- The options that have been read so far. -/
structure Draft where
  /-- One level of indentation. -/
  indent : Option String := none
  /-- What stands between arguments, items and entries. -/
  argumentSeparator : Option String := none
  /-- The number of nodes that may lie on a path. -/
  maxDepth : Option Nat := none
  /-- Whether a blank line stands between definitions. -/
  blankLineBetweenDefinitions : Option Bool := none

/-- The options of a draft; what is missing has its default value. -/
def ofDraft (d : Draft) : Options :=
  let default : Options := {}
  { indent := d.indent.getD default.indent
    argumentSeparator := d.argumentSeparator.getD default.argumentSeparator
    maxDepth := d.maxDepth.getD default.maxDepth
    blankLineBetweenDefinitions :=
      d.blankLineBetweenDefinitions.getD default.blankLineBetweenDefinitions }

/-- The members of the options in a text. -/
def fields : List (Json.Member Draft) :=
  [.of "indent" true (fun _ => Json.Decoder.string) (·.indent)
      fun v d => { d with indent := some v },
    .of "argumentSeparator" true (fun _ => Json.Decoder.string) (·.argumentSeparator)
      fun v d => { d with argumentSeparator := some v },
    .of "maxDepth" true (fun _ => Json.Decoder.natural .size) (·.maxDepth)
      fun v d => { d with maxDepth := some v },
    .of "blankLineBetweenDefinitions" true (fun _ => Json.Decoder.bool)
      (·.blankLineBetweenDefinitions)
      fun v d => { d with blankLineBetweenDefinitions := some v }]

/-- Reads the options from a text. -/
def decoder (l : Json.Limits) : Json.Decoder Options :=
  Json.Decoder.record l "struct GenerateOptions" fields {} fun d => .ok (ofDraft d)

/-- Reads the options from a whole text. -/
def ofJson (text : String) : Except Json.Error Options := Json.decode decoder text

/-- Takes one member into a draft, if it is one of the options. -/
def takeMember (d : Draft) (name : String) (v : Value) : Except Reason Draft :=
  let once := fun (given : Bool) (read : Except Reason Draft) =>
    if given then .error (.repeatedMember name) else read
  match name with
  | "indent" =>
    once d.indent.isSome do return { d with indent := some (← v.toText "a string") }
  | "argumentSeparator" =>
    once d.argumentSeparator.isSome do
      return { d with argumentSeparator := some (← v.toText "a string") }
  | "maxDepth" => once d.maxDepth.isSome do return { d with maxDepth := some (← v.toWord .size) }
  | "blankLineBetweenDefinitions" =>
    once d.blankLineBetweenDefinitions.isSome do
      return { d with blankLineBetweenDefinitions := some (← v.toBool) }
  | _ => .ok d

/-- Takes the options from among members. -/
def ofMembers (members : List (String × Value)) : Except Reason Options :=
  ofDraft <$> members.foldlM (fun d (name, v) => takeMember d name v) {}

end Options

end SourceScribe
