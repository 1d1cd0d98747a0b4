import SourceScribe.Grammar.Declarations
import SourceScribe.Text.Blank

/-!
# Simple statements

A statement ends with a semicolon, unless it is a block or a comment.
-/

namespace SourceScribe.Grammar

open Script

/-- A variable among statements. -/
def variableDefinitionStatement : Rule := fun s =>
  match s.construct with
  | .variableDefinitionStatement type name => variableText s type name
  | _ => fail .wrongConstruct

/-- Targets, an equals sign, and the value, which is the last child. -/
def assignmentStatement : Rule := fun s =>
  match s.children.getLast? with
  | none => fail (.missing "right-hand side")
  | some value =>
    let targets := s.children.dropLast
    demand (!targets.isEmpty) (.missing "assignment target") ++
      requiredAll "assignment target" ", " targets ++
      [.text " = ", .required "right-hand side" value, .text ";"]

/-- An expression. -/
def expressionStatement : Rule := fun s => operand s "one expression" "expression" ++ [.text ";"]

/-- The word `return`, and possibly values. -/
def returnStatement : Rule := fun s =>
  .text "return" ::
    (if s.children.isEmpty then []
      else .text " " :: requiredAll "return value" ", " s.children) ++
    [.text ";"]

/-- A word and an expression. -/
def keywordStatement (word : String) : Rule := fun s =>
  texts [word, " "] ++ operand s "one expression" "expression" ++ [.text ";"]

/-- A word alone. -/
def bareStatement (word : String) : Rule := fun s => childless s ++ texts [word, ";"]

/-- One line of a comment: a line that starts like a comment is kept from there
on, and any other is put behind two slashes. -/
def commentLine (line : List Char) : Script :=
  let kept := Text.dropBlanksBack line
  let start := Text.dropBlanksFront kept
  if ['/', '/'].isPrefixOf start then [.text (String.ofList start)]
  else if kept.isEmpty then [.text "//"]
  else texts ["// ", String.ofList kept]

/-- The lines of a comment, with line ends between them. -/
def commentLines : List (List Char) → Script
  | [] => []
  | line :: rest => commentLine line ++ rest.flatMap fun l => .newline :: commentLine l

/-- A comment, one line for each line of its text and at least one. -/
def commentStatement : Rule := fun s =>
  match s.construct with
  | .commentStatement text =>
    childless s ++ commentLines (Text.linesOf text.toList) ++
      (if text.isEmpty then [.text "//"] else [])
  | _ => fail .wrongConstruct

/-- Messages, an arrow, and the name of a worker. -/
def workerInteraction (arrow : String) : Rule := fun s =>
  let write := fun worker =>
    demand (!s.children.isEmpty) (.missing "message expression") ++
      requiredAll "message expression" ", " s.children ++ texts [" ", arrow, " "] ++
      identifier "worker name" worker ++ [.text ";"]
  match s.construct with
  | .workerInvocationStatement worker => write worker
  | .workerReplyStatement worker => write worker
  | _ => fail .wrongConstruct

/-- Statements between braces. -/
def blockStatement : Rule := fun s => block s.children

/-- The word `transform` and statements between braces. -/
def transformStatement : Rule := fun s => .text "transform " :: block s.children

end SourceScribe.Grammar
