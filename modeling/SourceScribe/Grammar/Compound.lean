import SourceScribe.Grammar.Clauses
import SourceScribe.Text.Blank

/-!
# Compound statements

The children of a compound statement are its clauses. They are joined by a
space, so that a clause goes on behind the closing brace of the one in front
of it.
-/

namespace SourceScribe.Grammar

open Script

/-- The clauses of a conditional statement. -/
def ifElseClauses : List ClauseRule :=
  [.one .ifStatement, .many .elseIfStatement, .optional .elseStatement]

/-- The clauses of a guarded statement. -/
def tryCatchClauses : List ClauseRule :=
  [.one .tryStatement, .one .catchStatement, .optional .finallyStatement]

/-- The clauses of a fork. -/
def forkJoinClauses : List ClauseRule :=
  [.many .workerDeclaration, .optional .joinStatement, .optional .timeoutStatement]

/-- The clauses of a transaction. -/
def transactionClauses : List ClauseRule :=
  [.one .transactionStatement, .optional .abortedStatement, .optional .committedStatement]

/-- A conditional statement. -/
def ifElseStatement : Rule := fun s => clauseSequence s ifElseClauses

/-- A guarded statement. -/
def tryCatchStatement : Rule := fun s => clauseSequence s tryCatchClauses

/-- A transaction. -/
def transactionAbortedStatement : Rule := fun s => clauseSequence s transactionClauses

/-- A word, a condition between parentheses, and statements between braces. -/
def conditionalClause (word : String) : Rule := fun s =>
  texts [word, " ("] ++ firstOf s "condition" fun condition rest =>
    [.required "condition" condition, .text ") "] ++ block rest

/-- A word and statements between braces. -/
def plainClause (word : String) : Rule := fun s => texts [word, " "] ++ block s.children

/-- The word `catch`, an error between parentheses, and statements between
braces. -/
def catchStatement : Rule := fun s =>
  match s.construct with
  | .catchStatement type name =>
    .text "catch (" :: typed type "exception name" name ++ [.text ") "] ++ block s.children
  | _ => fail .wrongConstruct

/-- The workers among the clauses of a fork. -/
def forkWorkers (s : Setting) : List NodeId :=
  s.children.takeWhile fun child => s.tag? child == some .workerDeclaration

/-- The clauses of a fork that are not workers. -/
def forkRest (s : Setting) : List NodeId :=
  s.children.dropWhile fun child => s.tag? child == some .workerDeclaration

/-- The word `fork`, workers between braces, and the clauses that collect their
results. -/
def forkJoinStatement : Rule := fun s =>
  clauses s forkJoinClauses
    (.text "fork " :: block (forkWorkers s) ++ [.group (.led " ") (forkRest s)])

/-- The word `join`, a condition and a result between parentheses, and
statements between braces. -/
def joinStatement : Rule := fun s =>
  match s.construct with
  | .joinStatement condition type name =>
    let condition := Text.trim condition
    demand (!condition.isEmpty) (.empty "join condition") ++
      texts ["join (", condition, ") ("] ++ typed type "join result name" name ++
      [.text ") "] ++ block s.children
  | _ => fail .wrongConstruct

/-- The word `timeout`, an expression and a result between parentheses, and
statements between braces. -/
def timeoutStatement : Rule := fun s =>
  match s.construct with
  | .timeoutStatement type name =>
    firstOf s "timeout expression" fun timeout rest =>
      [.text "timeout (", .required "timeout expression" timeout, .text ") ("] ++
        typed type "timeout result name" name ++ [.text ") "] ++ block rest
  | _ => fail .wrongConstruct

end SourceScribe.Grammar
