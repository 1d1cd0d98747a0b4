import SourceScribe.Grammar.Fragments

/-!
# Sequences of clauses

A statement of several clauses has a rule for each kind of clause, in order:
whether there must be one and whether there may be several. The children are
matched against the rules from left to right, each rule taking as many as it
can.
-/

namespace SourceScribe

/-- What is asked of the clauses of one kind. -/
structure ClauseRule where
  /-- The kind. -/
  tag : Tag
  /-- Whether there must be one. -/
  required : Bool
  /-- Whether there may be several. -/
  repeated : Bool
deriving DecidableEq, Repr

namespace ClauseRule

/-- One clause. -/
def one (tag : Tag) : ClauseRule := ⟨tag, true, false⟩

/-- One clause or none. -/
def optional (tag : Tag) : ClauseRule := ⟨tag, false, false⟩

/-- Any number of clauses. -/
def many (tag : Tag) : ClauseRule := ⟨tag, false, true⟩

/-- The number of leading children that a rule takes. -/
def taken (rule : ClauseRule) (tag? : NodeId → Option Tag) (children : List NodeId) : Nat :=
  let run := (children.takeWhile fun child => tag? child == some rule.tag).length
  if rule.repeated then run else min run 1

/-- Checks that the children follow the rules. -/
def check (tag? : NodeId → Option Tag) : List ClauseRule → List NodeId → Except Fault Unit
  | [], [] => .ok ()
  | [], child :: _ => .error (.unexpectedClause (tag? child) child)
  | rule :: rules, children =>
    let n := rule.taken tag? children
    if rule.required && n = 0 then .error (.missing (rule.tag.name ++ " clause"))
    else check tag? rules (children.drop n)

end ClauseRule

namespace Script

/-- Goes on when the children follow the rules. -/
def clauses (s : Setting) (rules : List ClauseRule) (next : Script) : Script :=
  checked (ClauseRule.check s.tag? rules s.children) fun () => next

/-- Clauses with a space between them. -/
def clauseSequence (s : Setting) (rules : List ClauseRule) : Script :=
  clauses s rules [.group (.separated " ") s.children]

end Script

end SourceScribe
