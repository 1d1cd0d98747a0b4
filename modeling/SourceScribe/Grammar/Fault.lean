import SourceScribe.Ast.Basic

/-!
# Faults of nodes

A node is malformed when one of its fragments or its list of children does
not fit its kind, or when a child that it cannot do without was written
elsewhere.
-/

namespace SourceScribe

/-- Why a node is malformed. -/
inductive Fault where
  /-- The node is of another kind than its visitor writes. -/
  | wrongConstruct
  /-- A fragment is empty. -/
  | empty (what : String)
  /-- A fragment is not an identifier. -/
  | notIdentifier (what value : String)
  /-- A fragment is not a type name. -/
  | notType (value : String)
  /-- A fragment is not the name of a package. -/
  | notPackage (value : String)
  /-- A fragment is not the head of an invocation. -/
  | notInvocation (value : String)
  /-- A fragment is not a truth value. -/
  | notBoolean (value : String)
  /-- A template holds the quote that would end it. -/
  | backQuoteInTemplate
  /-- The node has another number of children than its kind needs. -/
  | childCount (expected : String) (found : Nat)
  /-- A child is missing. -/
  | missing (what : String)
  /-- The node has children and its kind takes none. -/
  | takesNoChildren
  /-- A child stands behind a child that it should precede. -/
  | outOfOrder (tag : Option Tag) (child : NodeId)
  /-- A child is no clause that may follow the ones in front of it. -/
  | unexpectedClause (tag : Option Tag) (child : NodeId)
  /-- The node has flags that its kind does not take. -/
  | modifiersNotAllowed (modifiers : Modifiers)
  /-- A definition without body has one. -/
  | nativeBody
  /-- A definition that returns nothing has return parameters. -/
  | returnParameters
  /-- A service has parameters. -/
  | serviceParameters
  /-- A record type has parameters or return parameters. -/
  | structParameters
  /-- A member of a record type is not a field. -/
  | notField (child : NodeId)
  /-- A type mapper has not one parameter and one return parameter. -/
  | typeMapperShape
  /-- A worker has annotations. -/
  | annotatedWorker
  /-- A parameter has a child that is not an annotation. -/
  | parameterChild
  /-- A variable has more than one initial value. -/
  | initializers
  /-- An entry of a map is not a pair. -/
  | notPair (child : NodeId)
  /-- A child that the node cannot do without was written elsewhere. -/
  | alreadyGenerated (slot : String) (tag : Tag) (child : NodeId)
deriving DecidableEq, Repr

/-- How a message names a child of a kind, if it exists. -/
def describeChild (tag : Option Tag) (child : NodeId) : String :=
  (match tag with
    | some t => t.name
    | none => "node") ++ child.text

/-- A value as a message quotes it. -/
def quoted (value : String) : String := "`" ++ value ++ "`"

/-- The wording of a fault. -/
def Fault.message : Fault → String
  | .wrongConstruct => "routed to a visitor for a different construct"
  | .empty what => what ++ " is empty"
  | .notIdentifier what value => what ++ " " ++ quoted value ++ " is not an identifier"
  | .notType value => quoted value ++ " is not a type name"
  | .notPackage value => quoted value ++ " is not a package name"
  | .notInvocation value => quoted value ++ " is not an invocation fragment"
  | .notBoolean value => quoted value ++ " is not a boolean"
  | .backQuoteInTemplate => "template contains a back quote"
  | .childCount expected found =>
    "expected " ++ expected ++ ", found " ++ toString found ++ " children"
  | .missing what => "missing " ++ what
  | .takesNoChildren => "takes no children"
  | .outOfOrder tag child => describeChild tag child ++ " is out of order in the definition"
  | .unexpectedClause tag child =>
    "unexpected " ++ describeChild tag child ++ " in clause sequence"
  | .modifiersNotAllowed m => "modifiers " ++ m.describe ++ " are not allowed here"
  | .nativeBody => "native definition cannot have a body"
  | .returnParameters => "does not take return parameters"
  | .serviceParameters => "services take no parameters"
  | .structParameters => "structs take no parameters"
  | .notField child => "struct member " ++ child.text ++ " is not a field definition"
  | .typeMapperShape => "a type mapper takes one parameter and one return type"
  | .annotatedWorker => "workers cannot be annotated"
  | .parameterChild => "parameters may only contain annotations"
  | .initializers => "a variable has at most one initializer"
  | .notPair child => "map entry " ++ child.text ++ " is not a key-value pair"
  | .alreadyGenerated slot tag child =>
    slot ++ " " ++ tag.name ++ child.text ++ " was already generated elsewhere"

end SourceScribe
