import SourceScribe.Construct.Operator
import SourceScribe.Construct.Tag

/-!
# Constructs

A construct is a kind together with the fragments of text that it needs to be
written: names, types, operators, literals. What it is built from, such as
operands and statements, are the children of its node and not part of it.
-/

namespace SourceScribe

/-- A kind together with its fragments. -/
inductive Construct where
  /-- A whole source file. -/
  | compilationUnit
  /-- The package of a source file. -/
  | packageDeclaration (name : String)
  /-- The use of another package, possibly under a short name. -/
  | importDeclaration (package : String) (shortName : Option String)
  /-- An annotation in front of a definition or a parameter. -/
  | annotationUse (package : Option String) (name : String)
  /-- One attribute of an annotation. -/
  | annotationAttribute (key : String)
  /-- A service of a protocol, with resources as members. -/
  | serviceDefinition (protocol : String) (name : String)
  /-- A resource of a service. -/
  | resourceDefinition (name : String)
  /-- A function. -/
  | functionDefinition (name : String) (modifiers : Modifiers)
  /-- A connector, with actions as members. -/
  | connectorDefinition (name : String) (modifiers : Modifiers)
  /-- An action of a connector. -/
  | actionDefinition (name : String) (modifiers : Modifiers)
  /-- A record type, with fields as members. -/
  | structDefinition (name : String)
  /-- A named constant. -/
  | constantDefinition (type : String) (name : String)
  /-- A conversion between two types. -/
  | typeMapperDefinition (name : String)
  /-- A worker with its body. -/
  | workerDeclaration (name : String)
  /-- A parameter of a definition. -/
  | parameterDefinition (type : String) (name : String)
  /-- A type that a definition returns, possibly named. -/
  | returnParameter (type : String) (name : Option String)
  /-- A variable among the members of a definition. -/
  | variableDefinition (type : String) (name : String)
  /-- A variable among statements. -/
  | variableDefinitionStatement (type : String) (name : String)
  /-- An assignment to one or more targets. -/
  | assignmentStatement
  /-- An expression that stands as a statement. -/
  | expressionStatement
  /-- The end of a function, with its values. -/
  | returnStatement
  /-- The reply of a resource. -/
  | replyStatement
  /-- An error that is thrown. -/
  | throwStatement
  /-- The end of a loop. -/
  | breakStatement
  /-- The end of a transaction. -/
  | abortStatement
  /-- A comment of one or more lines. -/
  | commentStatement (text : String)
  /-- Messages sent to a worker. -/
  | workerInvocationStatement (worker : String)
  /-- Messages received from a worker. -/
  | workerReplyStatement (worker : String)
  /-- Statements between braces. -/
  | blockStatement
  /-- Statements that transform data. -/
  | transformStatement
  /-- A conditional statement with all its clauses. -/
  | ifElseStatement
  /-- The first clause of a conditional statement. -/
  | ifStatement
  /-- A further clause of a conditional statement. -/
  | elseIfStatement
  /-- The last clause of a conditional statement. -/
  | elseStatement
  /-- A loop. -/
  | whileStatement
  /-- A guarded statement with all its clauses. -/
  | tryCatchStatement
  /-- The guarded clause. -/
  | tryStatement
  /-- The clause that handles an error. -/
  | catchStatement (type : String) (name : String)
  /-- The clause that runs in any case. -/
  | finallyStatement
  /-- Workers that run side by side, with the clauses that collect their results. -/
  | forkJoinStatement
  /-- The clause that waits for workers. -/
  | joinStatement (condition : String) (type : String) (name : String)
  /-- The clause that stops waiting for workers. -/
  | timeoutStatement (type : String) (name : String)
  /-- A transaction with all its clauses. -/
  | transactionAbortedStatement
  /-- The clause that runs the transaction. -/
  | transactionStatement
  /-- The clause for an aborted transaction. -/
  | abortedStatement
  /-- The clause for a committed transaction. -/
  | committedStatement
  /-- The invocation of a function. -/
  | functionInvocationExpression (function : String)
  /-- The invocation of an action of a connector. -/
  | actionInvocationExpression (package : Option String) (connector : String) (action : String)
  /-- The creation of a connector. -/
  | connectorInitExpression (package : Option String) (connector : String)
  /-- An operator between two operands. -/
  | binaryExpression (operator : BinaryOperator)
  /-- An operator in front of an operand. -/
  | unaryExpression (operator : UnaryOperator)
  /-- An expression between parentheses. -/
  | parenthesizedExpression
  /-- A literal. -/
  | basicLiteralExpression (type : LiteralType) (value : String)
  /-- The use of a variable, possibly of another package. -/
  | variableReferenceExpression (package : Option String) (name : String)
  /-- The field of a record. -/
  | fieldAccessExpression (field : String)
  /-- The item at an index. -/
  | indexAccessExpression
  /-- A cast to another type. -/
  | typeCastExpression (target : String)
  /-- A conversion to another type. -/
  | typeConversionExpression (target : String)
  /-- A list of items. -/
  | arrayInitExpression
  /-- A list of entries. -/
  | mapInitExpression
  /-- One entry of a map. -/
  | keyValueExpression
  /-- A template between back quotes. -/
  | backQuoteExpression (template : String)
deriving DecidableEq, Repr

/-- The kind of a construct. -/
def Construct.tag : Construct → Tag
  | .compilationUnit => .compilationUnit
  | .packageDeclaration _ => .packageDeclaration
  | .importDeclaration _ _ => .importDeclaration
  | .annotationUse _ _ => .annotationUse
  | .annotationAttribute _ => .annotationAttribute
  | .serviceDefinition _ _ => .serviceDefinition
  | .resourceDefinition _ => .resourceDefinition
  | .functionDefinition _ _ => .functionDefinition
  | .connectorDefinition _ _ => .connectorDefinition
  | .actionDefinition _ _ => .actionDefinition
  | .structDefinition _ => .structDefinition
  | .constantDefinition _ _ => .constantDefinition
  | .typeMapperDefinition _ => .typeMapperDefinition
  | .workerDeclaration _ => .workerDeclaration
  | .parameterDefinition _ _ => .parameterDefinition
  | .returnParameter _ _ => .returnParameter
  | .variableDefinition _ _ => .variableDefinition
  | .variableDefinitionStatement _ _ => .variableDefinitionStatement
  | .assignmentStatement => .assignmentStatement
  | .expressionStatement => .expressionStatement
  | .returnStatement => .returnStatement
  | .replyStatement => .replyStatement
  | .throwStatement => .throwStatement
  | .breakStatement => .breakStatement
  | .abortStatement => .abortStatement
  | .commentStatement _ => .commentStatement
  | .workerInvocationStatement _ => .workerInvocationStatement
  | .workerReplyStatement _ => .workerReplyStatement
  | .blockStatement => .blockStatement
  | .transformStatement => .transformStatement
  | .ifElseStatement => .ifElseStatement
  | .ifStatement => .ifStatement
  | .elseIfStatement => .elseIfStatement
  | .elseStatement => .elseStatement
  | .whileStatement => .whileStatement
  | .tryCatchStatement => .tryCatchStatement
  | .tryStatement => .tryStatement
  | .catchStatement _ _ => .catchStatement
  | .finallyStatement => .finallyStatement
  | .forkJoinStatement => .forkJoinStatement
  | .joinStatement _ _ _ => .joinStatement
  | .timeoutStatement _ _ => .timeoutStatement
  | .transactionAbortedStatement => .transactionAbortedStatement
  | .transactionStatement => .transactionStatement
  | .abortedStatement => .abortedStatement
  | .committedStatement => .committedStatement
  | .functionInvocationExpression _ => .functionInvocationExpression
  | .actionInvocationExpression _ _ _ => .actionInvocationExpression
  | .connectorInitExpression _ _ => .connectorInitExpression
  | .binaryExpression _ => .binaryExpression
  | .unaryExpression _ => .unaryExpression
  | .parenthesizedExpression => .parenthesizedExpression
  | .basicLiteralExpression _ _ => .basicLiteralExpression
  | .variableReferenceExpression _ _ => .variableReferenceExpression
  | .fieldAccessExpression _ => .fieldAccessExpression
  | .indexAccessExpression => .indexAccessExpression
  | .typeCastExpression _ => .typeCastExpression
  | .typeConversionExpression _ => .typeConversionExpression
  | .arrayInitExpression => .arrayInitExpression
  | .mapInitExpression => .mapInitExpression
  | .keyValueExpression => .keyValueExpression
  | .backQuoteExpression _ => .backQuoteExpression

/-- The types of fragments. -/
inductive FragmentType where
  /-- A text. -/
  | text
  /-- A text that may be absent. -/
  | optionalText
  /-- A set of flags. -/
  | modifiers
  /-- An operator between two operands. -/
  | binary
  /-- An operator in front of one operand. -/
  | unary
  /-- The type of a literal. -/
  | literal
deriving DecidableEq, Repr

/-- A fragment of any type. -/
inductive Fragment where
  /-- A text. -/
  | text (value : String)
  /-- A text that may be absent. -/
  | optionalText (value : Option String)
  /-- A set of flags. -/
  | modifiers (value : Modifiers)
  /-- An operator between two operands. -/
  | binary (value : BinaryOperator)
  /-- An operator in front of one operand. -/
  | unary (value : UnaryOperator)
  /-- The type of a literal. -/
  | literal (value : LiteralType)
deriving DecidableEq, Repr

/-- The names and the types of the fragments of a kind, in declared order. -/
def Tag.fragments : Tag → List (String × FragmentType)
  | .packageDeclaration | .resourceDefinition | .structDefinition | .typeMapperDefinition
  | .workerDeclaration =>
    [("name", .text)]
  | .importDeclaration =>
    [("packageName", .text), ("alias", .optionalText)]
  | .annotationUse | .variableReferenceExpression =>
    [("packageName", .optionalText), ("name", .text)]
  | .annotationAttribute =>
    [("key", .text)]
  | .serviceDefinition =>
    [("protocol", .text), ("name", .text)]
  | .functionDefinition | .connectorDefinition | .actionDefinition =>
    [("name", .text), ("modifiers", .modifiers)]
  | .constantDefinition | .parameterDefinition | .variableDefinition
  | .variableDefinitionStatement | .catchStatement | .timeoutStatement =>
    [("typeName", .text), ("name", .text)]
  | .returnParameter =>
    [("typeName", .text), ("name", .optionalText)]
  | .commentStatement =>
    [("text", .text)]
  | .workerInvocationStatement | .workerReplyStatement =>
    [("workerName", .text)]
  | .joinStatement =>
    [("condition", .text), ("typeName", .text), ("name", .text)]
  | .functionInvocationExpression =>
    [("function", .text)]
  | .actionInvocationExpression =>
    [("packageName", .optionalText), ("connectorName", .text), ("actionName", .text)]
  | .connectorInitExpression =>
    [("packageName", .optionalText), ("connectorName", .text)]
  | .binaryExpression =>
    [("operator", .binary)]
  | .unaryExpression =>
    [("operator", .unary)]
  | .basicLiteralExpression =>
    [("literalType", .literal), ("value", .text)]
  | .fieldAccessExpression =>
    [("fieldName", .text)]
  | .typeCastExpression | .typeConversionExpression =>
    [("targetType", .text)]
  | .backQuoteExpression =>
    [("template", .text)]
  | _ => []

/-- The fragments of a construct, in declared order. -/
def Construct.fragments : Construct → List Fragment
  | .packageDeclaration name =>
    [.text name]
  | .importDeclaration package shortName =>
    [.text package, .optionalText shortName]
  | .annotationUse package name =>
    [.optionalText package, .text name]
  | .annotationAttribute key =>
    [.text key]
  | .serviceDefinition protocol name =>
    [.text protocol, .text name]
  | .resourceDefinition name =>
    [.text name]
  | .functionDefinition name modifiers =>
    [.text name, .modifiers modifiers]
  | .connectorDefinition name modifiers =>
    [.text name, .modifiers modifiers]
  | .actionDefinition name modifiers =>
    [.text name, .modifiers modifiers]
  | .structDefinition name =>
    [.text name]
  | .constantDefinition type name =>
    [.text type, .text name]
  | .typeMapperDefinition name =>
    [.text name]
  | .workerDeclaration name =>
    [.text name]
  | .parameterDefinition type name =>
    [.text type, .text name]
  | .returnParameter type name =>
    [.text type, .optionalText name]
  | .variableDefinition type name =>
    [.text type, .text name]
  | .variableDefinitionStatement type name =>
    [.text type, .text name]
  | .commentStatement text =>
    [.text text]
  | .workerInvocationStatement worker =>
    [.text worker]
  | .workerReplyStatement worker =>
    [.text worker]
  | .catchStatement type name =>
    [.text type, .text name]
  | .joinStatement condition type name =>
    [.text condition, .text type, .text name]
  | .timeoutStatement type name =>
    [.text type, .text name]
  | .functionInvocationExpression function =>
    [.text function]
  | .actionInvocationExpression package connector action =>
    [.optionalText package, .text connector, .text action]
  | .connectorInitExpression package connector =>
    [.optionalText package, .text connector]
  | .binaryExpression operator =>
    [.binary operator]
  | .unaryExpression operator =>
    [.unary operator]
  | .basicLiteralExpression type value =>
    [.literal type, .text value]
  | .variableReferenceExpression package name =>
    [.optionalText package, .text name]
  | .fieldAccessExpression field =>
    [.text field]
  | .typeCastExpression target =>
    [.text target]
  | .typeConversionExpression target =>
    [.text target]
  | .backQuoteExpression template =>
    [.text template]
  | _ => []

/-- The construct of a kind with the given fragments, if they have the types
that the kind declares. -/
def Construct.ofFragments? : Tag → List Fragment → Option Construct
  | .compilationUnit, [] => some .compilationUnit
  | .packageDeclaration, [.text name] => some (.packageDeclaration name)
  | .importDeclaration, [.text package, .optionalText shortName] =>
    some (.importDeclaration package shortName)
  | .annotationUse, [.optionalText package, .text name] => some (.annotationUse package name)
  | .annotationAttribute, [.text key] => some (.annotationAttribute key)
  | .serviceDefinition, [.text protocol, .text name] => some (.serviceDefinition protocol name)
  | .resourceDefinition, [.text name] => some (.resourceDefinition name)
  | .functionDefinition, [.text name, .modifiers modifiers] =>
    some (.functionDefinition name modifiers)
  | .connectorDefinition, [.text name, .modifiers modifiers] =>
    some (.connectorDefinition name modifiers)
  | .actionDefinition, [.text name, .modifiers modifiers] =>
    some (.actionDefinition name modifiers)
  | .structDefinition, [.text name] => some (.structDefinition name)
  | .constantDefinition, [.text type, .text name] => some (.constantDefinition type name)
  | .typeMapperDefinition, [.text name] => some (.typeMapperDefinition name)
  | .workerDeclaration, [.text name] => some (.workerDeclaration name)
  | .parameterDefinition, [.text type, .text name] => some (.parameterDefinition type name)
  | .returnParameter, [.text type, .optionalText name] => some (.returnParameter type name)
  | .variableDefinition, [.text type, .text name] => some (.variableDefinition type name)
  | .variableDefinitionStatement, [.text type, .text name] =>
    some (.variableDefinitionStatement type name)
  | .assignmentStatement, [] => some .assignmentStatement
  | .expressionStatement, [] => some .expressionStatement
  | .returnStatement, [] => some .returnStatement
  | .replyStatement, [] => some .replyStatement
  | .throwStatement, [] => some .throwStatement
  | .breakStatement, [] => some .breakStatement
  | .abortStatement, [] => some .abortStatement
  | .commentStatement, [.text text] => some (.commentStatement text)
  | .workerInvocationStatement, [.text worker] => some (.workerInvocationStatement worker)
  | .workerReplyStatement, [.text worker] => some (.workerReplyStatement worker)
  | .blockStatement, [] => some .blockStatement
  | .transformStatement, [] => some .transformStatement
  | .ifElseStatement, [] => some .ifElseStatement
  | .ifStatement, [] => some .ifStatement
  | .elseIfStatement, [] => some .elseIfStatement
  | .elseStatement, [] => some .elseStatement
  | .whileStatement, [] => some .whileStatement
  | .tryCatchStatement, [] => some .tryCatchStatement
  | .tryStatement, [] => some .tryStatement
  | .catchStatement, [.text type, .text name] => some (.catchStatement type name)
  | .finallyStatement, [] => some .finallyStatement
  | .forkJoinStatement, [] => some .forkJoinStatement
  | .joinStatement, [.text condition, .text type, .text name] =>
    some (.joinStatement condition type name)
  | .timeoutStatement, [.text type, .text name] => some (.timeoutStatement type name)
  | .transactionAbortedStatement, [] => some .transactionAbortedStatement
  | .transactionStatement, [] => some .transactionStatement
  | .abortedStatement, [] => some .abortedStatement
  | .committedStatement, [] => some .committedStatement
  | .functionInvocationExpression, [.text function] =>
    some (.functionInvocationExpression function)
  | .actionInvocationExpression, [.optionalText package, .text connector, .text action] =>
    some (.actionInvocationExpression package connector action)
  | .connectorInitExpression, [.optionalText package, .text connector] =>
    some (.connectorInitExpression package connector)
  | .binaryExpression, [.binary operator] => some (.binaryExpression operator)
  | .unaryExpression, [.unary operator] => some (.unaryExpression operator)
  | .parenthesizedExpression, [] => some .parenthesizedExpression
  | .basicLiteralExpression, [.literal type, .text value] =>
    some (.basicLiteralExpression type value)
  | .variableReferenceExpression, [.optionalText package, .text name] =>
    some (.variableReferenceExpression package name)
  | .fieldAccessExpression, [.text field] => some (.fieldAccessExpression field)
  | .indexAccessExpression, [] => some .indexAccessExpression
  | .typeCastExpression, [.text target] => some (.typeCastExpression target)
  | .typeConversionExpression, [.text target] => some (.typeConversionExpression target)
  | .arrayInitExpression, [] => some .arrayInitExpression
  | .mapInitExpression, [] => some .mapInitExpression
  | .keyValueExpression, [] => some .keyValueExpression
  | .backQuoteExpression, [.text template] => some (.backQuoteExpression template)
  | _, _ => none

end SourceScribe
