/-!
# Tags

Every construct of the generated language has a tag, which names its kind and
nothing else. Documents and messages use the names of the tags.
-/

namespace SourceScribe

/-- The kinds of constructs, in declared order. -/
inductive Tag where
  /-- A whole source file. -/
  | compilationUnit
  /-- The package of a source file. -/
  | packageDeclaration
  /-- The use of another package, possibly under a short name. -/
  | importDeclaration
  /-- An annotation in front of a definition or a parameter. -/
  | annotationUse
  /-- One attribute of an annotation. -/
  | annotationAttribute
  /-- A service of a protocol, with resources as members. -/
  | serviceDefinition
  /-- A resource of a service. -/
  | resourceDefinition
  /-- A function. -/
  | functionDefinition
  /-- A connector, with actions as members. -/
  | connectorDefinition
  /-- An action of a connector. -/
  | actionDefinition
  /-- A record type, with fields as members. -/
  | structDefinition
  /-- A named constant. -/
  | constantDefinition
  /-- A conversion between two types. -/
  | typeMapperDefinition
  /-- A worker with its body. -/
  | workerDeclaration
  /-- A parameter of a definition. -/
  | parameterDefinition
  /-- A type that a definition returns, possibly named. -/
  | returnParameter
  /-- A variable among the members of a definition. -/
  | variableDefinition
  /-- A variable among statements. -/
  | variableDefinitionStatement
  /-- An assignment to one or more targets. -/
  | assignmentStatement
  /-- An expression that stands as a statement. -/
  | expressionStatement
  /-- The end of a function, with its values. -/
  | returnStatement
  /-- The reply of a resource. -/
  | replyStatement
  /-- An error that is thrown. -/
  | throwStatement
  /-- The end of a loop. -/
  | breakStatement
  /-- The end of a transaction. -/
  | abortStatement
  /-- A comment of one or more lines. -/
  | commentStatement
  /-- Messages sent to a worker. -/
  | workerInvocationStatement
  /-- Messages received from a worker. -/
  | workerReplyStatement
  /-- Statements between braces. -/
  | blockStatement
  /-- Statements that transform data. -/
  | transformStatement
  /-- A conditional statement with all its clauses. -/
  | ifElseStatement
  /-- The first clause of a conditional statement. -/
  | ifStatement
  /-- A further clause of a conditional statement. -/
  | elseIfStatement
  /-- The last clause of a conditional statement. -/
  | elseStatement
  /-- A loop. -/
  | whileStatement
  /-- A guarded statement with all its clauses. -/
  | tryCatchStatement
  /-- The guarded clause. -/
  | tryStatement
  /-- The clause that handles an error. -/
  | catchStatement
  /-- The clause that runs in any case. -/
  | finallyStatement
  /-- Workers that run side by side, with the clauses that collect their results. -/
  | forkJoinStatement
  /-- The clause that waits for workers. -/
  | joinStatement
  /-- The clause that stops waiting for workers. -/
  | timeoutStatement
  /-- A transaction with all its clauses. -/
  | transactionAbortedStatement
  /-- The clause that runs the transaction. -/
  | transactionStatement
  /-- The clause for an aborted transaction. -/
  | abortedStatement
  /-- The clause for a committed transaction. -/
  | committedStatement
  /-- The invocation of a function. -/
  | functionInvocationExpression
  /-- The invocation of an action of a connector. -/
  | actionInvocationExpression
  /-- The creation of a connector. -/
  | connectorInitExpression
  /-- An operator between two operands. -/
  | binaryExpression
  /-- An operator in front of an operand. -/
  | unaryExpression
  /-- An expression between parentheses. -/
  | parenthesizedExpression
  /-- A literal. -/
  | basicLiteralExpression
  /-- The use of a variable, possibly of another package. -/
  | variableReferenceExpression
  /-- The field of a record. -/
  | fieldAccessExpression
  /-- The item at an index. -/
  | indexAccessExpression
  /-- A cast to another type. -/
  | typeCastExpression
  /-- A conversion to another type. -/
  | typeConversionExpression
  /-- A list of items. -/
  | arrayInitExpression
  /-- A list of entries. -/
  | mapInitExpression
  /-- One entry of a map. -/
  | keyValueExpression
  /-- A template between back quotes. -/
  | backQuoteExpression
deriving DecidableEq, Repr

namespace Tag

/-- Every tag, in declared order. -/
def all : List Tag :=
  [.compilationUnit, .packageDeclaration, .importDeclaration, .annotationUse,
    .annotationAttribute, .serviceDefinition, .resourceDefinition, .functionDefinition,
    .connectorDefinition, .actionDefinition, .structDefinition, .constantDefinition,
    .typeMapperDefinition, .workerDeclaration, .parameterDefinition, .returnParameter,
    .variableDefinition, .variableDefinitionStatement, .assignmentStatement, .expressionStatement,
    .returnStatement, .replyStatement, .throwStatement, .breakStatement, .abortStatement,
    .commentStatement, .workerInvocationStatement, .workerReplyStatement, .blockStatement,
    .transformStatement, .ifElseStatement, .ifStatement, .elseIfStatement, .elseStatement,
    .whileStatement, .tryCatchStatement, .tryStatement, .catchStatement, .finallyStatement,
    .forkJoinStatement, .joinStatement, .timeoutStatement, .transactionAbortedStatement,
    .transactionStatement, .abortedStatement, .committedStatement, .functionInvocationExpression,
    .actionInvocationExpression, .connectorInitExpression, .binaryExpression, .unaryExpression,
    .parenthesizedExpression, .basicLiteralExpression, .variableReferenceExpression,
    .fieldAccessExpression, .indexAccessExpression, .typeCastExpression,
    .typeConversionExpression, .arrayInitExpression, .mapInitExpression, .keyValueExpression,
    .backQuoteExpression]

/-- The name of a tag. -/
def name : Tag → String
  | .compilationUnit => "CompilationUnit"
  | .packageDeclaration => "PackageDeclaration"
  | .importDeclaration => "ImportDeclaration"
  | .annotationUse => "Annotation"
  | .annotationAttribute => "AnnotationAttribute"
  | .serviceDefinition => "ServiceDefinition"
  | .resourceDefinition => "ResourceDefinition"
  | .functionDefinition => "FunctionDefinition"
  | .connectorDefinition => "ConnectorDefinition"
  | .actionDefinition => "ActionDefinition"
  | .structDefinition => "StructDefinition"
  | .constantDefinition => "ConstantDefinition"
  | .typeMapperDefinition => "TypeMapperDefinition"
  | .workerDeclaration => "WorkerDeclaration"
  | .parameterDefinition => "ParameterDefinition"
  | .returnParameter => "ReturnParameter"
  | .variableDefinition => "VariableDefinition"
  | .variableDefinitionStatement => "VariableDefinitionStatement"
  | .assignmentStatement => "AssignmentStatement"
  | .expressionStatement => "ExpressionStatement"
  | .returnStatement => "ReturnStatement"
  | .replyStatement => "ReplyStatement"
  | .throwStatement => "ThrowStatement"
  | .breakStatement => "BreakStatement"
  | .abortStatement => "AbortStatement"
  | .commentStatement => "CommentStatement"
  | .workerInvocationStatement => "WorkerInvocationStatement"
  | .workerReplyStatement => "WorkerReplyStatement"
  | .blockStatement => "BlockStatement"
  | .transformStatement => "TransformStatement"
  | .ifElseStatement => "IfElseStatement"
  | .ifStatement => "IfStatement"
  | .elseIfStatement => "ElseIfStatement"
  | .elseStatement => "ElseStatement"
  | .whileStatement => "WhileStatement"
  | .tryCatchStatement => "TryCatchStatement"
  | .tryStatement => "TryStatement"
  | .catchStatement => "CatchStatement"
  | .finallyStatement => "FinallyStatement"
  | .forkJoinStatement => "ForkJoinStatement"
  | .joinStatement => "JoinStatement"
  | .timeoutStatement => "TimeoutStatement"
  | .transactionAbortedStatement => "TransactionAbortedStatement"
  | .transactionStatement => "TransactionStatement"
  | .abortedStatement => "AbortedStatement"
  | .committedStatement => "CommittedStatement"
  | .functionInvocationExpression => "FunctionInvocationExpression"
  | .actionInvocationExpression => "ActionInvocationExpression"
  | .connectorInitExpression => "ConnectorInitExpression"
  | .binaryExpression => "BinaryExpression"
  | .unaryExpression => "UnaryExpression"
  | .parenthesizedExpression => "ParenthesizedExpression"
  | .basicLiteralExpression => "BasicLiteralExpression"
  | .variableReferenceExpression => "VariableReferenceExpression"
  | .fieldAccessExpression => "FieldAccessExpression"
  | .indexAccessExpression => "IndexAccessExpression"
  | .typeCastExpression => "TypeCastExpression"
  | .typeConversionExpression => "TypeConversionExpression"
  | .arrayInitExpression => "ArrayInitExpression"
  | .mapInitExpression => "MapInitExpression"
  | .keyValueExpression => "KeyValueExpression"
  | .backQuoteExpression => "BackQuoteExpression"

/-- The tag of a name. -/
def ofName? (name : String) : Option Tag := all.find? (·.name == name)

/-- The definitions that stand at the top of a source file and that a blank
line separates from what precedes them. -/
def isDefinition : Tag → Bool
  | .serviceDefinition | .functionDefinition | .connectorDefinition | .structDefinition
  | .constantDefinition | .typeMapperDefinition => true
  | _ => false

/-- The kinds whose names say that they are expressions. -/
def isExpression (t : Tag) : Bool := "Expression".toList.isSuffixOf t.name.toList

end Tag

end SourceScribe
