import SourceScribe.Grammar.Compound
import SourceScribe.Grammar.Expressions
import SourceScribe.Grammar.Statements

/-!
# The grammar

Every kind has a rule. A rule may be used for nodes of another kind; most
rules then reject the node, and those that look at no fragment write it like
one of their own.
-/

namespace SourceScribe.Grammar

/-- The rule of a kind. -/
def rule : Tag → Rule
  | .compilationUnit => compilationUnit
  | .packageDeclaration => packageDeclaration
  | .importDeclaration => importDeclaration
  | .annotationUse => annotationUse
  | .annotationAttribute => annotationAttribute
  | .serviceDefinition => serviceDefinition
  | .resourceDefinition => resourceDefinition
  | .functionDefinition => functionDefinition
  | .connectorDefinition => connectorDefinition
  | .actionDefinition => actionDefinition
  | .structDefinition => structDefinition
  | .constantDefinition => constantDefinition
  | .typeMapperDefinition => typeMapperDefinition
  | .workerDeclaration => workerDeclaration
  | .parameterDefinition => parameterDefinition
  | .returnParameter => returnParameter
  | .variableDefinition => variableDefinition
  | .variableDefinitionStatement => variableDefinitionStatement
  | .assignmentStatement => assignmentStatement
  | .expressionStatement => expressionStatement
  | .returnStatement => returnStatement
  | .replyStatement => keywordStatement "reply"
  | .throwStatement => keywordStatement "throw"
  | .breakStatement => bareStatement "break"
  | .abortStatement => bareStatement "abort"
  | .commentStatement => commentStatement
  | .workerInvocationStatement => workerInteraction "->"
  | .workerReplyStatement => workerInteraction "<-"
  | .blockStatement => blockStatement
  | .transformStatement => transformStatement
  | .ifElseStatement => ifElseStatement
  | .ifStatement => conditionalClause "if"
  | .elseIfStatement => conditionalClause "else if"
  | .elseStatement => plainClause "else"
  | .whileStatement => conditionalClause "while"
  | .tryCatchStatement => tryCatchStatement
  | .tryStatement => plainClause "try"
  | .catchStatement => catchStatement
  | .finallyStatement => plainClause "finally"
  | .forkJoinStatement => forkJoinStatement
  | .joinStatement => joinStatement
  | .timeoutStatement => timeoutStatement
  | .transactionAbortedStatement => transactionAbortedStatement
  | .transactionStatement => plainClause "transaction"
  | .abortedStatement => plainClause "aborted"
  | .committedStatement => plainClause "committed"
  | .functionInvocationExpression => functionInvocation
  | .actionInvocationExpression => actionInvocation
  | .connectorInitExpression => connectorInit
  | .binaryExpression => binaryExpression
  | .unaryExpression => unaryExpression
  | .parenthesizedExpression => parenthesized
  | .basicLiteralExpression => basicLiteral
  | .variableReferenceExpression => variableReference
  | .fieldAccessExpression => fieldAccess
  | .indexAccessExpression => indexAccess
  | .typeCastExpression => typeCast
  | .typeConversionExpression => typeConversion
  | .arrayInitExpression => arrayInit
  | .mapInitExpression => mapInit
  | .keyValueExpression => keyValue
  | .backQuoteExpression => backQuote

end SourceScribe.Grammar
