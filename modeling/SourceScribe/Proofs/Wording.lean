import SourceScribe.Proofs.Wording.Compound
import SourceScribe.Proofs.Wording.Expressions
import SourceScribe.Proofs.Wording.Statements

/-!
# The grammar and the printer

The rule that the grammar has for a construct realizes it, whatever the
construct.
-/

namespace SourceScribe.Grammar

/-- Every construct is realized by the rule of its kind. -/
theorem realizes_rule (c : Construct) : Rule.Realizes (rule c.tag) c := by
  cases c with
  | compilationUnit => exact realizes_compilationUnit
  | packageDeclaration name => exact realizes_packageDeclaration name
  | importDeclaration package shortName => exact realizes_importDeclaration package shortName
  | annotationUse package name => exact realizes_annotationUse package name
  | annotationAttribute key => exact realizes_annotationAttribute key
  | serviceDefinition protocol name => exact realizes_serviceDefinition protocol name
  | resourceDefinition name => exact realizes_resourceDefinition name
  | functionDefinition name given => exact realizes_functionDefinition name given
  | connectorDefinition name given => exact realizes_connectorDefinition name given
  | actionDefinition name given => exact realizes_actionDefinition name given
  | structDefinition name => exact realizes_structDefinition name
  | constantDefinition type name => exact realizes_constantDefinition type name
  | typeMapperDefinition name => exact realizes_typeMapperDefinition name
  | workerDeclaration name => exact realizes_workerDeclaration name
  | parameterDefinition type name => exact realizes_parameterDefinition type name
  | returnParameter type name => exact realizes_returnParameter type name
  | variableDefinition type name => exact realizes_variableDefinition type name
  | variableDefinitionStatement type name => exact realizes_variableDefinitionStatement type name
  | assignmentStatement => exact realizes_assignmentStatement
  | expressionStatement => exact realizes_expressionStatement
  | returnStatement => exact realizes_returnStatement
  | replyStatement => exact realizes_keywordStatement _ (fun _ => Iff.rfl) fun _ _ => rfl
  | throwStatement => exact realizes_keywordStatement _ (fun _ => Iff.rfl) fun _ _ => rfl
  | breakStatement => exact realizes_bareStatement _ (fun _ => Iff.rfl) fun _ _ => rfl
  | abortStatement => exact realizes_bareStatement _ (fun _ => Iff.rfl) fun _ _ => rfl
  | commentStatement text => exact realizes_commentStatement text
  | workerInvocationStatement worker =>
    exact realizes_workerInteraction _ worker (.inl rfl) fun _ _ => rfl
  | workerReplyStatement worker =>
    exact realizes_workerInteraction _ worker (.inr rfl) fun _ _ => rfl
  | blockStatement => exact realizes_blockStatement
  | transformStatement => exact realizes_transformStatement
  | ifElseStatement =>
    exact realizes_clauseSequence (by decide) (fun _ => Iff.rfl) fun _ _ => rfl
  | ifStatement => exact realizes_conditionalClause _ (fun _ => Iff.rfl) fun _ _ => rfl
  | elseIfStatement => exact realizes_conditionalClause _ (fun _ => Iff.rfl) fun _ _ => rfl
  | elseStatement => exact realizes_plainClause _ (fun _ => trivial) fun _ _ => rfl
  | whileStatement => exact realizes_conditionalClause _ (fun _ => Iff.rfl) fun _ _ => rfl
  | tryCatchStatement =>
    exact realizes_clauseSequence (by decide) (fun _ => Iff.rfl) fun _ _ => rfl
  | tryStatement => exact realizes_plainClause _ (fun _ => trivial) fun _ _ => rfl
  | catchStatement type name => exact realizes_catchStatement type name
  | finallyStatement => exact realizes_plainClause _ (fun _ => trivial) fun _ _ => rfl
  | forkJoinStatement => exact realizes_forkJoinStatement
  | joinStatement condition type name => exact realizes_joinStatement condition type name
  | timeoutStatement type name => exact realizes_timeoutStatement type name
  | transactionAbortedStatement =>
    exact realizes_clauseSequence (by decide) (fun _ => Iff.rfl) fun _ _ => rfl
  | transactionStatement => exact realizes_plainClause _ (fun _ => trivial) fun _ _ => rfl
  | abortedStatement => exact realizes_plainClause _ (fun _ => trivial) fun _ _ => rfl
  | committedStatement => exact realizes_plainClause _ (fun _ => trivial) fun _ _ => rfl
  | functionInvocationExpression function => exact realizes_functionInvocation function
  | actionInvocationExpression package connector action =>
    exact realizes_actionInvocation package connector action
  | connectorInitExpression package connector => exact realizes_connectorInit package connector
  | binaryExpression operator => exact realizes_binaryExpression operator
  | unaryExpression operator => exact realizes_unaryExpression operator
  | parenthesizedExpression => exact realizes_parenthesized
  | basicLiteralExpression type value => exact realizes_basicLiteral type value
  | variableReferenceExpression package name => exact realizes_variableReference package name
  | fieldAccessExpression field => exact realizes_fieldAccess field
  | indexAccessExpression => exact realizes_indexAccess
  | typeCastExpression target => exact realizes_typeCast target
  | typeConversionExpression target => exact realizes_typeConversion target
  | arrayInitExpression => exact realizes_arrayInit
  | mapInitExpression => exact realizes_mapInit
  | keyValueExpression => exact realizes_keyValue
  | backQuoteExpression template => exact realizes_backQuote template

end SourceScribe.Grammar
