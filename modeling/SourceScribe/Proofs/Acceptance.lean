import SourceScribe.Grammar.Compound
import SourceScribe.Grammar.Sections
import SourceScribe.Grammar.Expressions

/-!
# What a construct accepts

Whether a node is well formed depends on its fragments and on the kinds of its
children, in order, and on nothing else. The conditions are stated here without
saying how they are checked.
-/

namespace SourceScribe

namespace Tag

/-- The kinds of the children of a definition stand in the order of their
sections. -/
def InOrder (tags : List Tag) : Prop :=
  tags.Pairwise fun a b => Sections.rank (some a) ≤ Sections.rank (some b)

/-- The children of a definition are annotations, parameters and return
parameters only. -/
def NoBody (tags : List Tag) : Prop :=
  ∀ tag ∈ tags, tag ∈ [Tag.annotationUse, .parameterDefinition, .returnParameter]

end Tag

namespace ClauseRule

/-- The numbers of clauses that a rule allows. -/
def Allows (rule : ClauseRule) (n : Nat) : Prop :=
  (rule.required = true → n ≠ 0) ∧ (rule.repeated = false → n ≤ 1)

/-- Clauses follow rules: those of the first rule come first, in a number that it
allows, and the others follow the other rules. -/
inductive Follows : List ClauseRule → List Tag → Prop
  | nil : Follows [] []
  | cons {rule : ClauseRule} {rules : List ClauseRule} {n : Nat} {tags : List Tag} :
    rule.Allows n → Follows rules tags → Follows (rule :: rules) (List.replicate n rule.tag ++ tags)

end ClauseRule

namespace Text.Name

/-- A name, possibly behind its package. -/
def Qualified (package : Option String) (name : String) : Prop :=
  (∀ p ∈ package, isIdentifier p = true) ∧ isIdentifier name = true

/-- A type and a name. -/
def Typed (type name : String) : Prop := isTypeName type = true ∧ isIdentifier name = true

end Text.Name

/-- The value fits the type of a literal. -/
def LiteralType.Accepts (value : String) : LiteralType → Prop
  | .boolean => value = "true" ∨ value = "false"
  | .int | .float => Text.trim value ≠ ""
  | .string | .null => True

open Text.Name in
-- The tag has the equations of the many cases stated here, once for all proofs.
/-- The construct may be written with children of the given kinds. -/
@[grind =]
def Construct.Accepts (tags : List Tag) : Construct → Prop
  | .compilationUnit => True
  | .packageDeclaration name => isDotted name = true
  | .importDeclaration package shortName =>
    isDotted package = true ∧ ∀ n ∈ shortName, isIdentifier n = true
  | .annotationUse package name => Qualified package name
  | .annotationAttribute key => isIdentifier key = true ∧ tags.length = 1
  | .serviceDefinition protocol name =>
    Tag.InOrder tags ∧ .parameterDefinition ∉ tags ∧ .returnParameter ∉ tags ∧
      isIdentifier protocol = true ∧ isIdentifier name = true
  | .resourceDefinition name =>
    Tag.InOrder tags ∧ .returnParameter ∉ tags ∧ isIdentifier name = true
  | .functionDefinition name given =>
    Tag.InOrder tags ∧ (Modifiers.isPublic.union .isNative).contains given = true ∧
      isIdentifier name = true ∧ (given.contains .isNative = true → Tag.NoBody tags)
  | .connectorDefinition name given =>
    Tag.InOrder tags ∧ .returnParameter ∉ tags ∧ Modifiers.isNative.contains given = true ∧
      isIdentifier name = true
  | .actionDefinition name given =>
    Tag.InOrder tags ∧ Modifiers.isNative.contains given = true ∧
      isIdentifier name = true ∧ (given.contains .isNative = true → Tag.NoBody tags)
  | .structDefinition name =>
    Tag.InOrder tags ∧ (∀ tag ∈ tags, tag = .annotationUse ∨ tag = .variableDefinition) ∧
      isIdentifier name = true
  | .constantDefinition type name => Typed type name ∧ tags.length = 1
  | .typeMapperDefinition name =>
    Tag.InOrder tags ∧ tags.count .parameterDefinition = 1 ∧ tags.count .returnParameter = 1 ∧
      isIdentifier name = true
  | .workerDeclaration name =>
    Tag.InOrder tags ∧ .annotationUse ∉ tags ∧ .returnParameter ∉ tags ∧ isIdentifier name = true
  | .parameterDefinition type name => (∀ tag ∈ tags, tag = .annotationUse) ∧ Typed type name
  | .returnParameter type name =>
    isTypeName type = true ∧ (∀ n ∈ name, isIdentifier n = true) ∧ tags = []
  | .variableDefinition type name => tags.length ≤ 1 ∧ Typed type name
  | .variableDefinitionStatement type name => tags.length ≤ 1 ∧ Typed type name
  | .assignmentStatement => 2 ≤ tags.length
  | .expressionStatement => tags.length = 1
  | .returnStatement => True
  | .replyStatement => tags.length = 1
  | .throwStatement => tags.length = 1
  | .breakStatement => tags = []
  | .abortStatement => tags = []
  | .commentStatement _ => tags = []
  | .workerInvocationStatement worker => tags ≠ [] ∧ isIdentifier worker = true
  | .workerReplyStatement worker => tags ≠ [] ∧ isIdentifier worker = true
  | .blockStatement => True
  | .transformStatement => True
  | .ifElseStatement => ClauseRule.Follows Grammar.ifElseClauses tags
  | .ifStatement => tags ≠ []
  | .elseIfStatement => tags ≠ []
  | .elseStatement => True
  | .whileStatement => tags ≠ []
  | .tryCatchStatement => ClauseRule.Follows Grammar.tryCatchClauses tags
  | .tryStatement => True
  | .catchStatement type name => Typed type name
  | .finallyStatement => True
  | .forkJoinStatement => ClauseRule.Follows Grammar.forkJoinClauses tags
  | .joinStatement condition type name => Text.trim condition ≠ "" ∧ Typed type name
  | .timeoutStatement type name => tags ≠ [] ∧ Typed type name
  | .transactionAbortedStatement => ClauseRule.Follows Grammar.transactionClauses tags
  | .transactionStatement => True
  | .abortedStatement => True
  | .committedStatement => True
  | .functionInvocationExpression function => (invocation? function).isSome = true
  | .actionInvocationExpression package connector action =>
    Qualified package connector ∧ isIdentifier action = true
  | .connectorInitExpression package connector => Qualified package connector
  | .binaryExpression _ => tags.length = 2
  | .unaryExpression _ => tags.length = 1
  | .parenthesizedExpression => tags.length = 1
  | .basicLiteralExpression type value => tags = [] ∧ type.Accepts value
  | .variableReferenceExpression package name => tags = [] ∧ Qualified package name
  | .fieldAccessExpression field => tags.length = 1 ∧ isIdentifier field = true
  | .indexAccessExpression => tags.length = 2
  | .typeCastExpression target => isTypeName target = true ∧ tags.length = 1
  | .typeConversionExpression target => isTypeName target = true ∧ tags.length = 1
  | .arrayInitExpression => True
  | .mapInitExpression => ∀ tag ∈ tags, tag = .keyValueExpression
  | .keyValueExpression => tags.length = 2
  | .backQuoteExpression template => tags = [] ∧ '\x60' ∉ template.toList

end SourceScribe
