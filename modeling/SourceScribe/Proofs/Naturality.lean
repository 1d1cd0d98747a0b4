import SourceScribe.Grammar.Rules
import SourceScribe.Proofs.Coverage
import SourceScribe.Proofs.Renaming

/-!
# Rules do not look at identities

Every rule of the grammar writes the same for a node that is the same but for the
names of its children. A rule is a choice by the construct of the node between
scripts that are made of combinators, and each of these is carried along.
-/

namespace SourceScribe

/-- A rule writes the same for nodes that are the same under other names. -/
def Rule.Natural (rule : Rule) : Prop :=
  ∀ (f : NodeId → NodeId) (s s' : Setting), s.Renamed f s' → Script.Carries f (rule s) (rule s')

namespace Grammar

open Script

section Declarations

theorem natural_compilationUnit : Rule.Natural compilationUnit :=
  fun f s s' h => ⟨by simp [compilationUnit, h.children], by simp [compilationUnit]⟩

theorem natural_packageDeclaration : Rule.Natural packageDeclaration := by
  intro f s s' h
  unfold packageDeclaration
  rw [h.construct, h.children]
  split
  · split <;> exact ⟨by simp, by simp⟩
  · exact carries_fail rfl

theorem natural_importDeclaration : Rule.Natural importDeclaration := by
  intro f s s' h
  unfold importDeclaration
  rw [h.construct, h.children]
  split
  · split <;> split <;> exact ⟨by simp, by simp⟩
  · exact carries_fail rfl

theorem natural_annotationUse : Rule.Natural annotationUse := by
  intro f s s' h
  unfold annotationUse
  rw [h.construct, h.children]
  split
  · exact ⟨by simp, by simp⟩
  · exact carries_fail rfl

theorem natural_annotationAttribute : Rule.Natural annotationAttribute := by
  intro f s s' h
  unfold annotationAttribute
  rw [h.construct]
  split
  · exact Carries.append ⟨by simp, by simp⟩ (carries_operand h _ _)
  · exact carries_fail rfl

theorem natural_serviceDefinition : Rule.Natural serviceDefinition := by
  intro f s s' h
  unfold serviceDefinition
  rw [h.construct]
  split
  · exact carries_sections h fun parts _ => ⟨by simp, by simp⟩
  · exact carries_fail rfl

theorem natural_resourceDefinition : Rule.Natural resourceDefinition := by
  intro f s s' h
  unfold resourceDefinition
  rw [h.construct]
  split
  · exact carries_sections h fun parts _ => ⟨by simp, by simp⟩
  · exact carries_fail rfl

theorem natural_functionDefinition : Rule.Natural functionDefinition := by
  intro f s s' h
  unfold functionDefinition
  rw [h.construct]
  split
  · exact carries_sections h fun parts _ => ⟨by simp, by simp⟩
  · exact carries_fail rfl

theorem natural_connectorDefinition : Rule.Natural connectorDefinition := by
  intro f s s' h
  unfold connectorDefinition
  rw [h.construct]
  split
  · exact carries_sections h fun parts _ => ⟨by simp, by simp⟩
  · exact carries_fail rfl

theorem natural_actionDefinition : Rule.Natural actionDefinition := by
  intro f s s' h
  unfold actionDefinition
  rw [h.construct]
  split
  · exact carries_sections h fun parts _ => ⟨by simp, by simp⟩
  · exact carries_fail rfl

/-- A child of the wrong kind is found under other names. -/
theorem find?_map {f : NodeId → NodeId} {tag? tag?' : NodeId → Option Tag}
    {children : List NodeId} (h : ∀ child ∈ children, tag?' (f child) = tag? child) (tag : Tag) :
    ((children.map f).find? fun child => tag?' child != some tag) =
      (children.find? fun child => tag? child != some tag).map f := by
  rw [List.find?_map]
  congr 1
  induction children with
  | nil => rfl
  | cons child rest ih =>
    obtain ⟨hchild, hrest⟩ := List.forall_mem_cons.mp h
    simp only [List.find?_cons, Function.comp_apply, hchild]
    split
    next => rfl
    next => exact ih hrest

theorem natural_structDefinition : Rule.Natural structDefinition := by
  intro f s s' h
  unfold structDefinition
  rw [h.construct]
  split
  · refine carries_sections h fun parts hparts => ?_
    have htags : ∀ child ∈ parts.body, s'.tag? (f child) = s.tag? child := fun child hm =>
      h.tags child (hparts ▸ List.mem_append_right _ hm)
    have hfind := find?_map htags .variableDefinition
    simp only [Sections.rename, hfind]
    cases parts.body.find? fun child => s.tag? child != some .variableDefinition with
    | none => exact ⟨by simp, by simp⟩
    | some child => exact ⟨by simp, by simp⟩
  · exact carries_fail rfl

theorem natural_constantDefinition : Rule.Natural constantDefinition := by
  intro f s s' h
  unfold constantDefinition
  rw [h.construct]
  split
  · exact Carries.append (Carries.append ⟨by simp, by simp⟩ (carries_operand h _ _))
      ⟨by simp, by simp⟩
  · exact carries_fail rfl

theorem natural_typeMapperDefinition : Rule.Natural typeMapperDefinition := by
  intro f s s' h
  unfold typeMapperDefinition
  rw [h.construct]
  split
  · exact carries_sections h fun parts _ => ⟨by simp, by simp⟩
  · exact carries_fail rfl

theorem natural_workerDeclaration : Rule.Natural workerDeclaration := by
  intro f s s' h
  unfold workerDeclaration
  rw [h.construct]
  split
  · exact carries_sections h fun parts _ => ⟨by simp, by simp⟩
  · exact carries_fail rfl

/-- Annotations that are written one by one have other names. -/
theorem carries_annotationsOf {f : NodeId → NodeId} {s s' : Setting} {children : List NodeId}
    (h : ∀ child ∈ children, s'.tag? (f child) = s.tag? child) :
    Carries f
      (children.flatMap fun child =>
        if s.tag? child = some .annotationUse then [.group (.followed " ") [child]]
        else fail .parameterChild)
      ((children.map f).flatMap fun child =>
        if s'.tag? child = some .annotationUse then [.group (.followed " ") [child]]
        else fail .parameterChild) := by
  induction children with
  | nil => exact ⟨rfl, plain_nil⟩
  | cons child rest ih =>
    obtain ⟨hchild, hrest⟩ := List.forall_mem_cons.mp h
    rw [List.map_cons, List.flatMap_cons, List.flatMap_cons, hchild]
    refine Carries.append ?_ (ih hrest)
    split
    · exact ⟨by simp, by simp⟩
    · exact carries_fail rfl

theorem natural_parameterDefinition : Rule.Natural parameterDefinition := by
  intro f s s' h
  unfold parameterDefinition
  rw [h.construct, h.children]
  split
  · exact (carries_annotationsOf h.tags).append ⟨by simp, by simp⟩
  · exact carries_fail rfl

theorem natural_returnParameter : Rule.Natural returnParameter := by
  intro f s s' h
  unfold returnParameter
  rw [h.construct]
  split
  · refine Carries.append ?_ (carries_childless h)
    split <;> exact ⟨by simp, by simp⟩
  · exact carries_fail rfl

theorem carries_variableText {f : NodeId → NodeId} {s s' : Setting} (h : s.Renamed f s')
    (type name : String) : Carries f (variableText s type name) (variableText s' type name) := by
  unfold variableText
  rw [h.children]
  cases s.children with
  | nil => exact ⟨by simp, by simp⟩
  | cons value rest => exact ⟨by simp, by simp⟩

theorem natural_variableDefinition : Rule.Natural variableDefinition := by
  intro f s s' h
  unfold variableDefinition
  rw [h.construct]
  split
  · exact carries_variableText h _ _
  · exact carries_fail rfl

end Declarations

section Statements

theorem natural_variableDefinitionStatement : Rule.Natural variableDefinitionStatement := by
  intro f s s' h
  unfold variableDefinitionStatement
  rw [h.construct]
  split
  · exact carries_variableText h _ _
  · exact carries_fail rfl

theorem natural_assignmentStatement : Rule.Natural assignmentStatement := by
  intro f s s' h
  unfold assignmentStatement
  rw [h.children, List.getLast?_map, ← List.map_dropLast]
  cases s.children.getLast? with
  | none => exact carries_fail rfl
  | some value => exact ⟨by simp [-List.map_dropLast], by simp⟩

theorem natural_expressionStatement : Rule.Natural expressionStatement :=
  fun _ _ _ h => (carries_operand h _ _).append ⟨by simp, by simp⟩

theorem natural_returnStatement : Rule.Natural returnStatement := by
  intro f s s' h
  unfold returnStatement
  rw [h.children, List.isEmpty_map]
  split <;> exact ⟨by simp, by simp⟩

theorem natural_keywordStatement (word : String) : Rule.Natural (keywordStatement word) :=
  fun _ _ _ h => (Carries.append ⟨by simp, by simp⟩ (carries_operand h _ _)).append
    ⟨by simp, by simp⟩

theorem natural_bareStatement (word : String) : Rule.Natural (bareStatement word) :=
  fun _ _ _ h => (carries_childless h).append ⟨by simp, by simp⟩

@[simp]
theorem rename_commentLine (f : NodeId → NodeId) (line : List Char) :
    rename f (commentLine line) = commentLine line := by
  unfold commentLine
  dsimp only
  split
  · rfl
  · split <;> simp

@[simp]
theorem plain_commentLine (line : List Char) : Plain (commentLine line) := by
  unfold commentLine
  dsimp only
  split
  · simp
  · split <;> simp

/-- The lines of a comment name no node. -/
theorem carries_commentLines (f : NodeId → NodeId) (lines : List (List Char)) :
    Carries f (commentLines lines) (commentLines lines) := by
  cases lines with
  | nil => exact ⟨rfl, plain_nil⟩
  | cons line rest =>
    refine Carries.append ⟨by simp, by simp⟩ ?_
    induction rest with
    | nil => exact ⟨rfl, plain_nil⟩
    | cons next rest ih =>
      rw [List.flatMap_cons]
      exact Carries.append ⟨by simp, by simp⟩ ih

theorem natural_commentStatement : Rule.Natural commentStatement := by
  intro f s s' h
  unfold commentStatement
  rw [h.construct]
  split
  · refine ((carries_childless h).append (carries_commentLines f _)).append ?_
    split <;> exact ⟨by simp, by simp⟩
  · exact carries_fail rfl

theorem natural_workerInteraction (arrow : String) : Rule.Natural (workerInteraction arrow) := by
  intro f s s' h
  unfold workerInteraction
  dsimp only
  rw [h.construct, h.children, List.isEmpty_map]
  split
  · exact ⟨by simp, by simp⟩
  · exact ⟨by simp, by simp⟩
  · exact carries_fail rfl

theorem natural_blockStatement : Rule.Natural blockStatement :=
  fun _ _ _ h => ⟨by simp [blockStatement, h.children], by simp [blockStatement]⟩

theorem natural_transformStatement : Rule.Natural transformStatement :=
  fun _ _ _ h => ⟨by simp [transformStatement, h.children], by simp [transformStatement]⟩

end Statements

section Compound

theorem carries_clauseSequence {f : NodeId → NodeId} {s s' : Setting} (h : s.Renamed f s')
    (rules : List ClauseRule) : Carries f (clauseSequence s rules) (clauseSequence s' rules) :=
  carries_clauses h rules ⟨by simp [h.children], by simp⟩

theorem natural_conditionalClause (word : String) : Rule.Natural (conditionalClause word) :=
  fun _ _ _ h => Carries.append ⟨by simp, by simp⟩
    (carries_firstOf h fun _ _ => ⟨by simp, by simp⟩)

theorem natural_plainClause (word : String) : Rule.Natural (plainClause word) :=
  fun _ _ _ h => ⟨by simp [plainClause, h.children], by simp [plainClause]⟩

theorem natural_catchStatement : Rule.Natural catchStatement := by
  intro f s s' h
  unfold catchStatement
  rw [h.construct, h.children]
  split
  · exact ⟨by simp, by simp⟩
  · exact carries_fail rfl

/-- The workers of a fork have other names. -/
theorem forkWorkers_renamed {f : NodeId → NodeId} {s s' : Setting} (h : s.Renamed f s') :
    forkWorkers s' = (forkWorkers s).map f ∧ forkRest s' = (forkRest s).map f := by
  unfold forkWorkers forkRest
  rw [h.children]
  have htags := h.tags
  generalize s.children = children at htags
  induction children with
  | nil => exact ⟨rfl, rfl⟩
  | cons child rest ih =>
    obtain ⟨hchild, hrest⟩ := List.forall_mem_cons.mp htags
    simp only [List.map_cons, List.takeWhile_cons, List.dropWhile_cons, hchild]
    split
    next => exact ⟨by rw [(ih hrest).1, List.map_cons], (ih hrest).2⟩
    next => exact ⟨rfl, by rw [List.map_cons]⟩

theorem natural_forkJoinStatement : Rule.Natural forkJoinStatement := by
  intro f s s' h
  obtain ⟨hworkers, hrest⟩ := forkWorkers_renamed h
  exact carries_clauses h _ ⟨by simp [hworkers, hrest], by simp⟩

theorem natural_joinStatement : Rule.Natural joinStatement := by
  intro f s s' h
  unfold joinStatement
  rw [h.construct, h.children]
  split
  · exact ⟨by simp, by simp⟩
  · exact carries_fail rfl

theorem natural_timeoutStatement : Rule.Natural timeoutStatement := by
  intro f s s' h
  unfold timeoutStatement
  rw [h.construct]
  split
  · exact carries_firstOf h fun _ _ => ⟨by simp, by simp⟩
  · exact carries_fail rfl

end Compound

section Expressions

theorem natural_functionInvocation : Rule.Natural functionInvocation := by
  intro f s s' h
  unfold functionInvocation
  rw [h.construct]
  split
  · refine (Carries.append ?_ (carries_arguments h)).append ⟨by simp, by simp⟩
    split
    · exact carries_fail rfl
    · split <;> exact ⟨by simp, by simp⟩
  · exact carries_fail rfl

theorem natural_actionInvocation : Rule.Natural actionInvocation := by
  intro f s s' h
  unfold actionInvocation
  rw [h.construct]
  split
  · exact (Carries.append ⟨by simp, by simp⟩ (carries_arguments h)).append ⟨by simp, by simp⟩
  · exact carries_fail rfl

theorem natural_connectorInit : Rule.Natural connectorInit := by
  intro f s s' h
  unfold connectorInit
  rw [h.construct]
  split
  · exact (Carries.append ⟨by simp, by simp⟩ (carries_arguments h)).append ⟨by simp, by simp⟩
  · exact carries_fail rfl

theorem natural_binaryExpression : Rule.Natural binaryExpression := by
  intro f s s' h
  unfold binaryExpression
  rw [h.construct]
  split
  · exact carries_two h fun _ _ => ⟨by simp, by simp⟩
  · exact carries_fail rfl

theorem natural_unaryExpression : Rule.Natural unaryExpression := by
  intro f s s' h
  unfold unaryExpression
  rw [h.construct]
  split
  · exact (carries_operand h _ _).cons rfl rfl
  · exact carries_fail rfl

theorem natural_parenthesized : Rule.Natural parenthesized :=
  fun _ _ _ h => ((carries_operand h _ _).cons rfl rfl).append ⟨by simp, by simp⟩

/-- The text of a literal names no node. -/
theorem carries_literalText (f : NodeId → NodeId) (type : LiteralType) (value : String) :
    Carries f (literalText type value) (literalText type value) := by
  unfold literalText
  split
  · exact ⟨by simp, by simp⟩
  · exact ⟨by simp, by simp⟩
  · split <;> exact ⟨by simp, by simp⟩
  · dsimp only
    split <;> exact ⟨by simp, by simp⟩
  · dsimp only
    split <;> exact ⟨by simp, by simp⟩

theorem natural_basicLiteral : Rule.Natural basicLiteral := by
  intro f s s' h
  unfold basicLiteral
  rw [h.construct]
  split
  · exact (carries_childless h).append (carries_literalText f _ _)
  · exact carries_fail rfl

theorem natural_variableReference : Rule.Natural variableReference := by
  intro f s s' h
  unfold variableReference
  rw [h.construct]
  split
  · exact (carries_childless h).append ⟨by simp, by simp⟩
  · exact carries_fail rfl

theorem natural_fieldAccess : Rule.Natural fieldAccess := by
  intro f s s' h
  unfold fieldAccess
  rw [h.construct]
  split
  · exact ((carries_operand h _ _).append ⟨by simp, by simp⟩).append ⟨by simp, by simp⟩
  · exact carries_fail rfl

theorem natural_indexAccess : Rule.Natural indexAccess :=
  fun _ _ _ h => carries_two h fun _ _ => ⟨by simp, by simp⟩

theorem natural_typeCast : Rule.Natural typeCast := by
  intro f s s' h
  unfold typeCast
  rw [h.construct]
  split
  · exact Carries.append ⟨by simp, by simp⟩ (carries_operand h _ _)
  · exact carries_fail rfl

theorem natural_typeConversion : Rule.Natural typeConversion := by
  intro f s s' h
  unfold typeConversion
  rw [h.construct]
  split
  · exact Carries.append ⟨by simp, by simp⟩ (carries_operand h _ _)
  · exact carries_fail rfl

theorem natural_arrayInit : Rule.Natural arrayInit :=
  fun _ _ _ h => ((carries_arguments h).cons rfl rfl).append ⟨by simp, by simp⟩

theorem natural_mapInit : Rule.Natural mapInit := by
  intro f s s' h
  unfold mapInit
  rw [h.children, find?_map h.tags]
  cases s.children.find? fun child => s.tag? child != some .keyValueExpression with
  | some child => exact carries_fail rfl
  | none => exact ((carries_arguments h).cons rfl rfl).append ⟨by simp, by simp⟩

theorem natural_keyValue : Rule.Natural keyValue :=
  fun _ _ _ h => carries_two h fun _ _ => ⟨by simp, by simp⟩

theorem natural_backQuote : Rule.Natural backQuote := by
  intro f s s' h
  unfold backQuote
  rw [h.construct]
  split
  · exact ((carries_childless h).append ⟨by simp, by simp⟩).append ⟨by simp, by simp⟩
  · exact carries_fail rfl

end Expressions

/-- No rule of the grammar looks at an identity. -/
theorem natural_rule (tag : Tag) : Rule.Natural (rule tag) := by
  cases tag with
  | compilationUnit => exact natural_compilationUnit
  | packageDeclaration => exact natural_packageDeclaration
  | importDeclaration => exact natural_importDeclaration
  | annotationUse => exact natural_annotationUse
  | annotationAttribute => exact natural_annotationAttribute
  | serviceDefinition => exact natural_serviceDefinition
  | resourceDefinition => exact natural_resourceDefinition
  | functionDefinition => exact natural_functionDefinition
  | connectorDefinition => exact natural_connectorDefinition
  | actionDefinition => exact natural_actionDefinition
  | structDefinition => exact natural_structDefinition
  | constantDefinition => exact natural_constantDefinition
  | typeMapperDefinition => exact natural_typeMapperDefinition
  | workerDeclaration => exact natural_workerDeclaration
  | parameterDefinition => exact natural_parameterDefinition
  | returnParameter => exact natural_returnParameter
  | variableDefinition => exact natural_variableDefinition
  | variableDefinitionStatement => exact natural_variableDefinitionStatement
  | assignmentStatement => exact natural_assignmentStatement
  | expressionStatement => exact natural_expressionStatement
  | returnStatement => exact natural_returnStatement
  | replyStatement => exact natural_keywordStatement _
  | throwStatement => exact natural_keywordStatement _
  | breakStatement => exact natural_bareStatement _
  | abortStatement => exact natural_bareStatement _
  | commentStatement => exact natural_commentStatement
  | workerInvocationStatement => exact natural_workerInteraction _
  | workerReplyStatement => exact natural_workerInteraction _
  | blockStatement => exact natural_blockStatement
  | transformStatement => exact natural_transformStatement
  | ifElseStatement => exact fun _ _ _ h => carries_clauseSequence h _
  | ifStatement => exact natural_conditionalClause _
  | elseIfStatement => exact natural_conditionalClause _
  | elseStatement => exact natural_plainClause _
  | whileStatement => exact natural_conditionalClause _
  | tryCatchStatement => exact fun _ _ _ h => carries_clauseSequence h _
  | tryStatement => exact natural_plainClause _
  | catchStatement => exact natural_catchStatement
  | finallyStatement => exact natural_plainClause _
  | forkJoinStatement => exact natural_forkJoinStatement
  | joinStatement => exact natural_joinStatement
  | timeoutStatement => exact natural_timeoutStatement
  | transactionAbortedStatement => exact fun _ _ _ h => carries_clauseSequence h _
  | transactionStatement => exact natural_plainClause _
  | abortedStatement => exact natural_plainClause _
  | committedStatement => exact natural_plainClause _
  | functionInvocationExpression => exact natural_functionInvocation
  | actionInvocationExpression => exact natural_actionInvocation
  | connectorInitExpression => exact natural_connectorInit
  | binaryExpression => exact natural_binaryExpression
  | unaryExpression => exact natural_unaryExpression
  | parenthesizedExpression => exact natural_parenthesized
  | basicLiteralExpression => exact natural_basicLiteral
  | variableReferenceExpression => exact natural_variableReference
  | fieldAccessExpression => exact natural_fieldAccess
  | indexAccessExpression => exact natural_indexAccess
  | typeCastExpression => exact natural_typeCast
  | typeConversionExpression => exact natural_typeConversion
  | arrayInitExpression => exact natural_arrayInit
  | mapInitExpression => exact natural_mapInit
  | keyValueExpression => exact natural_keyValue
  | backQuoteExpression => exact natural_backQuote

/-- The scripts of the grammar do without the traversal. -/
theorem plain_rule (tag : Tag) (s : Setting) : Script.Plain (rule tag s) := by
  have hsame : s.Renamed id s := ⟨rfl, by simp, rfl, fun _ _ => rfl⟩
  exact (natural_rule tag id s s hsame).plain

/-- A rule of the grammar looks at no option but the text between arguments. -/
theorem rule_of_separator (options options' : Options)
    (h : options'.argumentSeparator = options.argumentSeparator) (tag : Tag) (ast : Ast)
    (id : NodeId) (node : Node) :
    rule tag ⟨ast, options', id, node⟩ = rule tag ⟨ast, options, id, node⟩ := by
  obtain ⟨indent, separator, depth, blank⟩ := options
  obtain ⟨indent', separator', depth', blank'⟩ := options'
  obtain rfl : separator' = separator := h
  cases tag <;> rfl

end Grammar

end SourceScribe
