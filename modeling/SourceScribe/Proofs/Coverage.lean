import SourceScribe.Proofs.Scripts
import SourceScribe.Proofs.Sections
import SourceScribe.Traversal.Registry

/-!
# Rules ask for every child

A rule of the grammar asks for nothing but children of its node, and a rule
that does not reject the node asks for all of them, in the order in which they
are listed and once for each time they are listed. This holds for a rule of
the kind of the node and for the rule of any other kind. A rule that takes
its children apart puts them together again.
-/

namespace SourceScribe

/-- A rule asks for the children of the node, and for all of them unless it
rejects the node. -/
def Rule.Covers (rule : Rule) : Prop := ∀ s : Setting, Script.Covers (rule s) s.children

namespace Script

/-- A rejected node need not be covered. -/
theorem covers_fail (fault : Fault) (children : List NodeId) : Covers (fail fault) children :=
  ⟨by simp, by simp⟩

/-- A script that asks for exactly the given children covers them. -/
theorem covers_of_calls {s : Script} {children : List NodeId} (h : calls s = children) :
    Covers s children := ⟨h ▸ List.Sublist.refl _, fun _ => h⟩

/-- What goes on after a check covers the children if it does for every result
of the check. -/
theorem covers_checked {α : Type} {result : Except Fault α} {next : α → Script}
    {children : List NodeId} (h : ∀ a, result = .ok a → Covers (next a) children) :
    Covers (checked result next) children := by
  cases result with
  | error fault => exact covers_fail fault children
  | ok a => exact h a rfl

/-- The sections of a definition cover its children if the script covers the
sections one after the other. -/
theorem covers_sections {s : Setting} {next : Sections → Script}
    (h : ∀ parts : Sections, Covers (next parts)
      (parts.annotations ++ parts.parameters ++ parts.returns ++ parts.body)) :
    Covers (sections s next) s.children :=
  covers_checked fun parts hs => Sections.split_flatten hs ▸ h parts

/-- A script asks for a section, or leaves it out and is not clean unless the
section is empty. -/
def Accounts (s : Script) (asked part : List NodeId) : Prop :=
  asked = part ∨ asked = [] ∧ (Clean s → part = [])

/-- Only what is in the section is asked for. -/
theorem Accounts.sublist {s : Script} {asked part : List NodeId} (h : s.Accounts asked part) :
    asked.Sublist part := by
  rcases h with rfl | ⟨rfl, _⟩
  · exact List.Sublist.refl _
  · exact List.nil_sublist _

/-- A clean script asks for the whole section. -/
theorem Accounts.eq {s : Script} {asked part : List NodeId} (h : s.Accounts asked part)
    (hclean : Clean s) : asked = part := by
  rcases h with heq | ⟨hnil, hempty⟩
  · exact heq
  · rw [hnil, hempty hclean]

/-- A script that accounts for each section, and asks for them in order, covers
the children. -/
theorem covers_parts {s : Script} {parts : Sections} {first second third last : List NodeId}
    (hcalls : calls s = first ++ second ++ third ++ last)
    (ha : s.Accounts first parts.annotations) (hp : s.Accounts second parts.parameters)
    (hr : s.Accounts third parts.returns) (hb : s.Accounts last parts.body) :
    Covers s (parts.annotations ++ parts.parameters ++ parts.returns ++ parts.body) where
  only := by
    rw [hcalls]
    exact ((ha.sublist.append hp.sublist).append hr.sublist).append hb.sublist
  all hclean := by
    rw [hcalls, ha.eq hclean, hp.eq hclean, hr.eq hclean, hb.eq hclean]

/-- A script for a single child covers the children. -/
theorem covers_one {s : Setting} {expected : String} {next : NodeId → Script}
    (h : ∀ child, calls (next child) = [child]) : Covers (one s expected next) s.children := by
  unfold one
  split
  next child hs => rw [hs]; exact covers_of_calls (h child)
  next => exact covers_fail _ _

/-- A script for two children covers the children. -/
theorem covers_two {s : Setting} {expected : String} {next : NodeId → NodeId → Script}
    (h : ∀ first second, calls (next first second) = [first, second]) :
    Covers (two s expected next) s.children := by
  unfold two
  split
  next first second hs => rw [hs]; exact covers_of_calls (h first second)
  next => exact covers_fail _ _

/-- A script for the first child and the others covers the children. -/
theorem covers_firstOf {s : Setting} {what : String} {next : NodeId → List NodeId → Script}
    (h : ∀ first rest, calls (next first rest) = first :: rest) :
    Covers (firstOf s what next) s.children := by
  unfold firstOf
  split
  next first rest hs => rw [hs]; exact covers_of_calls (h first rest)
  next => exact covers_fail _ _

/-- An operand is the only child. -/
theorem covers_operand (s : Setting) (expected slot : String) :
    Covers (operand s expected slot) s.children := covers_one fun _ => by simp

/-- What asks for nothing may stand in front. -/
theorem Covers.after {s t : Script} {children : List NodeId} (hc : Covers t children)
    (h : calls s = []) : Covers (s ++ t) children where
  only := by
    rw [calls_append, h, List.nil_append]
    exact hc.only
  all hclean := by
    rw [calls_append, h, List.nil_append]
    exact hc.all (clean_append.mp hclean).2

/-- What asks for nothing may stand behind. -/
theorem Covers.before {s t : Script} {children : List NodeId} (hc : Covers s children)
    (h : calls t = []) : Covers (s ++ t) children where
  only := by
    rw [calls_append, h, List.append_nil]
    exact hc.only
  all hclean := by
    rw [calls_append, h, List.append_nil]
    exact hc.all (clean_append.mp hclean).1

/-- A piece that asks for nothing may stand in front. -/
theorem Covers.cons {p : Piece} {s : Script} {children : List NodeId} (hc : Covers s children)
    (h : p.calls = []) : Covers (p :: s) children :=
  Covers.after (s := [p]) hc (by rw [calls_cons, h, calls_nil, List.nil_append])

/-- A node without children is covered by what asks for nothing. -/
theorem covers_childless {s : Setting} {t : Script} (h : calls t = []) :
    Covers (childless s ++ t) s.children where
  only := by simp [h]
  all hclean := by
    have hnil : s.children = [] := clean_childless.mp (clean_append.mp hclean).1
    simp [h, hnil]

end Script

namespace Grammar

open Script

section Declarations

theorem covers_compilationUnit : Rule.Covers compilationUnit :=
  fun _ => covers_of_calls (by simp [compilationUnit])

theorem covers_packageDeclaration : Rule.Covers packageDeclaration := by
  intro s
  unfold packageDeclaration
  split
  · apply covers_of_calls
    split <;> simp
  · exact covers_fail _ _

theorem covers_importDeclaration : Rule.Covers importDeclaration := by
  intro s
  unfold importDeclaration
  split
  · apply covers_of_calls
    split <;> split <;> simp
  · exact covers_fail _ _

theorem covers_annotationUse : Rule.Covers annotationUse := by
  intro s
  unfold annotationUse
  split
  · exact covers_of_calls (by simp)
  · exact covers_fail _ _

theorem covers_annotationAttribute : Rule.Covers annotationAttribute := by
  intro s
  unfold annotationAttribute
  split
  · exact (covers_operand s _ _).after (by simp)
  · exact covers_fail _ _

theorem covers_serviceDefinition : Rule.Covers serviceDefinition := by
  intro s
  unfold serviceDefinition
  split
  · exact covers_sections fun parts => covers_parts (by simp) (.inl rfl)
      (.inr ⟨rfl, by simp +contextual⟩) (.inr ⟨rfl, by simp +contextual⟩) (.inl rfl)
  · exact covers_fail _ _

theorem covers_resourceDefinition : Rule.Covers resourceDefinition := by
  intro s
  unfold resourceDefinition
  split
  · exact covers_sections fun parts => covers_parts (by simp) (.inl rfl) (.inl rfl)
      (.inr ⟨rfl, by simp +contextual⟩) (.inl rfl)
  · exact covers_fail _ _

/-- A body that is left out accounts for the body if a clean script has none. -/
theorem accounts_bodyUnlessNative {s : Script} (given : Modifiers) (children : List NodeId)
    (h : Clean s → Clean (bodyUnlessNative given children)) :
    s.Accounts (calls (bodyUnlessNative given children)) children := by
  rw [calls_bodyUnlessNative]
  split
  next hnative => exact .inr ⟨rfl, fun hclean => clean_bodyUnlessNative.mp (h hclean) hnative⟩
  next => exact .inl rfl

theorem covers_functionDefinition : Rule.Covers functionDefinition := by
  intro s
  unfold functionDefinition
  split
  · exact covers_sections fun parts => covers_parts (by simp) (.inl rfl) (.inl rfl) (.inl rfl)
      (accounts_bodyUnlessNative _ _ fun hclean => (clean_append.mp hclean).2)
  · exact covers_fail _ _

theorem covers_connectorDefinition : Rule.Covers connectorDefinition := by
  intro s
  unfold connectorDefinition
  split
  · exact covers_sections fun parts => covers_parts (by simp) (.inl rfl) (.inl rfl)
      (.inr ⟨rfl, by simp +contextual⟩) (.inl rfl)
  · exact covers_fail _ _

theorem covers_actionDefinition : Rule.Covers actionDefinition := by
  intro s
  unfold actionDefinition
  split
  · exact covers_sections fun parts => covers_parts (by simp) (.inl rfl) (.inl rfl) (.inl rfl)
      (accounts_bodyUnlessNative _ _ fun hclean => (clean_append.mp hclean).2)
  · exact covers_fail _ _

theorem covers_structDefinition : Rule.Covers structDefinition := by
  intro s
  unfold structDefinition
  split
  · refine covers_sections fun parts => ?_
    split
    · exact covers_parts (by simp) (.inl rfl) (.inr ⟨rfl, by simp⟩) (.inr ⟨rfl, by simp⟩) (.inl rfl)
    · exact covers_parts (by simp) (.inl rfl) (.inr ⟨rfl, by simp +contextual⟩)
        (.inr ⟨rfl, by simp +contextual⟩) (.inl rfl)
  · exact covers_fail _ _

theorem covers_constantDefinition : Rule.Covers constantDefinition := by
  intro s
  unfold constantDefinition
  split
  · exact ((covers_operand s _ _).after (by simp)).before (by simp)
  · exact covers_fail _ _

theorem covers_typeMapperDefinition : Rule.Covers typeMapperDefinition := by
  intro s
  unfold typeMapperDefinition
  split
  · exact covers_sections fun parts => covers_of_calls (by simp)
  · exact covers_fail _ _

theorem covers_workerDeclaration : Rule.Covers workerDeclaration := by
  intro s
  unfold workerDeclaration
  split
  · exact covers_sections fun parts => covers_parts (by simp) (.inr ⟨rfl, by simp +contextual⟩)
      (.inl rfl) (.inr ⟨rfl, by simp +contextual⟩) (.inl rfl)
  · exact covers_fail _ _

/-- Annotations that are asked for one by one cover the children of a
parameter. -/
theorem covers_annotationsOf (s : Setting) (children : List NodeId) :
    Covers (children.flatMap fun child =>
      if s.tag? child = some .annotationUse then [.group (.followed " ") [child]]
      else fail .parameterChild) children := by
  induction children with
  | nil => exact covers_of_calls rfl
  | cons child rest ih =>
    rw [List.flatMap_cons]
    split
    · constructor
      · rw [calls_append]
        exact ih.only.cons_cons child
      · intro hclean
        rw [calls_append, ih.all (clean_append.mp hclean).2]
        rfl
    · constructor
      · rw [calls_append, calls_fail, List.nil_append]
        exact ih.only.cons child
      · intro hclean
        exact absurd (clean_append.mp hclean).1 (not_clean_fail _)

theorem covers_parameterDefinition : Rule.Covers parameterDefinition := by
  intro s
  unfold parameterDefinition
  split
  · exact (covers_annotationsOf s s.children).before (by simp)
  · exact covers_fail _ _

theorem covers_returnParameter : Rule.Covers returnParameter := by
  intro s
  unfold returnParameter
  split
  · rw [← List.append_nil (childless s)]
    exact (covers_childless (by simp)).after (by split <;> simp)
  · exact covers_fail _ _

theorem covers_variableText (s : Setting) (type name : String) :
    Covers (variableText s type name) s.children := by
  unfold variableText
  cases hs : s.children with
  | nil => exact covers_of_calls (by simp)
  | cons value rest =>
    cases rest with
    | nil => exact covers_of_calls (by simp)
    | cons next rest => exact ⟨by simp, by simp⟩

theorem covers_variableDefinition : Rule.Covers variableDefinition := by
  intro s
  unfold variableDefinition
  split
  · exact covers_variableText s _ _
  · exact covers_fail _ _

end Declarations

section Statements

theorem covers_variableDefinitionStatement : Rule.Covers variableDefinitionStatement := by
  intro s
  unfold variableDefinitionStatement
  split
  · exact covers_variableText s _ _
  · exact covers_fail _ _

theorem covers_assignmentStatement : Rule.Covers assignmentStatement := by
  intro s
  unfold assignmentStatement
  split
  · exact covers_fail _ _
  next value hs =>
    have hne : s.children ≠ [] := by
      intro hnil
      simp [hnil] at hs
    have hback : s.children.dropLast ++ [value] = s.children := by
      rw [List.getLast?_eq_some_getLast hne] at hs
      cases hs
      exact List.dropLast_append_getLast hne
    exact covers_of_calls (by simp [hback])

theorem covers_expressionStatement : Rule.Covers expressionStatement :=
  fun s => (covers_operand s _ _).before (by simp)

theorem covers_returnStatement : Rule.Covers returnStatement := by
  intro s
  apply covers_of_calls
  unfold returnStatement
  split <;> simp_all

theorem covers_keywordStatement (word : String) : Rule.Covers (keywordStatement word) :=
  fun s => ((covers_operand s _ _).after (by simp)).before (by simp)

theorem covers_bareStatement (word : String) : Rule.Covers (bareStatement word) :=
  fun _ => covers_childless (by simp)

@[simp]
theorem calls_commentLine (line : List Char) : calls (commentLine line) = [] := by
  unfold commentLine
  dsimp only
  split
  · rfl
  · split <;> simp

@[simp]
theorem clean_commentLine (line : List Char) : Clean (commentLine line) := by
  unfold commentLine
  dsimp only
  split
  · simp
  · split <;> simp

@[simp]
theorem calls_commentLines (lines : List (List Char)) : calls (commentLines lines) = [] := by
  cases lines <;> simp [commentLines]

@[simp]
theorem clean_commentLines (lines : List (List Char)) : Clean (commentLines lines) := by
  cases lines <;> simp [commentLines]

theorem covers_commentStatement : Rule.Covers commentStatement := by
  intro s
  unfold commentStatement
  split
  · rw [List.append_assoc]
    refine covers_childless ?_
    split <;> simp
  · exact covers_fail _ _

theorem covers_workerInteraction (arrow : String) : Rule.Covers (workerInteraction arrow) := by
  intro s
  unfold workerInteraction
  dsimp only
  split
  · exact covers_of_calls (by simp)
  · exact covers_of_calls (by simp)
  · exact covers_fail _ _

theorem covers_blockStatement : Rule.Covers blockStatement :=
  fun _ => covers_of_calls (by simp [blockStatement])

theorem covers_transformStatement : Rule.Covers transformStatement :=
  fun _ => covers_of_calls (by simp [transformStatement])

end Statements

section Compound

/-- Clauses that are written with a space between them are the children. -/
theorem covers_clauseSequence (s : Setting) (rules : List ClauseRule) :
    Covers (clauseSequence s rules) s.children :=
  covers_checked fun _ _ => covers_of_calls (by simp)

theorem covers_conditionalClause (word : String) : Rule.Covers (conditionalClause word) :=
  fun _ => (covers_firstOf fun _ _ => by simp).after (by simp)

theorem covers_plainClause (word : String) : Rule.Covers (plainClause word) :=
  fun _ => covers_of_calls (by simp [plainClause])

theorem covers_catchStatement : Rule.Covers catchStatement := by
  intro s
  unfold catchStatement
  split
  · exact covers_of_calls (by simp)
  · exact covers_fail _ _

/-- The workers of a fork and its other clauses are its children. -/
theorem forkWorkers_append_forkRest (s : Setting) : forkWorkers s ++ forkRest s = s.children :=
  List.takeWhile_append_dropWhile

theorem covers_forkJoinStatement : Rule.Covers forkJoinStatement :=
  fun s => covers_checked fun _ _ =>
    covers_of_calls (by simp [forkWorkers_append_forkRest])

theorem covers_joinStatement : Rule.Covers joinStatement := by
  intro s
  unfold joinStatement
  split
  · exact covers_of_calls (by simp)
  · exact covers_fail _ _

theorem covers_timeoutStatement : Rule.Covers timeoutStatement := by
  intro s
  unfold timeoutStatement
  split
  · exact covers_firstOf fun _ _ => by simp
  · exact covers_fail _ _

end Compound

section Expressions

theorem covers_functionInvocation : Rule.Covers functionInvocation := by
  intro s
  unfold functionInvocation
  split
  · apply covers_of_calls
    split
    · simp
    · split <;> simp
  · exact covers_fail _ _

theorem covers_actionInvocation : Rule.Covers actionInvocation := by
  intro s
  unfold actionInvocation
  split
  · exact covers_of_calls (by simp)
  · exact covers_fail _ _

theorem covers_connectorInit : Rule.Covers connectorInit := by
  intro s
  unfold connectorInit
  split
  · exact covers_of_calls (by simp)
  · exact covers_fail _ _

theorem covers_binaryExpression : Rule.Covers binaryExpression := by
  intro s
  unfold binaryExpression
  split
  · exact covers_two fun _ _ => by simp
  · exact covers_fail _ _

theorem covers_unaryExpression : Rule.Covers unaryExpression := by
  intro s
  unfold unaryExpression
  split
  · exact (covers_operand s _ _).cons rfl
  · exact covers_fail _ _

theorem covers_parenthesized : Rule.Covers parenthesized :=
  fun s => ((covers_operand s _ _).cons rfl).before (by simp)

theorem covers_basicLiteral : Rule.Covers basicLiteral := by
  intro s
  unfold basicLiteral
  split
  · refine covers_childless ?_
    unfold literalText
    split
    · rfl
    · rfl
    · split <;> rfl
    · dsimp only
      split <;> rfl
    · dsimp only
      split <;> rfl
  · exact covers_fail _ _

theorem covers_variableReference : Rule.Covers variableReference := by
  intro s
  unfold variableReference
  split
  · exact covers_childless (by simp)
  · exact covers_fail _ _

theorem covers_fieldAccess : Rule.Covers fieldAccess := by
  intro s
  unfold fieldAccess
  split
  · exact ((covers_operand s _ _).before (by simp)).before (by simp)
  · exact covers_fail _ _

theorem covers_indexAccess : Rule.Covers indexAccess := fun _ => covers_two fun _ _ => by simp

theorem covers_typeCast : Rule.Covers typeCast := by
  intro s
  unfold typeCast
  split
  · exact (covers_operand s _ _).after (by simp)
  · exact covers_fail _ _

theorem covers_typeConversion : Rule.Covers typeConversion := by
  intro s
  unfold typeConversion
  split
  · exact (covers_operand s _ _).after (by simp)
  · exact covers_fail _ _

theorem covers_arrayInit : Rule.Covers arrayInit := fun _ => covers_of_calls (by simp [arrayInit])

theorem covers_mapInit : Rule.Covers mapInit := by
  intro s
  unfold mapInit
  split
  · exact covers_fail _ _
  · exact covers_of_calls (by simp)

theorem covers_keyValue : Rule.Covers keyValue := fun _ => covers_two fun _ _ => by simp

theorem covers_backQuote : Rule.Covers backQuote := by
  intro s
  unfold backQuote
  split
  · rw [List.append_assoc]
    exact covers_childless (by simp)
  · exact covers_fail _ _

end Expressions

/-- Every rule of the grammar asks for all children of the node and for
nothing else. -/
theorem covers_rule (tag : Tag) : Rule.Covers (rule tag) := by
  cases tag with
  | compilationUnit => exact covers_compilationUnit
  | packageDeclaration => exact covers_packageDeclaration
  | importDeclaration => exact covers_importDeclaration
  | annotationUse => exact covers_annotationUse
  | annotationAttribute => exact covers_annotationAttribute
  | serviceDefinition => exact covers_serviceDefinition
  | resourceDefinition => exact covers_resourceDefinition
  | functionDefinition => exact covers_functionDefinition
  | connectorDefinition => exact covers_connectorDefinition
  | actionDefinition => exact covers_actionDefinition
  | structDefinition => exact covers_structDefinition
  | constantDefinition => exact covers_constantDefinition
  | typeMapperDefinition => exact covers_typeMapperDefinition
  | workerDeclaration => exact covers_workerDeclaration
  | parameterDefinition => exact covers_parameterDefinition
  | returnParameter => exact covers_returnParameter
  | variableDefinition => exact covers_variableDefinition
  | variableDefinitionStatement => exact covers_variableDefinitionStatement
  | assignmentStatement => exact covers_assignmentStatement
  | expressionStatement => exact covers_expressionStatement
  | returnStatement => exact covers_returnStatement
  | replyStatement => exact covers_keywordStatement _
  | throwStatement => exact covers_keywordStatement _
  | breakStatement => exact covers_bareStatement _
  | abortStatement => exact covers_bareStatement _
  | commentStatement => exact covers_commentStatement
  | workerInvocationStatement => exact covers_workerInteraction _
  | workerReplyStatement => exact covers_workerInteraction _
  | blockStatement => exact covers_blockStatement
  | transformStatement => exact covers_transformStatement
  | ifElseStatement => exact fun s => covers_clauseSequence s _
  | ifStatement => exact covers_conditionalClause _
  | elseIfStatement => exact covers_conditionalClause _
  | elseStatement => exact covers_plainClause _
  | whileStatement => exact covers_conditionalClause _
  | tryCatchStatement => exact fun s => covers_clauseSequence s _
  | tryStatement => exact covers_plainClause _
  | catchStatement => exact covers_catchStatement
  | finallyStatement => exact covers_plainClause _
  | forkJoinStatement => exact covers_forkJoinStatement
  | joinStatement => exact covers_joinStatement
  | timeoutStatement => exact covers_timeoutStatement
  | transactionAbortedStatement => exact fun s => covers_clauseSequence s _
  | transactionStatement => exact covers_plainClause _
  | abortedStatement => exact covers_plainClause _
  | committedStatement => exact covers_plainClause _
  | functionInvocationExpression => exact covers_functionInvocation
  | actionInvocationExpression => exact covers_actionInvocation
  | connectorInitExpression => exact covers_connectorInit
  | binaryExpression => exact covers_binaryExpression
  | unaryExpression => exact covers_unaryExpression
  | parenthesizedExpression => exact covers_parenthesized
  | basicLiteralExpression => exact covers_basicLiteral
  | variableReferenceExpression => exact covers_variableReference
  | fieldAccessExpression => exact covers_fieldAccess
  | indexAccessExpression => exact covers_indexAccess
  | typeCastExpression => exact covers_typeCast
  | typeConversionExpression => exact covers_typeConversion
  | arrayInitExpression => exact covers_arrayInit
  | mapInitExpression => exact covers_mapInit
  | keyValueExpression => exact covers_keyValue
  | backQuoteExpression => exact covers_backQuote

end Grammar

/-- The rule that writes the children and nothing else covers them. -/
theorem Visitor.covers_plain (guard : Guard) : (Visitor.plain guard).rule.Covers :=
  fun _ => Script.covers_of_calls (by simp [Visitor.plain])

end SourceScribe
