import SourceScribe.Grammar.Rules
import SourceScribe.Proofs.Delimiters
import SourceScribe.Proofs.Scripts

/-!
# Delimiters of scripts

What a script does to a scanner does not depend on its children as long as each
of them leaves the scanner outside strings and templates as it is: the text
around them opens and closes brackets by itself. For every combinator and for
every rule of the grammar it is shown that what is opened is closed, unless the
node is rejected. The fragments that are written as given must not have
delimiters, and no comment must be written.
-/

namespace SourceScribe

/-- Whether the text around the children of a group has no delimiters. -/
def Arrangement.Tame : Arrangement → Prop
  | .separated text => Text.Plain text.toList
  | .led text => Text.Plain text.toList
  | .followed text => Text.Plain text.toList
  | .lines => True
  | .members => True
  | .topLevel => True

/-- Whether the text around the children can be checked. -/
instance (arrangement : Arrangement) : Decidable arrangement.Tame := by
  cases arrangement <;> unfold Arrangement.Tame <;> infer_instance

/-- What a piece does to a scanner when its children do nothing to it. Children and line
ends stand outside strings and templates. -/
def Piece.scan (s : Scanner) : Piece → Option Scanner
  | .text value => s.run value.toList
  | .newline => if s.region = .code then some s else none
  | .required _ _ => if s.region = .code then some s else none
  | .group arrangement _ => if s.region = .code ∧ arrangement.Tame then some s else none
  | .braced .lines _ => if s.region = .code then some s else none
  | .braced .members _ => if s.region = .code then some s else none
  | _ => none

namespace Script

variable {given middle left : List Bracket} {s t : Script}

/-- What a script does to a scanner when its children do nothing to it. -/
def scan (start : Scanner) : Script → Option Scanner
  | [] => some start
  | p :: rest => (p.scan start).bind fun next => scan next rest

/-- Scripts are scanned one after the other. -/
theorem scan_append (start : Scanner) (s t : Script) :
    scan start (s ++ t) = (scan start s).bind fun next => scan next t := by
  induction s generalizing start with
  | nil => rfl
  | cons p s ih =>
    rw [List.cons_append, scan, scan]
    cases p.scan start with
    | none => rfl
    | some next => exact ih next

/-- Unless it rejects the node, the script closes the first brackets that are open and
leaves others open. -/
def Takes (given : List Bracket) (s : Script) (left : List Bracket) : Prop :=
  Clean s → ∀ opened, scan ⟨.code, given ++ opened⟩ s = some ⟨.code, left ++ opened⟩

/-- Unless it rejects the node, the script closes what it opens and nothing else. -/
def Level (s : Script) : Prop := Takes [] s []

/-- What the first of two scripts leaves open the second may close. -/
theorem Takes.append (hs : Takes given s middle) (ht : Takes middle t left) :
    Takes given (s ++ t) left := by
  intro hclean opened
  obtain ⟨hcs, hct⟩ := clean_append.mp hclean
  rw [scan_append, hs hcs opened]
  exact ht hct opened

/-- What the first piece leaves open the others may close. -/
theorem Takes.cons {p : Piece} (hp : Takes given [p] middle) (ht : Takes middle t left) :
    Takes given (p :: t) left := hp.append ht

/-- A level script may stand wherever brackets are open. -/
theorem Level.takes (h : Level s) : Takes given s given := fun hclean opened =>
  h hclean (given ++ opened)

/-- Level scripts are put one behind the other. -/
theorem Level.append (hs : Level s) (ht : Level t) : Level (s ++ t) := Takes.append hs ht

/-- A script without pieces is level. -/
theorem level_nil : Level [] := fun _ _ => rfl

/-- A script that rejects the node need not be scanned. -/
theorem level_fail (fault : Fault) : Level (fail fault) :=
  fun hclean => absurd hclean (not_clean_fail fault)

/-- Level text. -/
theorem level_text {value : String} (h : Text.Level value.toList) :
    Level [.text value] := by
  intro _ opened
  change (Scanner.run ⟨.code, opened⟩ value.toList).bind some = _
  rw [h opened]
  rfl

/-- Level scripts for the members of a list. -/
theorem level_flatMap {α : Type} {as : List α} {f : α → Script} (h : ∀ a ∈ as, Level (f a)) :
    Level (as.flatMap f) := by
  induction as with
  | nil => exact level_nil
  | cons a as ih =>
    rw [List.flatMap_cons]
    exact (h a List.mem_cons_self).append (ih fun b hb => h b (List.mem_cons_of_mem a hb))

section Fragments

/-- A check is level. -/
theorem level_demand (condition : Bool) (fault : Fault) : Level (demand condition fault) := by
  unfold demand
  split
  · exact level_nil
  · exact level_fail fault

/-- What goes on with a check is level when it is for every result. -/
theorem level_checked {α : Type} {result : Except Fault α} {next : α → Script}
    (h : ∀ a, Level (next a)) : Level (checked result next) := by
  cases result with
  | ok a => exact h a
  | error fault => exact level_fail fault

/-- Identifiers are level. -/
theorem level_identifier (what value : String) : Level (identifier what value) := by
  unfold identifier
  split
  next => exact level_fail _
  next =>
    split
    next h => exact level_text (plain_of_identifier h).level
    next => exact level_fail _

/-- A type name is level when its constraint is plain. -/
theorem level_typeName {value : String} (h : Text.Plain (constraintOf value.toList)) :
    Level (typeName value) := by
  unfold typeName
  split
  next hvalue => exact level_text (level_of_typeName hvalue h)
  next => exact level_fail _

/-- Qualified names are level. -/
theorem level_qualified (package : Option String) (name : String) :
    Level (qualified package name) := by
  have hcolon : Level [.text ":"] := fun _ _ => rfl
  unfold qualified
  cases package with
  | none => exact level_identifier _ _
  | some p => exact ((level_identifier _ _).append hcolon).append (level_identifier _ _)

/-- A type and a name are level when the constraint of the type is plain. -/
theorem level_typed {type what name : String} (h : Text.Plain (constraintOf type.toList)) :
    Level (typed type what name) := by
  have hspace : Level [.text " "] := fun _ _ => rfl
  exact ((level_typeName h).append hspace).append (level_identifier _ _)

/-- A required child is level. -/
theorem level_required (slot : String) (child : NodeId) : Level [.required slot child] :=
  fun _ _ => rfl

/-- A group is level when the text around its children is plain. -/
theorem level_group {arrangement : Arrangement} (h : arrangement.Tame) (ids : List NodeId) :
    Level [.group arrangement ids] := by
  intro _ opened
  simp [scan, Piece.scan, h]

/-- Statements between braces are level. -/
theorem level_block (ids : List NodeId) : Level (block ids) := fun _ _ => rfl

/-- Members between braces are level. -/
theorem level_memberBlock (ids : List NodeId) : Level (memberBlock ids) := fun _ _ => rfl

/-- Required children are level with plain text between them. -/
theorem level_requiredAll {slot separator : String} (h : Text.Plain separator.toList)
    (ids : List NodeId) : Level (requiredAll slot separator ids) := by
  cases ids with
  | nil => exact level_nil
  | cons id ids =>
    refine Takes.cons (level_required slot id) (level_flatMap fun c _ => ?_)
    exact Takes.cons (level_text h.level) (level_required slot c)

variable {setting : Setting}

/-- What is written for one child is level when it is for any. -/
theorem level_one {expected : String} {next : NodeId → Script} (h : ∀ child, Level (next child)) :
    Level (one setting expected next) := by
  unfold one
  split
  · exact h _
  · exact level_fail _

/-- What is written for two children is level when it is for any. -/
theorem level_two {expected : String} {next : NodeId → NodeId → Script}
    (h : ∀ first second, Level (next first second)) : Level (two setting expected next) := by
  unfold two
  split
  · exact h _ _
  · exact level_fail _

/-- What is written for a first child and others is the same for any. -/
theorem takes_firstOf {what : String} {next : NodeId → List NodeId → Script}
    (h : ∀ first rest, Takes given (next first rest) left) :
    Takes given (firstOf setting what next) left := by
  unfold firstOf
  split
  · exact h _ _
  · exact fun hclean => absurd hclean (not_clean_fail _)

/-- An operand is level. -/
theorem level_operand (expected slot : String) : Level (operand setting expected slot) :=
  level_one fun child => level_required slot child

/-- The check for children is level. -/
theorem level_childless : Level (childless setting) := level_demand _ _

/-- Arguments are level when their separator is plain. -/
theorem level_arguments (h : Text.Plain setting.options.argumentSeparator.toList) :
    Level (arguments setting) := by
  have htame : (Arrangement.separated setting.options.argumentSeparator).Tame := h
  exact level_group htame _

/-- Children with nothing between them are level. -/
theorem level_plain (ids : List NodeId) : Level (plain ids) := level_group (by decide) ids

end Fragments

section Definitions

variable {setting : Setting}

/-- Sections are level when what goes on with them is. -/
theorem level_sections {next : Sections → Script} (h : ∀ parts, Level (next parts)) :
    Level (sections setting next) := level_checked h

/-- Annotations are level. -/
theorem level_annotationLines (ids : List NodeId) : Level (annotationLines ids) :=
  level_group (by decide) ids

/-- Parameters between parentheses are level. -/
theorem level_parameterList (ids : List NodeId) : Level (parameterList ids) := by
  have hopen : Takes [] [.text "("] [.round] := fun _ _ => rfl
  have hclose : Takes [.round] [.text ")"] [] := fun _ _ => rfl
  exact hopen.cons ((level_group (by decide) ids).takes.cons hclose)

/-- Return parameters are level. -/
theorem level_returnList (ids : List NodeId) : Level (returnList ids) := by
  have hspace : Level [.text " "] := fun _ _ => rfl
  unfold returnList
  split
  · exact level_nil
  · exact Takes.cons hspace (level_parameterList ids)

/-- The check for return parameters is level. -/
theorem level_noReturns (parts : Sections) : Level (noReturns parts) := level_demand _ _

/-- Modifiers are level. -/
theorem level_modifiers (given allowed : Modifiers) : Level (modifiers given allowed) := by
  have hpublic : Level (if given.contains .isPublic then [.text "public "] else []) := by
    split
    · exact fun _ _ => rfl
    · exact level_nil
  have hnative : Level (if given.contains .isNative then [.text "native "] else []) := by
    split
    · exact fun _ _ => rfl
    · exact level_nil
  exact ((level_demand _ _).append hpublic).append hnative

/-- Bodies are level. -/
theorem level_body (ids : List NodeId) : Level (body ids) := fun _ _ => rfl

/-- Bodies that may be left out are level. -/
theorem level_bodyUnlessNative (given : Modifiers) (ids : List NodeId) :
    Level (bodyUnlessNative given ids) := by
  have hend : Level [.text ";"] := fun _ _ => rfl
  unfold bodyUnlessNative
  split
  · exact (level_demand _ _).append hend
  · exact level_body ids

/-- Headers are level behind a word that is. -/
theorem level_header {word what name : String} (h : Text.Plain word.toList) :
    Level (header word what name) := by
  have hspace : Level [.text " "] := fun _ _ => rfl
  exact (Takes.cons (level_text h.level) (level_identifier what name)).append hspace

/-- Clauses are level when what comes next is. -/
theorem level_clauses {rules : List ClauseRule} {next : Script} (h : Level next) :
    Level (clauses setting rules next) := level_checked fun _ => h

/-- A sequence of clauses is level. -/
theorem level_clauseSequence (rules : List ClauseRule) :
    Level (clauseSequence setting rules) := level_clauses (level_group (by decide) _)

end Definitions

end Script

/-- The texts that a construct writes as they are given, without a check that keeps
delimiters out. -/
def Construct.looseTexts : Construct → List (List Char)
  | .constantDefinition type _ => [constraintOf type.toList]
  | .parameterDefinition type _ => [constraintOf type.toList]
  | .returnParameter type _ => [constraintOf type.toList]
  | .variableDefinition type _ => [constraintOf type.toList]
  | .variableDefinitionStatement type _ => [constraintOf type.toList]
  | .catchStatement type _ => [constraintOf type.toList]
  | .joinStatement condition type _ => [condition.toList, constraintOf type.toList]
  | .timeoutStatement type _ => [constraintOf type.toList]
  | .basicLiteralExpression .int value => [value.toList]
  | .basicLiteralExpression .float value => [value.toList]
  | .typeCastExpression target => [constraintOf target.toList]
  | .typeConversionExpression target => [constraintOf target.toList]
  | _ => []

/-- The texts that are written as they are given have no delimiters. -/
structure Setting.Tame (s : Setting) : Prop where
  /-- Those of the construct do not. -/
  loose : ∀ text ∈ s.construct.looseTexts, Text.Plain text
  /-- The separator of arguments does not. -/
  separator : Text.Plain s.options.argumentSeparator.toList

/-- The scripts of a rule close what they open when the texts that are written as they are
given have no delimiters. -/
def Rule.Closes (rule : Rule) : Prop := ∀ s : Setting, s.Tame → Script.Level (rule s)

namespace Script

/-- Text without delimiters is level. -/
theorem level_word {value : String} (h : Text.Plain value.toList) : Level [.text value] :=
  level_text h.level

variable {s : Setting}

/-- A construct whose type has the first loose text writes a level type and name. -/
theorem level_typedOf {type what name : String} (hs : s.Tame)
    (h : constraintOf type.toList ∈ s.construct.looseTexts) : Level (typed type what name) :=
  level_typed (hs.loose _ h)

end Script

namespace Grammar

open Script

section Declarations

theorem closes_compilationUnit : Rule.Closes compilationUnit := by
  intro s _
  have htame : Arrangement.topLevel.Tame := trivial
  exact level_group htame _

theorem closes_packageDeclaration : Rule.Closes packageDeclaration := by
  intro s _
  have hend : Level [.text ";"] := fun _ _ => rfl
  unfold packageDeclaration
  split
  next name _ =>
    refine Level.append (Level.append ?_ (level_plain _)) hend
    split
    next h => exact Takes.cons (level_word (by decide)) (level_word (plain_of_dotted h))
    next => exact level_fail _
  next => exact level_fail _

theorem closes_importDeclaration : Rule.Closes importDeclaration := by
  intro s _
  have hend : Level [.text ";"] := fun _ _ => rfl
  have hword : Level [.text " as "] := fun _ _ => rfl
  unfold importDeclaration
  split
  next package shortName _ =>
    refine Level.append (Level.append (Level.append ?_ ?_) (level_plain _)) hend
    · split
      next h => exact Takes.cons (level_word (by decide)) (level_word (plain_of_dotted h))
      next => exact level_fail _
    · cases shortName with
      | some name => exact Takes.cons hword (level_identifier _ _)
      | none => exact level_nil
  next => exact level_fail _

theorem closes_annotationUse : Rule.Closes annotationUse := by
  intro s _
  have hsign : Level [.text "@"] := fun _ _ => rfl
  have hopen : Takes [] [.text " \x7b"] [.curly] := fun _ _ => rfl
  have hclose : Takes [.curly] [.text "\x7d"] [] := fun _ _ => rfl
  unfold annotationUse
  split
  next =>
    refine Level.append (Takes.cons hsign (level_qualified _ _)) (hopen.cons ?_)
    exact Takes.cons (level_group (by decide) _).takes hclose
  next => exact level_fail _

theorem closes_annotationAttribute : Rule.Closes annotationAttribute := by
  intro s _
  have hcolon : Level [.text ":"] := fun _ _ => rfl
  unfold annotationAttribute
  split
  next => exact ((level_identifier _ _).append hcolon).append (level_operand _ _)
  next => exact level_fail _

theorem closes_serviceDefinition : Rule.Closes serviceDefinition := by
  intro s _
  have hword : Level [.text "service<"] := fun _ _ => rfl
  unfold serviceDefinition
  split
  next =>
    refine level_sections fun parts => ?_
    refine Level.append (Level.append ?_ (level_header (by decide))) (level_memberBlock _)
    refine Level.append (Level.append ?_ hword) (level_identifier _ _)
    exact ((level_demand _ _).append (level_noReturns _)).append (level_annotationLines _)
  next => exact level_fail _

theorem closes_resourceDefinition : Rule.Closes resourceDefinition := by
  intro s _
  unfold resourceDefinition
  split
  next =>
    refine level_sections fun parts => ?_
    refine Level.append (Level.append ?_ (level_parameterList _)) (level_body _)
    exact ((level_noReturns _).append (level_annotationLines _)).append (level_header (by decide))
  next => exact level_fail _

/-- What functions and actions have in common. -/
theorem level_callable {given allowed : Modifiers} {word what name : String} {parts : Sections}
    (h : Text.Plain word.toList) :
    Level (annotationLines parts.annotations ++ modifiers given allowed ++
      header word what name ++ parameterList parts.parameters ++ returnList parts.returns ++
      bodyUnlessNative given parts.body) := by
  refine Level.append (Level.append ?_ (level_returnList _)) (level_bodyUnlessNative _ _)
  refine Level.append (Level.append ?_ (level_header h)) (level_parameterList _)
  exact (level_annotationLines _).append (level_modifiers _ _)

theorem closes_functionDefinition : Rule.Closes functionDefinition := by
  intro s _
  unfold functionDefinition
  split
  next => exact level_sections fun parts => level_callable (by decide)
  next => exact level_fail _

theorem closes_connectorDefinition : Rule.Closes connectorDefinition := by
  intro s _
  have hspace : Level [.text " "] := fun _ _ => rfl
  unfold connectorDefinition
  split
  next =>
    refine level_sections fun parts => ?_
    refine Level.append (Level.append ?_ hspace) (level_memberBlock _)
    refine Level.append (Level.append ?_ (level_header (by decide))) (level_parameterList _)
    exact ((level_noReturns _).append (level_annotationLines _)).append (level_modifiers _ _)
  next => exact level_fail _

theorem closes_actionDefinition : Rule.Closes actionDefinition := by
  intro s _
  unfold actionDefinition
  split
  next => exact level_sections fun parts => level_callable (by decide)
  next => exact level_fail _

theorem closes_structDefinition : Rule.Closes structDefinition := by
  intro s _
  unfold structDefinition
  split
  next =>
    refine level_sections fun parts => ?_
    refine Level.append (Level.append ?_ (level_header (by decide))) (level_block _)
    refine Level.append (Level.append (level_demand _ _) ?_) (level_annotationLines _)
    split
    · exact level_fail _
    · exact level_nil
  next => exact level_fail _

theorem closes_constantDefinition : Rule.Closes constantDefinition := by
  intro s hs
  have hword : Level [.text "const "] := fun _ _ => rfl
  have hequals : Level [.text " = "] := fun _ _ => rfl
  have hend : Level [.text ";"] := fun _ _ => rfl
  unfold constantDefinition
  split
  next type name hc =>
    have htyped : Level (typed type "constant name" name) :=
      level_typedOf hs (by simp [hc, Construct.looseTexts])
    exact (((Takes.cons hword htyped).append hequals).append (level_operand _ _)).append hend
  next => exact level_fail _

theorem closes_typeMapperDefinition : Rule.Closes typeMapperDefinition := by
  intro s _
  unfold typeMapperDefinition
  split
  next =>
    refine level_sections fun parts => ?_
    refine Level.append (Level.append ?_ (level_returnList _)) (level_body _)
    refine Level.append (Level.append ?_ (level_header (by decide))) (level_parameterList _)
    exact (level_demand _ _).append (level_annotationLines _)
  next => exact level_fail _

theorem closes_workerDeclaration : Rule.Closes workerDeclaration := by
  intro s _
  unfold workerDeclaration
  split
  next =>
    refine level_sections fun parts => ?_
    refine Level.append (Level.append ?_ (level_parameterList _)) (level_body _)
    exact ((level_demand _ _).append (level_noReturns _)).append (level_header (by decide))
  next => exact level_fail _

theorem closes_parameterDefinition : Rule.Closes parameterDefinition := by
  intro s hs
  unfold parameterDefinition
  split
  next type name hc =>
    refine Level.append (level_flatMap fun child _ => ?_)
      (level_typedOf hs (by simp [hc, Construct.looseTexts]))
    split
    · exact level_group (by decide) _
    · exact level_fail _
  next => exact level_fail _

theorem closes_returnParameter : Rule.Closes returnParameter := by
  intro s hs
  have hspace : Level [.text " "] := fun _ _ => rfl
  unfold returnParameter
  split
  next type name hc =>
    have htype : Level (typeName type) :=
      level_typeName (hs.loose _ (by simp [hc, Construct.looseTexts]))
    refine Level.append (htype.append ?_) level_childless
    cases name with
    | some name => exact Takes.cons hspace (level_identifier _ _)
    | none => exact level_nil
  next => exact level_fail _

/-- A variable is level when its type and name are. -/
theorem level_variableText {s : Setting} {type name : String}
    (h : Level (typed type "variable name" name)) : Level (variableText s type name) := by
  have hequals : Level [.text " = "] := fun _ _ => rfl
  have hend : Level [.text ";"] := fun _ _ => rfl
  refine Level.append (Level.append ((level_demand _ _).append h) ?_) hend
  split
  · exact Takes.cons hequals (level_required _ _)
  · exact level_nil

theorem closes_variableDefinition : Rule.Closes variableDefinition := by
  intro s hs
  unfold variableDefinition
  split
  next type name hc =>
    exact level_variableText (level_typedOf hs (by simp [hc, Construct.looseTexts]))
  next => exact level_fail _

end Declarations

section Statements

theorem closes_variableDefinitionStatement : Rule.Closes variableDefinitionStatement := by
  intro s hs
  unfold variableDefinitionStatement
  split
  next type name hc =>
    exact level_variableText (level_typedOf hs (by simp [hc, Construct.looseTexts]))
  next => exact level_fail _

theorem closes_assignmentStatement : Rule.Closes assignmentStatement := by
  intro s _
  have hequals : Level [.text " = "] := fun _ _ => rfl
  have hend : Level [.text ";"] := fun _ _ => rfl
  unfold assignmentStatement
  split
  next => exact level_fail _
  next =>
    refine Level.append ((level_demand _ _).append (level_requiredAll (by decide) _)) ?_
    exact Takes.cons hequals (Takes.cons (level_required _ _) hend)

theorem closes_expressionStatement : Rule.Closes expressionStatement := by
  intro s _
  have hend : Level [.text ";"] := fun _ _ => rfl
  exact (level_operand _ _).append hend

theorem closes_returnStatement : Rule.Closes returnStatement := by
  intro s _
  have hword : Level [.text "return"] := fun _ _ => rfl
  have hspace : Level [.text " "] := fun _ _ => rfl
  have hend : Level [.text ";"] := fun _ _ => rfl
  refine Level.append (Takes.cons hword ?_) hend
  split
  · exact level_nil
  · exact Takes.cons hspace (level_requiredAll (by decide) _)

theorem closes_keywordStatement {word : String} (h : Text.Plain word.toList) :
    Rule.Closes (keywordStatement word) := by
  intro s _
  have hspace : Level [.text " "] := fun _ _ => rfl
  have hend : Level [.text ";"] := fun _ _ => rfl
  exact (Level.append (Takes.cons (level_word h) hspace) (level_operand _ _)).append hend

theorem closes_bareStatement {word : String} (h : Text.Plain word.toList) :
    Rule.Closes (bareStatement word) := by
  intro s _
  have hend : Level [.text ";"] := fun _ _ => rfl
  exact level_childless.append (Takes.cons (level_word h) hend)

theorem closes_workerInteraction {arrow : String} (h : Text.Plain arrow.toList) :
    Rule.Closes (workerInteraction arrow) := by
  intro s _
  have hspace : Level [.text " "] := fun _ _ => rfl
  have hend : Level [.text ";"] := fun _ _ => rfl
  have harrow : Level (texts [" ", arrow, " "]) :=
    Takes.cons hspace (Takes.cons (level_word h) hspace)
  have hwrite (worker : String) : Level
      (demand (!s.children.isEmpty) (.missing "message expression") ++
        requiredAll "message expression" ", " s.children ++ texts [" ", arrow, " "] ++
        identifier "worker name" worker ++ [.text ";"]) := by
    refine Level.append (Level.append (Level.append ?_ harrow) (level_identifier _ _)) hend
    exact (level_demand _ _).append (level_requiredAll (by decide) _)
  unfold workerInteraction
  dsimp only
  split
  · exact hwrite _
  · exact hwrite _
  · exact level_fail _

theorem closes_blockStatement : Rule.Closes blockStatement := fun _ _ => level_block _

theorem closes_transformStatement : Rule.Closes transformStatement := by
  intro s _
  have hword : Level [.text "transform "] := fun _ _ => rfl
  exact Takes.cons hword (level_block _)

end Statements

section Compound

theorem closes_conditionalClause {word : String} (h : Text.Plain word.toList) :
    Rule.Closes (conditionalClause word) := by
  intro s _
  have hopen : Takes [] [.text " ("] [.round] := fun _ _ => rfl
  have hclose : Takes [.round] [.text ") "] [] := fun _ _ => rfl
  refine Takes.append (Takes.cons (level_word h) hopen) (takes_firstOf fun _ _ => ?_)
  exact Takes.append (Takes.cons (level_required _ _).takes hclose) (level_block _)

theorem closes_plainClause {word : String} (h : Text.Plain word.toList) :
    Rule.Closes (plainClause word) := by
  intro s _
  have hspace : Level [.text " "] := fun _ _ => rfl
  exact Level.append (Takes.cons (level_word h) hspace) (level_block _)

theorem closes_catchStatement : Rule.Closes catchStatement := by
  intro s hs
  have hopen : Takes [] [.text "catch ("] [.round] := fun _ _ => rfl
  have hclose : Takes [.round] [.text ") "] [] := fun _ _ => rfl
  unfold catchStatement
  split
  next type name hc =>
    have htyped : Level (typed type "exception name" name) :=
      level_typedOf hs (by simp [hc, Construct.looseTexts])
    exact (Takes.append (hopen.cons htyped.takes) hclose).append (level_block _)
  next => exact level_fail _

theorem closes_forkJoinStatement : Rule.Closes forkJoinStatement := by
  intro s _
  have hword : Level [.text "fork "] := fun _ _ => rfl
  exact level_clauses (Level.append (Takes.cons hword (level_block _)) (level_group (by decide) _))

theorem closes_joinStatement : Rule.Closes joinStatement := by
  intro s hs
  have hopen : Takes [] [.text "join ("] [.round] := fun _ _ => rfl
  have hbetween : Takes [.round] [.text ") ("] [.round] := fun _ _ => rfl
  have hclose : Takes [.round] [.text ") "] [] := fun _ _ => rfl
  unfold joinStatement
  split
  next condition type name hc =>
    have hcondition : Level [.text (Text.trim condition)] :=
      level_word (hs.loose _ (by simp [hc, Construct.looseTexts])).trim
    have htyped : Level (typed type "join result name" name) :=
      level_typedOf hs (by simp [hc, Construct.looseTexts])
    have hhead : Takes [] (texts ["join (", Text.trim condition, ") ("]) [.round] :=
      hopen.cons (hcondition.takes.cons hbetween)
    refine Takes.append (Takes.append ?_ hclose) (level_block _)
    exact ((level_demand _ _).takes.append hhead).append htyped.takes
  next => exact level_fail _

theorem closes_timeoutStatement : Rule.Closes timeoutStatement := by
  intro s hs
  have hopen : Takes [] [.text "timeout ("] [.round] := fun _ _ => rfl
  have hbetween : Takes [.round] [.text ") ("] [.round] := fun _ _ => rfl
  have hclose : Takes [.round] [.text ") "] [] := fun _ _ => rfl
  unfold timeoutStatement
  split
  next type name hc =>
    have htyped : Level (typed type "timeout result name" name) :=
      level_typedOf hs (by simp [hc, Construct.looseTexts])
    refine takes_firstOf fun _ _ => ?_
    refine Takes.append (Takes.append (Takes.append ?_ htyped.takes) hclose) (level_block _)
    exact hopen.cons ((level_required _ _).takes.cons hbetween)
  next => exact level_fail _

end Compound

section Expressions

theorem closes_functionInvocation : Rule.Closes functionInvocation := by
  intro s hs
  have hclose : Takes [.round] [.text ")"] [] := fun _ _ => rfl
  unfold functionInvocation
  split
  next function _ =>
    refine Takes.append (Takes.append ?_ (level_arguments hs.separator).takes) hclose
    split
    next => exact fun hclean => absurd hclean (not_clean_fail _)
    next =>
      split
      next head hhead =>
        obtain ⟨chars, hchars, rfl⟩ := Option.map_eq_some_iff.mp hhead
        intro _ opened
        change (Scanner.run ⟨.code, opened⟩ (String.ofList chars).toList).bind some = _
        rw [String.toList_ofList, run_of_invocationHead? hchars]
        rfl
      next => exact fun hclean => absurd hclean (not_clean_fail _)
  next => exact level_fail _

/-- Arguments between parentheses are level. -/
theorem level_call {s : Setting} (hs : s.Tame) :
    Level (.text "(" :: (arguments s ++ [.text ")"])) := by
  have hopen : Takes [] [.text "("] [.round] := fun _ _ => rfl
  have hclose : Takes [.round] [.text ")"] [] := fun _ _ => rfl
  exact hopen.cons ((level_arguments hs.separator).takes.append hclose)

theorem closes_actionInvocation : Rule.Closes actionInvocation := by
  intro s hs
  have hdot : Level [.text "."] := fun _ _ => rfl
  unfold actionInvocation
  split
  next =>
    rw [List.append_assoc, List.append_assoc]
    refine Level.append (Level.append ?_ (level_identifier _ _)) (level_call hs)
    exact (level_qualified _ _).append hdot
  next => exact level_fail _

theorem closes_connectorInit : Rule.Closes connectorInit := by
  intro s hs
  have hword : Level [.text "create "] := fun _ _ => rfl
  unfold connectorInit
  split
  next =>
    rw [List.append_assoc, List.append_assoc]
    exact Level.append (Takes.cons hword (level_qualified _ _)) (level_call hs)
  next => exact level_fail _

theorem closes_binaryExpression : Rule.Closes binaryExpression := by
  intro s _
  have hspace : Level [.text " "] := fun _ _ => rfl
  unfold binaryExpression
  split
  next operator _ =>
    have hoperator : Level [.text operator.symbol] := level_word (by cases operator <;> decide)
    refine level_two fun _ _ => Level.append ?_ (level_required _ _)
    exact Takes.cons (level_required _ _) (Takes.cons hspace (Takes.cons hoperator hspace))
  next => exact level_fail _

theorem closes_unaryExpression : Rule.Closes unaryExpression := by
  intro s _
  unfold unaryExpression
  split
  next operator _ =>
    have hoperator : Level [.text operator.symbol] := level_word (by cases operator <;> decide)
    exact Takes.cons hoperator (level_operand _ _)
  next => exact level_fail _

theorem closes_parenthesized : Rule.Closes parenthesized := by
  intro s _
  have hopen : Takes [] [.text "("] [.round] := fun _ _ => rfl
  have hclose : Takes [.round] [.text ")"] [] := fun _ _ => rfl
  exact Takes.append (hopen.cons (level_operand _ _).takes) hclose

theorem closes_basicLiteral : Rule.Closes basicLiteral := by
  intro s hs
  unfold basicLiteral
  split
  next type value hc =>
    refine level_childless.append ?_
    have hnumber (h : value.toList ∈ s.construct.looseTexts) :
        Level (if (Text.trim value).isEmpty then fail (.empty "numeric literal")
          else [.text (Text.trim value)]) := by
      split
      · exact level_fail _
      · exact level_word (hs.loose _ h).trim
    cases type with
    | string =>
      refine level_text ?_
      rw [Text.Quoted.literal, String.toList_ofList]
      exact level_encode _
    | null => exact fun _ _ => rfl
    | boolean =>
      unfold literalText
      dsimp only
      split
      next h =>
        rw [Bool.or_eq_true, decide_eq_true_eq, decide_eq_true_eq] at h
        rcases h with rfl | rfl
        · exact fun _ _ => rfl
        · exact fun _ _ => rfl
      next => exact level_fail _
    | int => exact hnumber (by simp [hc, Construct.looseTexts])
    | float => exact hnumber (by simp [hc, Construct.looseTexts])
  next => exact level_fail _

theorem closes_variableReference : Rule.Closes variableReference := by
  intro s _
  unfold variableReference
  split
  next => exact level_childless.append (level_qualified _ _)
  next => exact level_fail _

theorem closes_fieldAccess : Rule.Closes fieldAccess := by
  intro s _
  have hdot : Level [.text "."] := fun _ _ => rfl
  unfold fieldAccess
  split
  next => exact ((level_operand _ _).append hdot).append (level_identifier _ _)
  next => exact level_fail _

theorem closes_indexAccess : Rule.Closes indexAccess := by
  intro s _
  have hopen : Takes [] [.text "["] [.square] := fun _ _ => rfl
  have hclose : Takes [.square] [.text "]"] [] := fun _ _ => rfl
  refine level_two fun _ _ => ?_
  exact Takes.cons (level_required _ _) (hopen.cons ((level_required _ _).takes.cons hclose))

theorem closes_typeCast : Rule.Closes typeCast := by
  intro s hs
  have hopen : Takes [] [.text "("] [.round] := fun _ _ => rfl
  have hclose : Takes [.round] [.text ")"] [] := fun _ _ => rfl
  unfold typeCast
  split
  next target hc =>
    have htarget : Level (typeName target) :=
      level_typeName (hs.loose _ (by simp [hc, Construct.looseTexts]))
    exact (Takes.append (hopen.cons htarget.takes) hclose).append (level_operand _ _)
  next => exact level_fail _

theorem closes_typeConversion : Rule.Closes typeConversion := by
  intro s hs
  have hopen : Level [.text "<"] := fun _ _ => rfl
  have hclose : Level [.text ">"] := fun _ _ => rfl
  unfold typeConversion
  split
  next target hc =>
    have htarget : Level (typeName target) :=
      level_typeName (hs.loose _ (by simp [hc, Construct.looseTexts]))
    exact (Level.append (Takes.cons hopen htarget) hclose).append (level_operand _ _)
  next => exact level_fail _

theorem closes_arrayInit : Rule.Closes arrayInit := by
  intro s hs
  have hopen : Takes [] [.text "["] [.square] := fun _ _ => rfl
  have hclose : Takes [.square] [.text "]"] [] := fun _ _ => rfl
  exact Takes.append (hopen.cons (level_arguments hs.separator).takes) hclose

theorem closes_mapInit : Rule.Closes mapInit := by
  intro s hs
  have hopen : Takes [] [.text "\x7b"] [.curly] := fun _ _ => rfl
  have hclose : Takes [.curly] [.text "\x7d"] [] := fun _ _ => rfl
  unfold mapInit
  split
  next => exact level_fail _
  next => exact Takes.append (hopen.cons (level_arguments hs.separator).takes) hclose

theorem closes_keyValue : Rule.Closes keyValue := by
  intro s _
  have hcolon : Level [.text ":"] := fun _ _ => rfl
  refine level_two fun _ _ => ?_
  exact Takes.cons (level_required _ _) (Takes.cons hcolon (level_required _ _))

theorem closes_backQuote : Rule.Closes backQuote := by
  intro s _
  unfold backQuote
  split
  next template _ =>
    intro hclean opened
    have htemplate : s.children = [] ∧ '\x60' ∉ template.toList := by simpa using hclean
    have hquoted : scan ⟨.code, opened⟩ (texts ["`", template, "`"]) = some ⟨.code, opened⟩ := by
      change (Scanner.run ⟨.template, opened⟩ template.toList).bind _ = _
      rw [run_template htemplate.2]
      rfl
    obtain ⟨hchecked, -⟩ := clean_append.mp hclean
    rw [scan_append, level_childless.append (level_demand _ _) hchecked opened]
    exact hquoted
  next => exact level_fail _

end Expressions

/-- Every rule but that of comments closes what it opens. -/
theorem closes_rule {tag : Tag} (htag : tag ≠ .commentStatement) : Rule.Closes (rule tag) := by
  cases tag with
  | compilationUnit => exact closes_compilationUnit
  | packageDeclaration => exact closes_packageDeclaration
  | importDeclaration => exact closes_importDeclaration
  | annotationUse => exact closes_annotationUse
  | annotationAttribute => exact closes_annotationAttribute
  | serviceDefinition => exact closes_serviceDefinition
  | resourceDefinition => exact closes_resourceDefinition
  | functionDefinition => exact closes_functionDefinition
  | connectorDefinition => exact closes_connectorDefinition
  | actionDefinition => exact closes_actionDefinition
  | structDefinition => exact closes_structDefinition
  | constantDefinition => exact closes_constantDefinition
  | typeMapperDefinition => exact closes_typeMapperDefinition
  | workerDeclaration => exact closes_workerDeclaration
  | parameterDefinition => exact closes_parameterDefinition
  | returnParameter => exact closes_returnParameter
  | variableDefinition => exact closes_variableDefinition
  | variableDefinitionStatement => exact closes_variableDefinitionStatement
  | assignmentStatement => exact closes_assignmentStatement
  | expressionStatement => exact closes_expressionStatement
  | returnStatement => exact closes_returnStatement
  | replyStatement => exact closes_keywordStatement (by decide)
  | throwStatement => exact closes_keywordStatement (by decide)
  | breakStatement => exact closes_bareStatement (by decide)
  | abortStatement => exact closes_bareStatement (by decide)
  | commentStatement => exact absurd rfl htag
  | workerInvocationStatement => exact closes_workerInteraction (by decide)
  | workerReplyStatement => exact closes_workerInteraction (by decide)
  | blockStatement => exact closes_blockStatement
  | transformStatement => exact closes_transformStatement
  | ifElseStatement => exact fun _ _ => level_clauseSequence _
  | ifStatement => exact closes_conditionalClause (by decide)
  | elseIfStatement => exact closes_conditionalClause (by decide)
  | elseStatement => exact closes_plainClause (by decide)
  | whileStatement => exact closes_conditionalClause (by decide)
  | tryCatchStatement => exact fun _ _ => level_clauseSequence _
  | tryStatement => exact closes_plainClause (by decide)
  | catchStatement => exact closes_catchStatement
  | finallyStatement => exact closes_plainClause (by decide)
  | forkJoinStatement => exact closes_forkJoinStatement
  | joinStatement => exact closes_joinStatement
  | timeoutStatement => exact closes_timeoutStatement
  | transactionAbortedStatement => exact fun _ _ => level_clauseSequence _
  | transactionStatement => exact closes_plainClause (by decide)
  | abortedStatement => exact closes_plainClause (by decide)
  | committedStatement => exact closes_plainClause (by decide)
  | functionInvocationExpression => exact closes_functionInvocation
  | actionInvocationExpression => exact closes_actionInvocation
  | connectorInitExpression => exact closes_connectorInit
  | binaryExpression => exact closes_binaryExpression
  | unaryExpression => exact closes_unaryExpression
  | parenthesizedExpression => exact closes_parenthesized
  | basicLiteralExpression => exact closes_basicLiteral
  | variableReferenceExpression => exact closes_variableReference
  | fieldAccessExpression => exact closes_fieldAccess
  | indexAccessExpression => exact closes_indexAccess
  | typeCastExpression => exact closes_typeCast
  | typeConversionExpression => exact closes_typeConversion
  | arrayInitExpression => exact closes_arrayInit
  | mapInitExpression => exact closes_mapInit
  | keyValueExpression => exact closes_keyValue
  | backQuoteExpression => exact closes_backQuote

end Grammar

end SourceScribe
