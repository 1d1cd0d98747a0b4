import SourceScribe.Grammar.Rules
import SourceScribe.Proofs.Coverage
import SourceScribe.Proofs.Links

/-!
# What scripts cannot do without

Some of the children that a script asks for must be written where they stand.
The syntax of a kind says which of its children these are: its operands. A rule
that does not reject a node of its kind demands the operands of the node, in
order. For most kinds with operands all children are, and their rules demand
whatever they ask for.
-/

namespace SourceScribe

/-- The children that a piece cannot do without, in order. -/
def Piece.demands : Piece → List NodeId
  | .required _ child => [child]
  | _ => []

/-- The children that stand where the syntax of a kind leaves no gap. -/
def Tag.operands (children : List NodeId) : Tag → List NodeId
  | .binaryExpression | .unaryExpression | .parenthesizedExpression => children
  | .fieldAccessExpression | .indexAccessExpression => children
  | .typeCastExpression | .typeConversionExpression => children
  | .keyValueExpression | .annotationAttribute => children
  | .constantDefinition | .variableDefinition | .variableDefinitionStatement => children
  | .assignmentStatement | .expressionStatement | .returnStatement => children
  | .replyStatement | .throwStatement => children
  | .workerInvocationStatement | .workerReplyStatement => children
  | .ifStatement | .elseIfStatement | .whileStatement | .timeoutStatement => children.take 1
  | _ => []

/-- The operands of a node; none when the node does not exist. -/
def Ast.operands (ast : Ast) (id : NodeId) : List NodeId :=
  ((ast.tag? id).map (Tag.operands (ast.children id))).getD []

/-- The operands of a node that is found. -/
theorem Ast.operands_of_node {ast : Ast} {id : NodeId} {node : Node}
    (h : ast.node? id = some node) : ast.operands id = node.tag.operands node.children := by
  rw [operands, tag_of_node h, children_of_node h]
  rfl

namespace Script

/-- The children that a script cannot do without, in order. -/
def demands (s : Script) : List NodeId := s.flatMap Piece.demands

/-- The script demands whatever it asks for. -/
def Strict (s : Script) : Prop := demands s = calls s

variable {s t : Script}

@[simp]
theorem demands_nil : demands [] = [] := rfl

@[simp]
theorem demands_cons (p : Piece) (s : Script) : demands (p :: s) = p.demands ++ demands s :=
  List.flatMap_cons

@[simp]
theorem demands_append (s t : Script) : demands (s ++ t) = demands s ++ demands t :=
  List.flatMap_append

/-- What is demanded is asked for. -/
theorem demands_sublist (s : Script) : (demands s).Sublist (calls s) := by
  induction s with
  | nil => exact List.Sublist.refl []
  | cons p s ih =>
    rw [demands_cons, calls_cons]
    have hp : p.demands.Sublist p.calls := by
      cases p with
      | required slot child => exact List.Sublist.refl [child]
      | _ => exact List.nil_sublist _
    exact hp.append ih

/-- A script that asks for nothing demands nothing. -/
theorem demands_eq_nil (h : calls s = []) : demands s = [] := by
  have hs := demands_sublist s
  rwa [h, List.sublist_nil] at hs

/-- A script that asks for nothing is strict. -/
theorem strict_of_calls (h : calls s = []) : Strict s := (demands_eq_nil h).trans h.symm

/-- Strict scripts come one after the other. -/
theorem Strict.append (hs : Strict s) (ht : Strict t) : Strict (s ++ t) := by
  rw [Strict, demands_append, calls_append, hs, ht]

/-- A required child in front of a strict script. -/
theorem Strict.required (slot : String) (child : NodeId) (h : Strict s) :
    Strict (.required slot child :: s) := by
  rw [Strict, demands_cons, calls_cons, h]
  rfl

/-- Text in front of a strict script. -/
theorem Strict.text (value : String) (h : Strict s) : Strict (.text value :: s) := by
  rw [Strict, demands_cons, calls_cons, h]
  rfl

theorem strict_nil : Strict [] := rfl

theorem strict_fail (fault : Fault) : Strict (fail fault) := rfl

/-- Required children with text between them. -/
theorem strict_requiredAll (slot separator : String) (children : List NodeId) :
    Strict (requiredAll slot separator children) := by
  cases children with
  | nil => rfl
  | cons child rest =>
    apply Strict.required
    induction rest with
    | nil => rfl
    | cons next rest ih => exact (Strict.text separator (strict_nil.required slot next)).append ih

/-- A script for a single child is strict if it always goes on strictly. -/
theorem strict_one {s : Setting} {expected : String} {next : NodeId → Script}
    (h : ∀ child, Strict (next child)) : Strict (one s expected next) := by
  unfold one
  split
  · exact h _
  · exact strict_fail _

/-- A script for two children is strict if it always goes on strictly. -/
theorem strict_two {s : Setting} {expected : String} {next : NodeId → NodeId → Script}
    (h : ∀ first second, Strict (next first second)) : Strict (two s expected next) := by
  unfold two
  split
  · exact h _ _
  · exact strict_fail _

/-- An operand is demanded. -/
theorem strict_operand (s : Setting) (expected slot : String) : Strict (operand s expected slot) :=
  strict_one fun child => strict_nil.required slot child

/-- A clean script that is strict demands the children that it covers. -/
theorem Strict.demands_eq {children : List NodeId} (hs : Strict s) (hc : Covers s children)
    (hclean : Clean s) : demands s = children := by
  rw [hs, hc.all hclean]

end Script

namespace Grammar

open Script

section Expressions

theorem strict_binaryExpression (s : Setting) : Strict (binaryExpression s) := by
  unfold binaryExpression
  split
  · exact strict_two fun _ _ =>
      Strict.required _ _ ((strict_of_calls (calls_texts _)).append (strict_nil.required _ _))
  · exact strict_fail _

theorem strict_unaryExpression (s : Setting) : Strict (unaryExpression s) := by
  unfold unaryExpression
  split
  · exact (strict_operand s _ _).text _
  · exact strict_fail _

theorem strict_parenthesized (s : Setting) : Strict (parenthesized s) :=
  ((strict_operand s _ _).text _).append (strict_nil.text _)

theorem strict_fieldAccess (s : Setting) : Strict (fieldAccess s) := by
  unfold fieldAccess
  split
  · exact ((strict_operand s _ _).append (strict_nil.text _)).append
      (strict_of_calls (calls_identifier _ _))
  · exact strict_fail _

theorem strict_indexAccess (s : Setting) : Strict (indexAccess s) :=
  strict_two fun _ _ => rfl

theorem strict_typeCast (s : Setting) : Strict (typeCast s) := by
  unfold typeCast
  split
  · exact (strict_of_calls (by simp)).append (strict_operand s _ _)
  · exact strict_fail _

theorem strict_typeConversion (s : Setting) : Strict (typeConversion s) := by
  unfold typeConversion
  split
  · exact (strict_of_calls (by simp)).append (strict_operand s _ _)
  · exact strict_fail _

theorem strict_keyValue (s : Setting) : Strict (keyValue s) := strict_two fun _ _ => rfl

end Expressions

section Declarations

theorem strict_annotationAttribute (s : Setting) : Strict (annotationAttribute s) := by
  unfold annotationAttribute
  split
  · exact (strict_of_calls (by simp)).append (strict_operand s _ _)
  · exact strict_fail _

theorem strict_constantDefinition (s : Setting) : Strict (constantDefinition s) := by
  unfold constantDefinition
  split
  · exact ((strict_of_calls (by simp)).append (strict_operand s _ _)).append (strict_nil.text _)
  · exact strict_fail _

theorem strict_variableText (s : Setting) (type name : String) :
    Strict (variableText s type name) := by
  unfold variableText
  have hhead : Strict (demand (s.children.length ≤ 1) .initializers ++
      typed type "variable name" name) := strict_of_calls (by simp)
  refine (hhead.append ?_).append (strict_nil.text _)
  split <;> rfl

theorem strict_variableDefinition (s : Setting) : Strict (variableDefinition s) := by
  unfold variableDefinition
  split
  · exact strict_variableText s _ _
  · exact strict_fail _

end Declarations

section Statements

theorem strict_variableDefinitionStatement (s : Setting) :
    Strict (variableDefinitionStatement s) := by
  unfold variableDefinitionStatement
  split
  · exact strict_variableText s _ _
  · exact strict_fail _

theorem strict_assignmentStatement (s : Setting) : Strict (assignmentStatement s) := by
  unfold assignmentStatement
  split
  · exact strict_fail _
  · exact ((strict_of_calls (calls_demand _ _)).append (strict_requiredAll _ _ _)).append rfl

theorem strict_expressionStatement (s : Setting) : Strict (expressionStatement s) :=
  (strict_operand s _ _).append (strict_nil.text _)

theorem strict_returnStatement (s : Setting) : Strict (returnStatement s) := by
  unfold returnStatement
  have hvalues : Strict (if s.children.isEmpty then []
      else .text " " :: requiredAll "return value" ", " s.children) := by
    split
    · exact strict_nil
    · exact (strict_requiredAll _ _ _).text _
  exact (hvalues.text "return").append (strict_nil.text _)

theorem strict_keywordStatement (word : String) (s : Setting) :
    Strict (keywordStatement word s) :=
  ((strict_of_calls (calls_texts _)).append (strict_operand s _ _)).append (strict_nil.text _)

theorem strict_workerInteraction (arrow : String) (s : Setting) :
    Strict (workerInteraction arrow s) := by
  have hwrite (worker : String) : Strict (demand (!s.children.isEmpty)
      (.missing "message expression") ++ requiredAll "message expression" ", " s.children ++
      texts [" ", arrow, " "] ++ identifier "worker name" worker ++ [.text ";"]) := by
    have hmessages := (strict_of_calls (calls_demand (!s.children.isEmpty)
      (.missing "message expression"))).append
        (strict_requiredAll "message expression" ", " s.children)
    exact ((hmessages.append (strict_of_calls (calls_texts _))).append
      (strict_of_calls (calls_identifier _ _))).append (strict_nil.text _)
  unfold workerInteraction
  dsimp only
  split
  · exact hwrite _
  · exact hwrite _
  · exact strict_fail _

end Statements

section Compound

/-- A condition is demanded. -/
theorem demands_conditionalClause {word : String} {s : Setting}
    (h : Clean (conditionalClause word s)) :
    demands (conditionalClause word s) = s.children.take 1 := by
  unfold conditionalClause firstOf at *
  cases hs : s.children with
  | nil => simp [hs] at h
  | cons condition rest => simp [texts, block, Piece.demands]

/-- The expression of a timeout is demanded. -/
theorem demands_timeoutStatement {s : Setting} (h : Clean (timeoutStatement s)) :
    demands (timeoutStatement s) = s.children.take 1 := by
  unfold timeoutStatement firstOf at *
  split at h
  next type name _ =>
    cases hs : s.children with
    | nil => simp [hs] at h
    | cons timeout rest =>
      have htyped : demands (typed type "timeout result name" name) = [] :=
        demands_eq_nil (calls_typed _ _ _)
      simp [htyped, block, Piece.demands]
  next => exact absurd h (not_clean_fail _)

end Compound

/-- A rule that does not reject a node demands the operands of its kind. -/
theorem operands_sublist {tag : Tag} {s : Setting} (h : Clean (rule tag s)) :
    (tag.operands s.children).Sublist (demands (rule tag s)) := by
  have hstrict (hs : Strict (rule tag s)) : s.children.Sublist (demands (rule tag s)) := by
    rw [hs.demands_eq (covers_rule tag s) h]
  cases tag with
  | binaryExpression => exact hstrict (strict_binaryExpression s)
  | unaryExpression => exact hstrict (strict_unaryExpression s)
  | parenthesizedExpression => exact hstrict (strict_parenthesized s)
  | fieldAccessExpression => exact hstrict (strict_fieldAccess s)
  | indexAccessExpression => exact hstrict (strict_indexAccess s)
  | typeCastExpression => exact hstrict (strict_typeCast s)
  | typeConversionExpression => exact hstrict (strict_typeConversion s)
  | keyValueExpression => exact hstrict (strict_keyValue s)
  | annotationAttribute => exact hstrict (strict_annotationAttribute s)
  | constantDefinition => exact hstrict (strict_constantDefinition s)
  | variableDefinition => exact hstrict (strict_variableDefinition s)
  | variableDefinitionStatement => exact hstrict (strict_variableDefinitionStatement s)
  | assignmentStatement => exact hstrict (strict_assignmentStatement s)
  | expressionStatement => exact hstrict (strict_expressionStatement s)
  | returnStatement => exact hstrict (strict_returnStatement s)
  | replyStatement => exact hstrict (strict_keywordStatement _ s)
  | throwStatement => exact hstrict (strict_keywordStatement _ s)
  | workerInvocationStatement => exact hstrict (strict_workerInteraction _ s)
  | workerReplyStatement => exact hstrict (strict_workerInteraction _ s)
  | ifStatement => exact (demands_conditionalClause h).symm ▸ List.Sublist.refl _
  | elseIfStatement => exact (demands_conditionalClause h).symm ▸ List.Sublist.refl _
  | whileStatement => exact (demands_conditionalClause h).symm ▸ List.Sublist.refl _
  | timeoutStatement => exact (demands_timeoutStatement h).symm ▸ List.Sublist.refl _
  | _ => exact List.nil_sublist _

end Grammar

end SourceScribe
