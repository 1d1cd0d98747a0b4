import SourceScribe.Grammar.Expressions
import SourceScribe.Proofs.Wording.Declarations

/-!
# The rules for expressions and the printer

The rules for expressions realize their constructs.
-/

namespace SourceScribe.Grammar

open Script Layout

/-- The empty text is no head of an invocation. -/
theorem invocation?_empty : Text.Name.invocation? "" = none := by decide

theorem realizes_functionInvocation (function : String) :
    Rule.Realizes functionInvocation (.functionInvocationExpression function) where
  clean h := by
    simp only [functionInvocation, h.construct, Construct.Accepts]
    by_cases hf : function.isEmpty = true
    · rw [if_pos hf, String.isEmpty_iff.mp hf, invocation?_empty]
      simp
    · rw [if_neg hf]
      cases Text.Name.invocation? function <;> simp
  layout h ha := by
    obtain ⟨head, hhead⟩ := Option.isSome_iff_exists.mp ha
    have hne : function.isEmpty = false := by
      by_contra he
      rw [Bool.not_eq_false, String.isEmpty_iff] at he
      rw [he, invocation?_empty] at hhead
      cases hhead
    simp [functionInvocation, h.construct, hne, hhead, Construct.layout]

theorem realizes_actionInvocation (package : Option String) (connector action : String) :
    Rule.Realizes actionInvocation (.actionInvocationExpression package connector action) where
  clean h := by
    simp [actionInvocation, h.construct, Construct.Accepts, Text.Name.Qualified, and_assoc]
  layout h ha := by
    obtain ⟨hconnector, haction⟩ := ha
    simp [actionInvocation, h.construct, hconnector, haction, Construct.layout]

theorem realizes_connectorInit (package : Option String) (connector : String) :
    Rule.Realizes connectorInit (.connectorInitExpression package connector) where
  clean h := by simp [connectorInit, h.construct, Construct.Accepts, Text.Name.Qualified]
  layout h ha := by
    have hconnector : Text.Name.Qualified package connector := ha
    simp [connectorInit, h.construct, hconnector, Construct.layout]

theorem realizes_binaryExpression (operator : BinaryOperator) :
    Rule.Realizes binaryExpression (.binaryExpression operator) where
  clean h := by
    simp only [binaryExpression, h.construct, Construct.Accepts, List.length_map]
    exact clean_two (by simp)
  layout h ha := by
    simp only [Construct.Accepts, List.length_map] at ha
    obtain ⟨left, right, hs⟩ := List.length_eq_two.mp ha
    simp [binaryExpression, h.construct, hs, Construct.layout, two, Kid.layouts, Layout.separated]

theorem realizes_unaryExpression (operator : UnaryOperator) :
    Rule.Realizes unaryExpression (.unaryExpression operator) where
  clean h := by simp [unaryExpression, h.construct, Construct.Accepts]
  layout h ha := by
    simp only [Construct.Accepts, List.length_map] at ha
    simp [unaryExpression, h.construct, ha, Construct.layout]

theorem realizes_parenthesized : Rule.Realizes parenthesized .parenthesizedExpression where
  clean _ := by simp [Grammar.parenthesized, Construct.Accepts]
  layout _ ha := by
    simp only [Construct.Accepts, List.length_map] at ha
    simp [Grammar.parenthesized, ha, Construct.layout]

/-- The text of a literal is clean when the value fits the type. -/
theorem clean_literalText {type : LiteralType} {value : String} :
    Clean (literalText type value) ↔ type.Accepts value := by
  unfold literalText LiteralType.Accepts
  cases type <;> dsimp only
  case boolean => split <;> simp_all
  case int => split <;> simp_all
  case float => split <;> simp_all
  all_goals simp

/-- The text of a literal whose value fits the type. -/
theorem layout?_literalText {blankLines : Bool} {kid : NodeId → Kid} {type : LiteralType}
    {value : String} (h : type.Accepts value) :
    layout? blankLines kid (literalText type value) = some (Layout.literal type value) := by
  unfold literalText Layout.literal
  unfold LiteralType.Accepts at h
  cases type <;> dsimp only at h ⊢
  case boolean => simp [h]
  case int => simp [h]
  case float => simp [h]
  all_goals simp

theorem realizes_basicLiteral (type : LiteralType) (value : String) :
    Rule.Realizes basicLiteral (.basicLiteralExpression type value) where
  clean h := by simp [basicLiteral, h.construct, Construct.Accepts, clean_literalText]
  layout h ha := by
    obtain ⟨hnone, hvalue⟩ := ha
    rw [List.map_eq_nil_iff] at hnone
    simp [basicLiteral, h.construct, hnone, layout?_literalText hvalue, Construct.layout]

theorem realizes_variableReference (package : Option String) (name : String) :
    Rule.Realizes variableReference (.variableReferenceExpression package name) where
  clean h := by simp [variableReference, h.construct, Construct.Accepts, Text.Name.Qualified]
  layout h ha := by
    obtain ⟨hnone, hname⟩ := ha
    rw [List.map_eq_nil_iff] at hnone
    simp [variableReference, h.construct, hnone, hname, Construct.layout]

theorem realizes_fieldAccess (field : String) :
    Rule.Realizes fieldAccess (.fieldAccessExpression field) where
  clean h := by simp [fieldAccess, h.construct, Construct.Accepts]
  layout h ha := by
    obtain ⟨hone, hfield⟩ := ha
    rw [List.length_map] at hone
    simp [fieldAccess, h.construct, hone, hfield, Construct.layout]

theorem realizes_indexAccess : Rule.Realizes indexAccess .indexAccessExpression where
  clean _ := by
    simp only [indexAccess, Construct.Accepts, List.length_map]
    exact clean_two (by simp)
  layout _ ha := by
    simp only [Construct.Accepts, List.length_map] at ha
    obtain ⟨base, index, hs⟩ := List.length_eq_two.mp ha
    simp [indexAccess, hs, Construct.layout, two, Kid.layouts, Layout.separated]

theorem realizes_typeCast (target : String) :
    Rule.Realizes typeCast (.typeCastExpression target) where
  clean h := by simp [typeCast, h.construct, Construct.Accepts]
  layout h ha := by
    obtain ⟨htarget, hone⟩ := ha
    rw [List.length_map] at hone
    simp [typeCast, h.construct, htarget, hone, Construct.layout]

theorem realizes_typeConversion (target : String) :
    Rule.Realizes typeConversion (.typeConversionExpression target) where
  clean h := by simp [typeConversion, h.construct, Construct.Accepts]
  layout h ha := by
    obtain ⟨htarget, hone⟩ := ha
    rw [List.length_map] at hone
    simp [typeConversion, h.construct, htarget, hone, Construct.layout]

theorem realizes_arrayInit : Rule.Realizes arrayInit .arrayInitExpression where
  clean _ := by simp [arrayInit, Construct.Accepts]
  layout _ _ := by simp [arrayInit, Construct.layout]

/-- The entries of a map are pairs when all of its children are. -/
theorem find?_entries {s : Setting} {kid : NodeId → Kid} (hk : s.Knows kid) :
    (s.children.find? fun child => s.tag? child != some .keyValueExpression) = none ↔
      ∀ tag ∈ s.children.map (Kid.tag ∘ kid), tag = .keyValueExpression := by
  rw [List.find?_eq_none, List.forall_mem_map]
  refine forall₂_congr fun child hc => ?_
  rw [hk child hc]
  simp

theorem realizes_mapInit : Rule.Realizes mapInit .mapInitExpression where
  clean {s kid} h := by
    simp only [mapInit, Construct.Accepts]
    rw [← find?_entries h.knows]
    cases s.children.find? fun child => s.tag? child != some .keyValueExpression with
    | none => simp
    | some child => simp
  layout h ha := by
    have hfind := (find?_entries h.knows).mpr ha
    simp [mapInit, hfind, Construct.layout]

theorem realizes_keyValue : Rule.Realizes keyValue .keyValueExpression where
  clean _ := by
    simp only [keyValue, Construct.Accepts, List.length_map]
    exact clean_two (by simp)
  layout _ ha := by
    simp only [Construct.Accepts, List.length_map] at ha
    obtain ⟨key, value, hs⟩ := List.length_eq_two.mp ha
    simp [keyValue, hs, Construct.layout, two, Kid.layouts, Layout.separated]

theorem realizes_backQuote (template : String) :
    Rule.Realizes backQuote (.backQuoteExpression template) where
  clean h := by simp [backQuote, h.construct, Construct.Accepts]
  layout h ha := by
    obtain ⟨hnone, hquote⟩ := ha
    rw [List.map_eq_nil_iff] at hnone
    simp [backQuote, h.construct, hnone, hquote, Construct.layout]

end SourceScribe.Grammar
