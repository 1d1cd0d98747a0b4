import SourceScribe.Grammar.Fragments
import SourceScribe.Text.Blank
import SourceScribe.Text.Quoted

/-!
# Expressions

Operands are children that their expression cannot do without; arguments,
items and entries are children that are left out when they were written
before.
-/

namespace SourceScribe.Grammar

open Script

/-- The head of an invocation, arguments, and the closing parenthesis. -/
def functionInvocation : Rule := fun s =>
  match s.construct with
  | .functionInvocationExpression function =>
    (if function.isEmpty then fail (.empty "invocation fragment")
      else match Text.Name.invocation? function with
        | some head => [.text head]
        | none => fail (.notInvocation function)) ++
      arguments s ++ [.text ")"]
  | _ => fail .wrongConstruct

/-- A connector, a dot, an action, and arguments between parentheses. -/
def actionInvocation : Rule := fun s =>
  match s.construct with
  | .actionInvocationExpression package connector action =>
    qualified package connector ++ [.text "."] ++ identifier "action name" action ++
      [.text "("] ++ arguments s ++ [.text ")"]
  | _ => fail .wrongConstruct

/-- The word `create`, a connector, and arguments between parentheses. -/
def connectorInit : Rule := fun s =>
  match s.construct with
  | .connectorInitExpression package connector =>
    .text "create " :: qualified package connector ++ [.text "("] ++ arguments s ++ [.text ")"]
  | _ => fail .wrongConstruct

/-- Two operands with the operator between them. -/
def binaryExpression : Rule := fun s =>
  match s.construct with
  | .binaryExpression operator =>
    two s "two operands" fun left right =>
      .required "left operand" left :: texts [" ", operator.symbol, " "] ++
        [.required "right operand" right]
  | _ => fail .wrongConstruct

/-- The operator and its operand. -/
def unaryExpression : Rule := fun s =>
  match s.construct with
  | .unaryExpression operator => .text operator.symbol :: operand s "one operand" "operand"
  | _ => fail .wrongConstruct

/-- An expression between parentheses. -/
def parenthesized : Rule := fun s =>
  .text "(" :: operand s "one expression" "expression" ++ [.text ")"]

/-- The text of a literal of a type. -/
def literalText (type : LiteralType) (value : String) : Script :=
  match type with
  | .string => [.text (Text.Quoted.literal value)]
  | .null => [.text "null"]
  | .boolean =>
    if value = "true" || value = "false" then [.text value] else fail (.notBoolean value)
  | .int | .float =>
    let digits := Text.trim value
    if digits.isEmpty then fail (.empty "numeric literal") else [.text digits]

/-- A literal. -/
def basicLiteral : Rule := fun s =>
  match s.construct with
  | .basicLiteralExpression type value => childless s ++ literalText type value
  | _ => fail .wrongConstruct

/-- The name of a variable, possibly of another package. -/
def variableReference : Rule := fun s =>
  match s.construct with
  | .variableReferenceExpression package name => childless s ++ qualified package name
  | _ => fail .wrongConstruct

/-- An expression, a dot, and the name of a field. -/
def fieldAccess : Rule := fun s =>
  match s.construct with
  | .fieldAccessExpression field =>
    operand s "a base expression" "base expression" ++ [.text "."] ++
      identifier "field name" field
  | _ => fail .wrongConstruct

/-- An expression and an index between brackets. -/
def indexAccess : Rule := fun s =>
  two s "a base and an index" fun base index =>
    [.required "base expression" base, .text "[", .required "index" index, .text "]"]

/-- A type between parentheses and an expression. -/
def typeCast : Rule := fun s =>
  match s.construct with
  | .typeCastExpression target =>
    .text "(" :: typeName target ++ [.text ")"] ++ operand s "one expression" "expression"
  | _ => fail .wrongConstruct

/-- A type between angle brackets and an expression. -/
def typeConversion : Rule := fun s =>
  match s.construct with
  | .typeConversionExpression target =>
    .text "<" :: typeName target ++ [.text ">"] ++ operand s "one expression" "expression"
  | _ => fail .wrongConstruct

/-- Items between brackets. -/
def arrayInit : Rule := fun s => .text "[" :: arguments s ++ [.text "]"]

/-- Entries between braces. -/
def mapInit : Rule := fun s =>
  match s.children.find? fun child => s.tag? child != some .keyValueExpression with
  | some child => fail (.notPair child)
  | none => .text "\x7b" :: arguments s ++ [.text "\x7d"]

/-- A key, a colon, and a value. -/
def keyValue : Rule := fun s =>
  two s "a key and a value" fun key value =>
    [.required "key" key, .text ":", .required "value" value]

/-- A template between back quotes. -/
def backQuote : Rule := fun s =>
  match s.construct with
  | .backQuoteExpression template =>
    childless s ++ demand (!template.toList.contains '\x60') .backQuoteInTemplate ++
      texts ["`", template, "`"]
  | _ => fail .wrongConstruct

end SourceScribe.Grammar
