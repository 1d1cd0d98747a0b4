import SourceScribe.Grammar.Script
import SourceScribe.Text.Name

/-!
# Checks on fragments and children

These scripts write a fragment that has the right shape and reject the node
otherwise, or go on with the children that a kind needs.
-/

namespace SourceScribe.Script

/-- An identifier; messages say what it is. -/
def identifier (what value : String) : Script :=
  if value.isEmpty then fail (.empty what)
  else if Text.Name.isIdentifier value then [.text value]
  else fail (.notIdentifier what value)

/-- A type name. -/
def typeName (value : String) : Script :=
  if Text.Name.isTypeName value then [.text value] else fail (.notType value)

/-- The name of a package. -/
def packageName (value : String) : Script :=
  if Text.Name.isDotted value then [.text value] else fail (.notPackage value)

/-- A name, possibly behind its package and a colon. -/
def qualified (package : Option String) (name : String) : Script :=
  (match package with
    | some p => identifier "package name" p ++ [.text ":"]
    | none => []) ++ identifier "name" name

/-- A type and a name. -/
def typed (type what name : String) : Script :=
  typeName type ++ [.text " "] ++ identifier what name

/-- The only child. -/
def one (s : Setting) (expected : String) (next : NodeId → Script) : Script :=
  match s.children with
  | [child] => next child
  | children => fail (.childCount expected children.length)

/-- The only two children. -/
def two (s : Setting) (expected : String) (next : NodeId → NodeId → Script) : Script :=
  match s.children with
  | [first, second] => next first second
  | children => fail (.childCount expected children.length)

/-- The first child and the others. -/
def firstOf (s : Setting) (what : String) (next : NodeId → List NodeId → Script) : Script :=
  match s.children with
  | first :: rest => next first rest
  | [] => fail (.missing what)

/-- No children. -/
def childless (s : Setting) : Script := demand s.children.isEmpty .takesNoChildren

/-- All children, with the configured separator between them. -/
def arguments (s : Setting) : Script :=
  [.group (.separated s.options.argumentSeparator) s.children]

/-- The only child, which the node cannot do without. -/
def operand (s : Setting) (expected slot : String) : Script :=
  one s expected fun child => [.required slot child]

end SourceScribe.Script
