import SourceScribe.Grammar.Fragments

/-!
# Sections of definitions

The children of a definition come in four sections, one after the other:
annotations, parameters, return parameters, and the body, which holds all
else. A child that belongs in front of its predecessor is out of order.
-/

namespace SourceScribe

/-- The children of a definition by section. -/
structure Sections where
  /-- The annotations. -/
  annotations : List NodeId := []
  /-- The parameters. -/
  parameters : List NodeId := []
  /-- The return parameters. -/
  returns : List NodeId := []
  /-- The body. -/
  body : List NodeId := []
deriving DecidableEq, Repr

namespace Sections

/-- The number of the section to which a child of a kind belongs. -/
def rank (tag : Option Tag) : Nat :=
  if tag = some .annotationUse then 0
  else if tag = some .parameterDefinition then 1
  else if tag = some .returnParameter then 2
  else 3

/-- Puts a child in front of its section. -/
def put (s : Sections) (child : NodeId) : Nat → Sections
  | 0 => { s with annotations := child :: s.annotations }
  | 1 => { s with parameters := child :: s.parameters }
  | 2 => { s with returns := child :: s.returns }
  | _ => { s with body := child :: s.body }

/-- Splits children of which none may belong in front of the given section. -/
def splitFrom (tag? : NodeId → Option Tag) : Nat → List NodeId → Except Fault Sections
  | _, [] => .ok {}
  | current, child :: rest =>
    let r := rank (tag? child)
    if r < current then .error (.outOfOrder (tag? child) child)
    else do
      let s ← splitFrom tag? r rest
      return s.put child r

/-- Splits the children of a definition. -/
def split (tag? : NodeId → Option Tag) (children : List NodeId) : Except Fault Sections :=
  splitFrom tag? 0 children

end Sections

namespace Script

/-- Goes on with the sections of a definition. -/
def sections (s : Setting) (next : Sections → Script) : Script :=
  checked (Sections.split s.tag? s.children) next

/-- Annotations, each on a line of its own. -/
def annotationLines (children : List NodeId) : Script := [.group .lines children]

/-- Parameters between parentheses. -/
def parameterList (children : List NodeId) : Script :=
  [.text "(", .group (.separated ", ") children, .text ")"]

/-- Return parameters between parentheses, if there are any. -/
def returnList (children : List NodeId) : Script :=
  if children.isEmpty then [] else .text " " :: parameterList children

/-- No return parameters. -/
def noReturns (sections : Sections) : Script := demand sections.returns.isEmpty .returnParameters

/-- The modifiers in front of a definition that takes some of them. -/
def modifiers (given allowed : Modifiers) : Script :=
  demand (allowed.contains given) (.modifiersNotAllowed (given.without allowed)) ++
    (if given.contains .isPublic then [.text "public "] else []) ++
    (if given.contains .isNative then [.text "native "] else [])

/-- The body of a definition. -/
def body (children : List NodeId) : Script := .text " " :: block children

/-- The body of a definition, or a semicolon if it is defined outside. -/
def bodyUnlessNative (given : Modifiers) (children : List NodeId) : Script :=
  if given.contains .isNative then demand children.isEmpty .nativeBody ++ [.text ";"]
  else body children

/-- A definition: its annotations, its word and its name. -/
def header (word what name : String) : Script := .text word :: identifier what name ++ [.text " "]

end Script

end SourceScribe
