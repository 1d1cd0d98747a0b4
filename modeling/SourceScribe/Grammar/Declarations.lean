import SourceScribe.Grammar.Sections

/-!
# Declarations and definitions

A definition writes its annotations, one a line, then its header, then its
body, or a semicolon when it is defined outside.
-/

namespace SourceScribe.Grammar

open Script

/-- Declarations and definitions of a whole file. -/
def compilationUnit : Rule := fun s => [.group .topLevel s.children]

/-- The word `package` and a dotted name. -/
def packageDeclaration : Rule := fun s =>
  match s.construct with
  | .packageDeclaration name =>
    (if Text.Name.isDotted name then texts ["package ", name] else fail (.notPackage name)) ++
      plain s.children ++ [.text ";"]
  | _ => fail .wrongConstruct

/-- The word `import`, a dotted name, and possibly a short name. -/
def importDeclaration : Rule := fun s =>
  match s.construct with
  | .importDeclaration package shortName =>
    (if Text.Name.isDotted package then texts ["import ", package]
      else fail (.notPackage package)) ++
      (match shortName with
        | some name => .text " as " :: identifier "alias" name
        | none => []) ++
      plain s.children ++ [.text ";"]
  | _ => fail .wrongConstruct

/-- An at sign, a qualified name, and attributes between braces. -/
def annotationUse : Rule := fun s =>
  match s.construct with
  | .annotationUse package name =>
    .text "@" :: qualified package name ++
      [.text " \x7b", .group (.separated ", ") s.children, .text "\x7d"]
  | _ => fail .wrongConstruct

/-- A key, a colon, and a value. -/
def annotationAttribute : Rule := fun s =>
  match s.construct with
  | .annotationAttribute key =>
    identifier "attribute key" key ++ [.text ":"] ++
      operand s "an attribute value" "attribute value"
  | _ => fail .wrongConstruct

/-- The word `service`, a protocol between angle brackets, a name, and members. -/
def serviceDefinition : Rule := fun s =>
  match s.construct with
  | .serviceDefinition protocol name =>
    sections s fun parts =>
      demand parts.parameters.isEmpty .serviceParameters ++ noReturns parts ++
        annotationLines parts.annotations ++ [.text "service<"] ++
        identifier "protocol" protocol ++ header "> " "service name" name ++
        memberBlock parts.body
  | _ => fail .wrongConstruct

/-- The word `resource`, a name, parameters, and a body. -/
def resourceDefinition : Rule := fun s =>
  match s.construct with
  | .resourceDefinition name =>
    sections s fun parts =>
      noReturns parts ++ annotationLines parts.annotations ++
        header "resource " "resource name" name ++ parameterList parts.parameters ++
        body parts.body
  | _ => fail .wrongConstruct

/-- Modifiers, the word `function`, a name, parameters, return parameters, and
a body. -/
def functionDefinition : Rule := fun s =>
  match s.construct with
  | .functionDefinition name given =>
    sections s fun parts =>
      annotationLines parts.annotations ++
        modifiers given (Modifiers.isPublic.union .isNative) ++
        header "function " "function name" name ++ parameterList parts.parameters ++
        returnList parts.returns ++ bodyUnlessNative given parts.body
  | _ => fail .wrongConstruct

/-- Modifiers, the word `connector`, a name, parameters, and members. -/
def connectorDefinition : Rule := fun s =>
  match s.construct with
  | .connectorDefinition name given =>
    sections s fun parts =>
      noReturns parts ++ annotationLines parts.annotations ++ modifiers given .isNative ++
        header "connector " "connector name" name ++ parameterList parts.parameters ++
        [.text " "] ++ memberBlock parts.body
  | _ => fail .wrongConstruct

/-- Modifiers, the word `action`, a name, parameters, return parameters, and a
body. -/
def actionDefinition : Rule := fun s =>
  match s.construct with
  | .actionDefinition name given =>
    sections s fun parts =>
      annotationLines parts.annotations ++ modifiers given .isNative ++
        header "action " "action name" name ++ parameterList parts.parameters ++
        returnList parts.returns ++ bodyUnlessNative given parts.body
  | _ => fail .wrongConstruct

/-- The word `struct`, a name, and fields between braces. -/
def structDefinition : Rule := fun s =>
  match s.construct with
  | .structDefinition name =>
    sections s fun parts =>
      demand (parts.parameters.isEmpty && parts.returns.isEmpty) .structParameters ++
        (match parts.body.find? fun child => s.tag? child != some .variableDefinition with
          | some child => fail (.notField child)
          | none => []) ++
        annotationLines parts.annotations ++ header "struct " "struct name" name ++
        block parts.body
  | _ => fail .wrongConstruct

/-- The word `const`, a type, a name, and a value. -/
def constantDefinition : Rule := fun s =>
  match s.construct with
  | .constantDefinition type name =>
    .text "const " :: typed type "constant name" name ++ [.text " = "] ++
      operand s "a constant value" "constant value" ++ [.text ";"]
  | _ => fail .wrongConstruct

/-- The word `typemapper`, a name, a parameter, a return parameter, and a body. -/
def typeMapperDefinition : Rule := fun s =>
  match s.construct with
  | .typeMapperDefinition name =>
    sections s fun parts =>
      demand (parts.parameters.length == 1 && parts.returns.length == 1) .typeMapperShape ++
        annotationLines parts.annotations ++ header "typemapper " "type mapper name" name ++
        parameterList parts.parameters ++ returnList parts.returns ++ body parts.body
  | _ => fail .wrongConstruct

/-- The word `worker`, a name, parameters, and a body. -/
def workerDeclaration : Rule := fun s =>
  match s.construct with
  | .workerDeclaration name =>
    sections s fun parts =>
      demand parts.annotations.isEmpty .annotatedWorker ++ noReturns parts ++
        header "worker " "worker name" name ++ parameterList parts.parameters ++
        body parts.body
  | _ => fail .wrongConstruct

/-- Annotations, a type, and a name. -/
def parameterDefinition : Rule := fun s =>
  match s.construct with
  | .parameterDefinition type name =>
    (s.children.flatMap fun child =>
      if s.tag? child = some .annotationUse then [.group (.followed " ") [child]]
      else fail .parameterChild) ++
      typed type "parameter name" name
  | _ => fail .wrongConstruct

/-- A type, and possibly a name. -/
def returnParameter : Rule := fun s =>
  match s.construct with
  | .returnParameter type name =>
    typeName type ++
      (match name with
        | some name => .text " " :: identifier "return parameter name" name
        | none => []) ++
      childless s
  | _ => fail .wrongConstruct

/-- A type, a name, and possibly an initial value. -/
def variableText (s : Setting) (type name : String) : Script :=
  demand (s.children.length ≤ 1) .initializers ++ typed type "variable name" name ++
    (match s.children with
      | value :: _ => [.text " = ", .required "initializer" value]
      | [] => []) ++
    [.text ";"]

/-- A variable among members. -/
def variableDefinition : Rule := fun s =>
  match s.construct with
  | .variableDefinition type name => variableText s type name
  | _ => fail .wrongConstruct

end SourceScribe.Grammar
