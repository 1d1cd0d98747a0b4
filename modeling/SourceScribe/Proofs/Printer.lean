import SourceScribe.Document.Basic
import SourceScribe.Grammar.Statements
import SourceScribe.Proofs.Layouts
import SourceScribe.Text.Quoted

/-!
# A printer for trees

A tree whose nodes stand inside each other is printed by recursion: the layout
of a node is put together from its construct and from the layouts of its
children. Nothing is checked, nothing is remembered, and no node is looked up.
-/

namespace SourceScribe

/-- What a node needs to know of a child: its kind and its layout. -/
structure Kid where
  /-- The kind. -/
  tag : Tag
  /-- The layout. -/
  layout : Layout
deriving DecidableEq, Repr

namespace Kid

/-- The layouts of children. -/
def layouts (kids : List Kid) : List Layout := kids.map Kid.layout

/-- The layouts of children one behind the other. -/
def inline (kids : List Kid) : Layout := kids.flatMap Kid.layout

/-- The children of a kind. -/
def ofKind (tag : Tag) (kids : List Kid) : List Kid := kids.filter fun k => k.tag = tag

/-- The children that are neither annotations nor parameters nor return
parameters. -/
def bodyOf (kids : List Kid) : List Kid :=
  kids.filter fun k => k.tag ∉ [Tag.annotationUse, .parameterDefinition, .returnParameter]

/-- The layouts of members; a definition behind another member has a blank line
in front of it. -/
def spaced (blankLines : Bool) : List Kid → List Layout
  | [] => []
  | first :: rest => first.layout :: rest.map fun k =>
    if blankLines && k.tag.isNestedDefinition then .newline ++ k.layout else k.layout

/-- What stands between two declarations of a file: a line end, and a blank line
too in front of another kind and in front of a definition, but not behind a
comment. -/
def gap (blankLines : Bool) (last next : Tag) : Layout :=
  if blankLines && (next != last || next.isDefinition) && last != .commentStatement then
    .newline ++ .newline
  else .newline

/-- The declarations of a file behind one of the given kind. -/
def behind (blankLines : Bool) : Tag → List Kid → Layout
  | _, [] => []
  | last, k :: rest => gap blankLines last k.tag ++ k.layout ++ behind blankLines k.tag rest

/-- The declarations of a file. -/
def topLevel (blankLines : Bool) : List Kid → Layout
  | [] => []
  | k :: rest => k.layout ++ behind blankLines k.tag rest

end Kid

namespace Layout

/-- A name, possibly behind its package and a colon. -/
def qualified (package : Option String) (name : String) : Layout :=
  (match package with
    | some p => str p ++ str ":"
    | none => []) ++ str name

/-- A type and a name. -/
def typed (type name : String) : Layout := str type ++ str " " ++ str name

/-- Children between parentheses. -/
def parenthesized (kids : List Kid) : Layout :=
  str "(" ++ separated (str ", ") (Kid.layouts kids) ++ str ")"

/-- The annotations among the children, each on a line of its own. -/
def annotations (kids : List Kid) : Layout := rows (Kid.layouts (Kid.ofKind .annotationUse kids))

/-- The parameters among the children. -/
def parameters (kids : List Kid) : Layout := parenthesized (Kid.ofKind .parameterDefinition kids)

/-- The return parameters among the children, if there are any. -/
def returns (kids : List Kid) : Layout :=
  match Kid.ofKind .returnParameter kids with
  | [] => []
  | found => str " " ++ parenthesized found

/-- The words for modifiers. -/
def modifiers (given : Modifiers) : Layout :=
  (if given.contains .isPublic then str "public " else []) ++
    (if given.contains .isNative then str "native " else [])

/-- The children of the body between braces. -/
def body (kids : List Kid) : Layout := str " " ++ braces (Kid.layouts (Kid.bodyOf kids))

/-- The children of the body between braces, or a semicolon. -/
def bodyUnlessNative (given : Modifiers) (kids : List Kid) : Layout :=
  if given.contains .isNative then str ";" else body kids

/-- The members among the children between braces. -/
def members (o : Options) (kids : List Kid) : Layout :=
  braces (Kid.spaced o.blankLineBetweenDefinitions (Kid.bodyOf kids))

/-- A word, a name, and a space. -/
def heading (word name : String) : Layout := str word ++ str name ++ str " "

/-- Children with the configured separator between them. -/
def arguments (o : Options) (kids : List Kid) : Layout :=
  separated (str o.argumentSeparator) (Kid.layouts kids)

/-- Children with commas between them. -/
def listed (kids : List Kid) : Layout := separated (str ", ") (Kid.layouts kids)

/-- Children between braces. -/
def block (kids : List Kid) : Layout := braces (Kid.layouts kids)

/-- Clauses with spaces between them. -/
def clauses (kids : List Kid) : Layout := separated (str " ") (Kid.layouts kids)

/-- A variable with its initial value, if it has one. -/
def declared (type name : String) (kids : List Kid) : Layout :=
  typed type name ++
    (match kids with
      | value :: _ => str " = " ++ value.layout
      | [] => []) ++
    str ";"

/-- One line of a comment. -/
def commentLine (line : List Char) : Layout :=
  let kept := Text.dropBlanksBack line
  let start := Text.dropBlanksFront kept
  if ['/', '/'].isPrefixOf start then str (String.ofList start)
  else if kept.isEmpty then str "//"
  else str "// " ++ str (String.ofList kept)

/-- A comment, one line for each line of its text. -/
def comment (text : String) : Layout :=
  if text.isEmpty then str "//"
  else separated newline ((Text.linesOf text.toList).map commentLine)

/-- A literal of a type. -/
def literal (type : LiteralType) (value : String) : Layout :=
  match type with
  | .string => str (Text.Quoted.literal value)
  | .null => str "null"
  | .boolean => str value
  | .int | .float => str (Text.trim value)

/-- A word, a condition between parentheses, and statements between braces. -/
def conditional (word : String) (kids : List Kid) : Layout :=
  str word ++ str " (" ++ Kid.inline (kids.take 1) ++ str ") " ++ block (kids.drop 1)

/-- A word, and statements between braces. -/
def plainClause (word : String) (kids : List Kid) : Layout :=
  str word ++ str " " ++ block kids

/-- A word and its expression. -/
def keyword (word : String) (kids : List Kid) : Layout :=
  str word ++ str " " ++ Kid.inline kids ++ str ";"

/-- Messages, an arrow, and a worker. -/
def interaction (arrow worker : String) (kids : List Kid) : Layout :=
  listed kids ++ str " " ++ str arrow ++ str " " ++ str worker ++ str ";"

end Layout

open Layout

-- The tag has the equations of the many cases stated here, once for all proofs.
/-- The layout of a construct with the given children. -/
@[grind =]
def Construct.layout (o : Options) (kids : List Kid) : Construct → Layout
  | .compilationUnit => Kid.topLevel o.blankLineBetweenDefinitions kids
  | .packageDeclaration name => str "package " ++ str name ++ str ";"
  | .importDeclaration package shortName =>
    str "import " ++ str package ++
      (match shortName with
        | some name => str " as " ++ str name
        | none => []) ++
      str ";"
  | .annotationUse package name =>
    str "@" ++ qualified package name ++ str " \x7b" ++ listed kids ++ str "\x7d"
  | .annotationAttribute key => str key ++ str ":" ++ Kid.inline kids
  | .serviceDefinition protocol name =>
    annotations kids ++ str "service<" ++ str protocol ++ heading "> " name ++ members o kids
  | .resourceDefinition name =>
    annotations kids ++ heading "resource " name ++ parameters kids ++ body kids
  | .functionDefinition name given =>
    annotations kids ++ modifiers given ++ heading "function " name ++ parameters kids ++
      returns kids ++ bodyUnlessNative given kids
  | .connectorDefinition name given =>
    annotations kids ++ modifiers given ++ heading "connector " name ++ parameters kids ++
      str " " ++ members o kids
  | .actionDefinition name given =>
    annotations kids ++ modifiers given ++ heading "action " name ++ parameters kids ++
      returns kids ++ bodyUnlessNative given kids
  | .structDefinition name =>
    annotations kids ++ heading "struct " name ++ block (Kid.bodyOf kids)
  | .constantDefinition type name =>
    str "const " ++ typed type name ++ str " = " ++ Kid.inline kids ++ str ";"
  | .typeMapperDefinition name =>
    annotations kids ++ heading "typemapper " name ++ parameters kids ++ returns kids ++ body kids
  | .workerDeclaration name => heading "worker " name ++ parameters kids ++ body kids
  | .parameterDefinition type name =>
    (kids.flatMap fun k => k.layout ++ str " ") ++ typed type name
  | .returnParameter type name =>
    str type ++
      (match name with
        | some name => str " " ++ str name
        | none => [])
  | .variableDefinition type name => declared type name kids
  | .variableDefinitionStatement type name => declared type name kids
  | .assignmentStatement =>
    listed kids.dropLast ++ str " = " ++ Kid.inline kids.getLast?.toList ++ str ";"
  | .expressionStatement => Kid.inline kids ++ str ";"
  | .returnStatement =>
    str "return" ++ (if kids.isEmpty then [] else str " " ++ listed kids) ++ str ";"
  | .replyStatement => keyword "reply" kids
  | .throwStatement => keyword "throw" kids
  | .breakStatement => str "break" ++ str ";"
  | .abortStatement => str "abort" ++ str ";"
  | .commentStatement text => comment text
  | .workerInvocationStatement worker => interaction "->" worker kids
  | .workerReplyStatement worker => interaction "<-" worker kids
  | .blockStatement => block kids
  | .transformStatement => str "transform " ++ block kids
  | .ifElseStatement => clauses kids
  | .ifStatement => conditional "if" kids
  | .elseIfStatement => conditional "else if" kids
  | .elseStatement => plainClause "else" kids
  | .whileStatement => conditional "while" kids
  | .tryCatchStatement => clauses kids
  | .tryStatement => plainClause "try" kids
  | .catchStatement type name => str "catch (" ++ typed type name ++ str ") " ++ block kids
  | .finallyStatement => plainClause "finally" kids
  | .forkJoinStatement =>
    str "fork " ++ block (Kid.ofKind .workerDeclaration kids) ++
      ((kids.filter fun k => k.tag ≠ .workerDeclaration).flatMap fun k => str " " ++ k.layout)
  | .joinStatement condition type name =>
    str "join (" ++ str (Text.trim condition) ++ str ") (" ++ typed type name ++ str ") " ++
      block kids
  | .timeoutStatement type name =>
    str "timeout (" ++ Kid.inline (kids.take 1) ++ str ") (" ++ typed type name ++ str ") " ++
      block (kids.drop 1)
  | .transactionAbortedStatement => clauses kids
  | .transactionStatement => plainClause "transaction" kids
  | .abortedStatement => plainClause "aborted" kids
  | .committedStatement => plainClause "committed" kids
  | .functionInvocationExpression function =>
    str ((Text.Name.invocation? function).getD "") ++ arguments o kids ++ str ")"
  | .actionInvocationExpression package connector action =>
    qualified package connector ++ str "." ++ str action ++ str "(" ++ arguments o kids ++ str ")"
  | .connectorInitExpression package connector =>
    str "create " ++ qualified package connector ++ str "(" ++ arguments o kids ++ str ")"
  | .binaryExpression operator =>
    separated (str " " ++ str operator.symbol ++ str " ") (Kid.layouts kids)
  | .unaryExpression operator => str operator.symbol ++ Kid.inline kids
  | .parenthesizedExpression => str "(" ++ Kid.inline kids ++ str ")"
  | .basicLiteralExpression type value => literal type value
  | .variableReferenceExpression package name => qualified package name
  | .fieldAccessExpression field => Kid.inline kids ++ str "." ++ str field
  | .indexAccessExpression => separated (str "[") (Kid.layouts kids) ++ str "]"
  | .typeCastExpression target => str "(" ++ str target ++ str ")" ++ Kid.inline kids
  | .typeConversionExpression target => str "<" ++ str target ++ str ">" ++ Kid.inline kids
  | .arrayInitExpression => str "[" ++ arguments o kids ++ str "]"
  | .mapInitExpression => str "\x7b" ++ arguments o kids ++ str "\x7d"
  | .keyValueExpression => separated (str ":") (Kid.layouts kids)
  | .backQuoteExpression template => str "`" ++ str template ++ str "`"

namespace TreeNode

/-- The kind of a tree. -/
def tag : TreeNode → Tag
  | .node construct _ _ => construct.tag

mutual

/-- The layout of a tree. -/
def layout (o : Options) : TreeNode → Layout
  | .node construct children _ => construct.layout o (kids o children)

/-- What a node needs to know of the trees inside it. -/
def kids (o : Options) : List TreeNode → List Kid
  | [] => []
  | t :: rest => ⟨t.tag, t.layout o⟩ :: kids o rest

end

mutual

/-- The number of nodes on the longest way from the root of a tree to a leaf. -/
def height : TreeNode → Nat
  | .node _ children _ => heights children + 1

/-- The greatest height of trees. -/
def heights : List TreeNode → Nat
  | [] => 0
  | t :: rest => max t.height (heights rest)

end

/-- The text of a tree. -/
def source (o : Options) (t : TreeNode) : String := (t.layout o).source o.indent

end TreeNode

/-- The tree at a node, if it is no higher than the given number. -/
def Ast.treeAt (ast : Ast) : Nat → NodeId → Option TreeNode
  | 0, _ => none
  | height + 1, id => do
    let node ← ast.node? id
    return .node node.construct (← node.children.mapM (ast.treeAt height)) node.position

end SourceScribe
