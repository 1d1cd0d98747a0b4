/-!
# Names of the generated language

Four shapes of names are checked before they are printed: identifiers,
dotted names, type names, and the head of an invocation. Letters and digits
are those of ASCII.

An identifier is a letter or underscore followed by letters, digits and
underscores. A dotted name is identifiers joined by single dots. A type name
is an identifier, possibly behind a package identifier and a colon, possibly
followed by one constraint between angle brackets, and then by any number of
bracket pairs. The head of an invocation is a callee, which is a dotted name
possibly behind a package identifier and a colon, followed by an opening
parenthesis; its closed form has the closing parenthesis too.
-/

namespace SourceScribe.Text.Name

/-- A letter of ASCII or the underscore. -/
def isFirst (c : Char) : Bool := c.isAlpha || c == '_'

/-- A letter or digit of ASCII or the underscore. -/
def isFollowing (c : Char) : Bool := c.isAlphanum || c == '_'

/-- Whether the characters are an identifier. -/
def identifier : List Char → Bool
  | [] => false
  | c :: rest => isFirst c && rest.all isFollowing

/-- Whether the characters are identifiers joined by single dots. -/
def dotted (text : List Char) : Bool := (text.splitOn '.').all identifier

/-- What follows the longest identifier at the start, if there is one. -/
def afterIdentifier : List Char → Option (List Char)
  | [] => none
  | c :: rest => if isFirst c then some (rest.dropWhile isFollowing) else none

/-- Any number of bracket pairs and nothing else. -/
def bracketPairs : List Char → Bool
  | [] => true
  | '[' :: ']' :: rest => bracketPairs rest
  | _ => false

/-- A character that may stand inside the constraint of a type. -/
def isConstraint (c : Char) : Bool := c != '<' && c != '>'

/-- What may follow the name of a type: a constraint that is not empty, then
bracket pairs. -/
def typeTail : List Char → Bool
  | '<' :: rest =>
    match rest.takeWhile isConstraint, rest.dropWhile isConstraint with
    | _ :: _, '>' :: after => bracketPairs after
    | _, _ => false
  | rest => bracketPairs rest

/-- Whether the characters are a type name. -/
def typeName (text : List Char) : Bool :=
  match afterIdentifier text with
  | some (':' :: rest) =>
    match afterIdentifier rest with
    | some after => typeTail after
    | none => false
  | some rest => typeTail rest
  | none => false

/-- Whether the characters are a callee. -/
def callee (text : List Char) : Bool :=
  match text.splitOn ':' with
  | [name] => dotted name
  | [package, name] => identifier package && dotted name
  | _ => false

/-- The head of an invocation, from its open or its closed form. -/
def invocationHead? (text : List Char) : Option (List Char) :=
  let name := text.takeWhile (· != '(')
  let rest := text.dropWhile (· != '(')
  if (rest == ['('] || rest == ['(', ')']) && callee name then some (name ++ ['(']) else none

/-- Whether the text is an identifier. -/
def isIdentifier (text : String) : Bool := identifier text.toList

/-- Whether the text is a dotted name. -/
def isDotted (text : String) : Bool := dotted text.toList

/-- Whether the text is a type name. -/
def isTypeName (text : String) : Bool := typeName text.toList

/-- The head of the invocation that a stored fragment begins. -/
def invocation? (text : String) : Option String := (invocationHead? text.toList).map String.ofList

end SourceScribe.Text.Name
