import SourceScribe.Construct.Basic

/-!
# Constructs in documents

A construct is written as an object whose member `type` names its kind and
whose other members are its fragments; texts that are absent and empty sets
of flags are left out. It is read from such an object with its members in any
order, unknown ones ignored, or from an array that starts with the name of
the kind and goes on with the fragments in declared order.
-/

namespace SourceScribe

open Json (Reason Value)

namespace Fragment

/-- The member that writes a fragment, if it is not left out. -/
def toMember (name : String) : Fragment → List (String × Value)
  | .text s => [(name, .string s)]
  | .optionalText s => Json.optionalMember name .string s
  | .modifiers m => if m = .empty then [] else [(name, .string m.text)]
  | .binary op => [(name, .string op.symbol)]
  | .unary op => [(name, .string op.symbol)]
  | .literal t => [(name, .string t.name)]

end Fragment

namespace FragmentType

/-- Reads a fragment of the given type. -/
def read : FragmentType → Value → Except Reason Fragment
  | .text, v => .text <$> v.toText "a string"
  | .optionalText, v => .optionalText <$> v.toNullable (·.toText "a string")
  | .modifiers, v => do
    return .modifiers (← Modifiers.ofText (← v.toText "a string value of `|` separated flags"))
  | .binary, v => .binary <$> v.toChoice (BinaryOperator.all.map fun op => (op.symbol, op))
  | .unary, v => .unary <$> v.toChoice (UnaryOperator.all.map fun op => (op.symbol, op))
  | .literal, v => .literal <$> v.toChoice (LiteralType.all.map fun t => (t.name, t))

/-- The fragment that stands for one that is left out, if it may be. -/
def absent? : FragmentType → Option Fragment
  | .optionalText => some (.optionalText none)
  | .modifiers => some (.modifiers .empty)
  | _ => none

end FragmentType

namespace Construct

/-- A construct as an object. -/
def toValue (c : Construct) : Value :=
  let members := (c.tag.fragments.zip c.fragments).flatMap fun (field, fragment) =>
    fragment.toMember field.1
  .object (("type", .string c.tag.name) :: members)

/-- What stands beside the name of the kind: members, or items in order. -/
inductive Content where
  /-- The members of an object. -/
  | members (members : List (String × Value))
  /-- The items of an array. -/
  | items (items : List Value)

/-- Reads the fragments among members, each once. -/
def readMembers (fields : List (String × FragmentType)) :
    List (String × Fragment) → List (String × Value) → Except Reason (List (String × Fragment))
  | read, [] => .ok read
  | read, (name, v) :: rest =>
    match fields.lookup name with
    | none => readMembers fields read rest
    | some type =>
      if (read.lookup name).isSome then .error (.repeatedMember name)
      else do readMembers fields ((name, ← type.read v) :: read) rest

/-- The fragments in declared order; those that are left out stand for what
they stand for. -/
def arrange (read : List (String × Fragment)) :
    List (String × FragmentType) → Except Reason (List Fragment)
  | [] => .ok []
  | (name, type) :: rest => do
    let fragment ← Json.required name ((read.lookup name).or type.absent?)
    return fragment :: (← arrange read rest)

/-- Reads the fragments from items in declared order; a fragment that may be
left out counts as read when the items have ended. The reason names the length
that is expected. -/
def readItems (expected : String) :
    Nat → List (String × FragmentType) → List Value → Except Reason (List Fragment)
  | _, [], [] => .ok []
  | count, [], v :: more =>
    .error (.wrongLength (count + (v :: more).length)
      (Json.counted count "element in sequence" "elements in sequence"))
  | count, (_, type) :: rest, v :: more => do
    return (← type.read v) :: (← readItems expected (count + 1) rest more)
  | count, (_, type) :: rest, [] =>
    match type.absent? with
    | some fragment => return fragment :: (← readItems expected (count + 1) rest [])
    | none => .error (.wrongLength count expected)

/-- The construct of a kind with what stands beside its name. -/
def ofContent (tag : Tag) (content : Content) : Except Reason Construct := do
  let fields := tag.fragments
  let fragments ← match content with
    | .members members => arrange (← readMembers fields [] members) fields
    | .items items =>
      let expected := "struct variant NodeKind::" ++ tag.name ++ " with " ++
        Json.counted fields.length "element" "elements"
      readItems expected 0 fields items
  Json.required "type" (ofFragments? tag fragments)

/-- The kind of a name. -/
def readTag (name : String) : Except Reason Tag :=
  Value.chosen (Tag.all.map fun t => (t.name, t)) name

/-- How messages name what a construct is written as. -/
def expected : String := "internally tagged enum NodeKind"

/-- How messages name what the name of a kind is written as. -/
def expectedTag : String := "variant identifier"

/-- Takes the name of the kind from among the members; the ones in front of it
and behind it stay in order. -/
def splitTag : List (String × Value) → Except Reason (Option Tag × List (String × Value))
  | [] => .ok (none, [])
  | (name, v) :: rest =>
    if name = "type" then do
      let tag ← readTag (← v.toText expectedTag)
      match ← splitTag rest with
      | (none, members) => .ok (some tag, members)
      | (some _, _) => .error (.repeatedMember "type")
    else do
      let (tag, members) ← splitTag rest
      return (tag, (name, v) :: members)

/-- Reads a construct from a value. -/
def ofValue : Value → Except Reason Construct
  | .object members => do
    let (tag, members) ← splitTag members
    ofContent (← Json.required "type" tag) (.members members)
  | .array [] => .error (.missingMember "type")
  | .array (v :: items) => do
    ofContent (← readTag (← v.toText expectedTag)) (.items items)
  | v => v.refuse expected

open Json.Decoder

/-- Reads the name of a kind from a text. -/
def decodeTag : Json.Decoder Tag := do
  if (← token .endInValue) = '"' then
    advance
    match readTag (← stringBody) with
    | .ok tag => pure tag
    | .error reason => failHere reason
  else mismatch expectedTag

/-- Reads a member of a construct from a text: the name of the kind once, and
any value under another name. -/
def decodeMember (l : Json.Limits) (name : String) (s : Option Tag × List (String × Value)) :
    Json.Decoder (Option Tag × List (String × Value)) := do
  if name = "type" then
    if s.1.isSome then reject (.repeatedMember "type")
    else
      colon
      return (some (← decodeTag), s.2)
  else
    colon
    return (s.1, (name, ← value l) :: s.2)

/-- Reads the name of the kind and what stands beside it from a text. The name
is checked where it stands, the rest only when all of it has been read. -/
def decodeContent (l : Json.Limits) : Json.Decoder (Tag × Content) := do
  match ← token .endInValue with
  | '[' =>
    enclosed l .list do
      if ← nextItem true then
        let tag ← decodeTag
        return (tag, .items (← itemsLoop (value l.inside) l.steps false))
      else reject (.missingMember "type")
  | '\x7b' =>
    enclosed l .object do
      let (tag, members) ← membersLoop (decodeMember l.inside) l.steps true (none, [])
      return (← ofExcept (Json.required "type" tag), .members members.reverse)
  | _ => mismatch expected

/-- Reads a construct from a text. -/
def decoder (l : Json.Limits) : Json.Decoder Construct := do
  let (tag, content) ← decodeContent l
  ofExcept (ofContent tag content)

end Construct

end SourceScribe
