import SourceScribe.Json.Scalar

/-!
# Values, arrays and objects in a text

Reading stops at the first fault in text order, whether it is a fault of the
text or of a type. A reason that was found between the brackets of an array
or an object gets its place when the reader has tried to close them: after
the closing bracket if that follows, and in front of whatever follows
otherwise. Members that nobody asks for are passed over, however deeply they
are nested.
-/

namespace SourceScribe.Json

/-- An array or an object that has been opened. -/
inductive Bracket where
  /-- An array. -/
  | list
  /-- An object. -/
  | object

/-- The reason for a text that ends inside. -/
def Bracket.endReason : Bracket → Reason
  | .list => .endInList
  | .object => .endInObject

/-- The reason for neither comma nor closing bracket. -/
def Bracket.separatorReason : Bracket → Reason
  | .list => .expectedListEnd
  | .object => .expectedObjectEnd

/-- The closing bracket. -/
def Bracket.closer : Bracket → Char
  | .list => ']'
  | .object => '\x7d'

/-- The place at which an attempt to close stops, and whether it succeeds. -/
def Bracket.close (b : Bracket) (c : Cursor) : Except Error Unit × Cursor :=
  let c := c.atToken
  match c.rest with
  | [] => (.error ⟨b.endReason, some c.position⟩, c)
  | ch :: _ =>
    if ch = b.closer then (.ok (), c.next)
    else if ch = ',' then
      match b with
      | .object => (.error ⟨.trailingComma, some c.ahead⟩, c)
      | .list =>
        let after := c.next.atToken
        let reason := if after.rest.head? = some ']' then .trailingComma else .trailingCharacters
        (.error ⟨reason, some after.ahead⟩, after)
    else (.error ⟨.trailingCharacters, some c.ahead⟩, c)

namespace Decoder

/-- Reads the inside of an array or an object and its closing bracket. -/
def closing (b : Bracket) (inside : Decoder α) : Decoder α := fun c =>
  match inside c with
  | .ok (a, after) =>
    match b.close after with
    | (.ok (), closed) => .ok (a, closed)
    | (.error e, _) => .error (.final e)
  | .error (.final e) => .error (.final e)
  | .error (.pending reason stopped) =>
    .error (.final ⟨reason, some (b.close stopped).2.position⟩)

/-- Opens a bracket, if that many may be open, and reads up to its closing one. -/
def enclosed (l : Limits) (b : Bracket) (inside : Decoder α) : Decoder α := do
  if l.depth = 0 then failAhead .recursionLimit
  else
    advance
    closing b inside

/-- Whether another item follows; after the first, a comma is taken. -/
def nextItem (first : Bool) : Decoder Bool := do
  match ← token .endInList with
  | ']' => pure false
  | ',' =>
    if first then pure true
    else
      advance
      if (← token .endInValue) = ']' then failAhead .trailingComma else pure true
  | _ => if first then pure true else failAhead .expectedListEnd

/-- The name of the next member, if another follows; after the first, a comma
is taken. -/
def nextName (first : Bool) : Decoder (Option String) := do
  let c ← token .endInObject
  if c = '\x7d' then pure none
  else if c = ',' && !first then
    advance
    match ← token .endInValue with
    | '"' => named
    | '\x7d' => failAhead .trailingComma
    | _ => failAhead .keyNotString
  else if !first then failAhead .expectedObjectEnd
  else if c = '"' then named
  else failAhead .keyNotString
where
  /-- The name at the cursor. -/
  named : Decoder (Option String) := do
    advance
    some <$> stringBody

/-- The colon between a name and its value. -/
def colon : Decoder Unit := do
  if (← token .endInObject) = ':' then advance else failAhead .expectedColon

/-- Goes over a value, and over what closes the brackets around it. The flag
says whether a value is next or what follows one. -/
def passLoop : Nat → Bool → List Bracket → Decoder Unit
  | 0, _, _ => failHere .endInValue
  | _ + 1, false, [] => pure ()
  | steps + 1, false, b :: outer => do
    let c ← token b.endReason
    if c = ',' then
      advance
      passName b
      passLoop steps true (b :: outer)
    else if c = b.closer then
      advance
      passLoop steps false outer
    else failAhead b.separatorReason
  | steps + 1, true, around => do
    match ← token .endInValue with
    | 'n' =>
      advance
      word ['u', 'l', 'l']
      passLoop steps false around
    | 't' =>
      advance
      word ['r', 'u', 'e']
      passLoop steps false around
    | 'f' =>
      advance
      word ['a', 'l', 's', 'e']
      passLoop steps false around
    | '"' =>
      advance
      passStringBody
      passLoop steps false around
    | '[' =>
      advance
      opened steps .list around
    | '\x7b' =>
      advance
      opened steps .object around
    | c =>
      if c = '-' || c.isDigit then
        passNumber
        passLoop steps false around
      else failAhead .expectedValue
where
  /-- Goes over the name of a member and its colon. -/
  passName : Bracket → Decoder Unit
    | .list => pure ()
    | .object => do
      if (← token .endInObject) = '"' then
        advance
        passStringBody
        colon
      else failAhead .keyNotString
  /-- Goes on inside a bracket that was just opened. -/
  opened (steps : Nat) (b : Bracket) (around : List Bracket) : Decoder Unit := do
    if (← token b.endReason) = b.closer then
      advance
      passLoop steps false around
    else
      passName b
      passLoop steps true (b :: around)

/-- Goes over a value, however deeply it is nested. -/
def pass (l : Limits) : Decoder Unit := passLoop (2 * l.steps) true []

/-- The items of an array up to its closing bracket. -/
def itemsLoop (item : Decoder α) : Nat → Bool → Decoder (List α)
  | 0, _ => failHere .endInList
  | steps + 1, first => do
    if ← nextItem first then
      let a ← item
      let rest ← itemsLoop item steps false
      pure (a :: rest)
    else pure []

/-- The members of an object up to its closing brace, each given to a reader
together with what the ones in front of it have left. -/
def membersLoop (member : String → σ → Decoder σ) : Nat → Bool → σ → Decoder σ
  | 0, _, _ => failHere .endInObject
  | steps + 1, first, s => do
    match ← nextName first with
    | none => pure s
    | some name => membersLoop member steps false (← member name s)

/-- The rest of a number's, string's or word's value, for values without
brackets. -/
def plainValue (c : Char) : Decoder Value := do
  match c with
  | 'n' =>
    advance
    word ['u', 'l', 'l']
    pure .null
  | 't' =>
    advance
    word ['r', 'u', 'e']
    pure (.bool true)
  | 'f' =>
    advance
    word ['a', 'l', 's', 'e']
    pure (.bool false)
  | '"' =>
    advance
    .string <$> stringBody
  | c => if c = '-' || c.isDigit then .number <$> number else failAhead .expectedValue

/-- Any value, with the number of brackets that may be opened. -/
def valueAt (steps : Nat) : Nat → Decoder Value
  | 0 => do
    match ← token .endInValue with
    | '[' | '\x7b' => failAhead .recursionLimit
    | c => plainValue c
  | depth + 1 => do
    match ← token .endInValue with
    | '[' =>
      .array <$> enclosed ⟨steps, depth + 1⟩ .list (itemsLoop (valueAt steps depth) steps true)
    | '\x7b' =>
      let member := fun name members => do
        colon
        return (name, ← valueAt steps depth) :: members
      (.object ·.reverse) <$> enclosed ⟨steps, depth + 1⟩ .object (membersLoop member steps true [])
    | c => plainValue c

/-- Any value. -/
def value (l : Limits) : Decoder Value := valueAt l.steps l.depth

/-- What stands at the cursor; of arrays and objects nothing is read. -/
def found : Decoder Found := do
  match ← token? with
  | none => failHere .expectedValue
  | some '[' => pure .array
  | some '\x7b' => pure .object
  | some c => Value.found <$> plainValue c

/-- Fails because another type is expected. -/
def mismatch (expected : String) : Decoder α := do
  failHere (.wrongType (← found) expected)

/-- A string. -/
def string : Decoder String := do
  if (← token .endInValue) = '"' then
    advance
    stringBody
  else mismatch "a string"

/-- A truth value. -/
def bool : Decoder Bool := do
  match ← token .endInValue with
  | 't' =>
    advance
    word ['r', 'u', 'e']
    pure true
  | 'f' =>
    advance
    word ['a', 'l', 's', 'e']
    pure false
  | _ => mismatch "a boolean"

end Decoder

/-- The unsigned integers of a word size, with the name that messages use. -/
structure WordSize where
  /-- The least number that is too large. -/
  bound : Nat
  /-- The name of the type. -/
  name : String

/-- Lengths, lines, columns and depths. -/
def WordSize.size : WordSize := ⟨Nat.pow 2 64, "usize"⟩

/-- Node numbers. -/
def WordSize.identity : WordSize := ⟨Nat.pow 2 32, "u32"⟩

/-- A number as one of the unsigned integers of a word size. -/
def Number.toWord (n : Number) (w : WordSize) : Except Reason Nat :=
  match n with
  | .integer i =>
    if 0 ≤ i && i < w.bound then .ok i.toNat else .error (.wrongValue (.number n) w.name)
  | .float _ => .error (.wrongType (.number n) w.name)

namespace Decoder

/-- An unsigned integer of a word size. -/
def natural (w : WordSize) : Decoder Nat := do
  let c ← token .endInValue
  if c = '-' || c.isDigit then
    match (← number).toWord w with
    | .ok n => pure n
    | .error reason => failHere reason
  else mismatch w.name

/-- A value that may be `null`. -/
def nullable (read : Decoder α) : Decoder (Option α) := do
  if (← token?) = some 'n' then
    advance
    word ['u', 'l', 'l']
    pure none
  else some <$> read

/-- An array. -/
def list (l : Limits) (item : Decoder α) : Decoder (List α) := do
  if (← token .endInValue) = '[' then enclosed l .list (itemsLoop item l.steps true)
  else mismatch "a sequence"

end Decoder

/-- The word for a number of things. -/
def counted (n : Nat) (one many : String) : String :=
  toString n ++ " " ++ if n = 1 then one else many

/-- A member of a record: its name, whether it has been read, how it is read
into what is known so far, and whether it may be missing. -/
structure Member (σ : Type) where
  /-- The name of the member. -/
  name : String
  /-- Whether the member has been read. -/
  given : σ → Bool
  /-- Reads the value of the member. -/
  read : Limits → σ → Decoder σ
  /-- Whether the member may be missing. -/
  optional : Bool

/-- A member that is kept where `get` finds it and `put` places it. -/
def Member.of (name : String) (optional : Bool) (read : Limits → Decoder α)
    (get : σ → Option α) (put : α → σ → σ) : Member σ where
  name := name
  given := fun s => (get s).isSome
  read := fun l s => return put (← read l) s
  optional := optional

namespace Decoder

/-- Reads a member of a record: a known one once, others not at all. -/
def recordMember (l : Limits) (fields : List (Member σ)) (name : String) (s : σ) : Decoder σ := do
  match fields.find? (·.name == name) with
  | some field =>
    if field.given s then reject (.repeatedMember name)
    else
      colon
      field.read l s
  | none =>
    colon
    pass l
    pure s

/-- Reads the members of a record from the items of an array, in order. -/
def recordItems (l : Limits) (expected : String) : Nat → Bool → List (Member σ) → σ → Decoder σ
  | _, _, [], s => pure s
  | index, first, field :: rest, s => do
    if ← nextItem first then
      recordItems l expected (index + 1) false rest (← field.read l s)
    else if field.optional then recordItems l expected (index + 1) first rest s
    else reject (.wrongLength index expected)

/-- A record: an object with its members in any order, or an array with their
values in declared order. -/
def record (l : Limits) (expected : String) (fields : List (Member σ)) (start : σ)
    (finish : σ → Except Reason α) : Decoder α := do
  match ← token .endInValue with
  | '[' =>
    let length := expected ++ " with " ++ counted fields.length "element" "elements"
    enclosed l .list do
      ofExcept (finish (← recordItems l.inside length 0 true fields start))
  | '\x7b' =>
    enclosed l .object do
      ofExcept (finish (← membersLoop (recordMember l.inside fields) l.steps true start))
  | _ => mismatch expected

end Decoder

/-- A member that must be there. -/
def required (name : String) : Option α → Except Reason α
  | some a => .ok a
  | none => .error (.missingMember name)

end SourceScribe.Json
