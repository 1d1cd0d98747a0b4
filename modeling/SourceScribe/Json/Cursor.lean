import SourceScribe.Json.Error

/-!
# Reading along a text

A cursor is the rest of a text and the place where it starts. A decoder takes
a value off the front of that rest or fails, and a failure is of one of two
kinds: an error whose place is fixed, or a reason that waits for the value
around it to be closed and gets its place there.
-/

namespace SourceScribe.Json

/-- The start of a text. -/
def Position.start : Position := ⟨1, 0⟩

/-- The place a number of bytes further in the same line. -/
def Position.across (p : Position) (bytes : Nat) : Position := ⟨p.line, p.column + bytes⟩

/-- The place after a character; a line feed starts the next line. -/
def Position.after (p : Position) (c : Char) : Position :=
  if c = '\n' then ⟨p.line + 1, 0⟩ else p.across c.utf8Size

/-- The place after a number of bytes, which may end inside a character, if
the text has that many. -/
def Position.afterBytes (p : Position) : Nat → List Char → Option Position
  | 0, _ => some p
  | _, [] => none
  | bytes, c :: rest =>
    if c.utf8Size ≤ bytes then (p.after c).afterBytes (bytes - c.utf8Size) rest
    else some (p.across bytes)

/-- The place after a whole text. -/
def Position.afterAll (p : Position) (text : List Char) : Position := text.foldl .after p

/-- The rest of a text and the place where it starts. -/
structure Cursor where
  /-- What has not been read yet. -/
  rest : List Char
  /-- The place of the first character of the rest. -/
  position : Position

/-- The place one byte ahead, or the end of the text. -/
def Cursor.ahead (c : Cursor) : Position :=
  match c.rest with
  | [] => c.position
  | '\n' :: _ => ⟨c.position.line + 1, 0⟩
  | _ :: _ => c.position.across 1

/-- The white space that may stand between the parts of a text. -/
def isSpace (c : Char) : Bool := c == ' ' || c == '\n' || c == '\t' || c == '\r'

/-- The cursor after white space. -/
def skipSpace : List Char → Position → Cursor
  | c :: rest, p => if isSpace c then skipSpace rest (p.after c) else ⟨c :: rest, p⟩
  | [], p => ⟨[], p⟩

/-- The cursor at the next character that is not white space. -/
def Cursor.atToken (c : Cursor) : Cursor := skipSpace c.rest c.position

/-- The cursor after one character. -/
def Cursor.next (c : Cursor) : Cursor :=
  match c.rest with
  | [] => c
  | ch :: rest => ⟨rest, c.position.after ch⟩

/-- Why and where a decoder stops. -/
inductive Failure where
  /-- An error whose place is fixed. -/
  | final (error : Error)
  /-- A reason that gets its place when the value around it is closed. -/
  | pending (reason : Reason) (at_ : Cursor)

/-- Takes a value off the front of the rest of a text. -/
abbrev Decoder (α : Type) := StateT Cursor (Except Failure) α

namespace Decoder

/-- Fails with the place of the cursor. -/
def failHere (reason : Reason) : Decoder α :=
  fun c => .error (.final ⟨reason, some c.position⟩)

/-- Fails with the place one byte ahead of the cursor. -/
def failAhead (reason : Reason) : Decoder α :=
  fun c => .error (.final ⟨reason, some c.ahead⟩)

/-- Fails with a reason that waits for its place. -/
def reject (reason : Reason) : Decoder α := fun c => .error (.pending reason c)

/-- Takes over the outcome of a check that knows no place. -/
def ofExcept : Except Reason α → Decoder α
  | .ok a => pure a
  | .error reason => reject reason

/-- The next character that is not white space, if there is one. -/
def token? : Decoder (Option Char) := fun c =>
  let c := c.atToken
  .ok (c.rest.head?, c)

/-- The next character that is not white space; the reason says what it means
that the text ends. -/
def token (atEnd : Reason) : Decoder Char := do
  match ← token? with
  | some c => pure c
  | none => failHere atEnd

/-- The next character. -/
def peek? : Decoder (Option Char) := fun c => .ok (c.rest.head?, c)

/-- Goes over the next character. -/
def advance : Decoder Unit := fun c => .ok ((), c.next)

/-- Goes over a run of decimal digits. -/
def digits : Decoder (List Char) := fun c =>
  let run := c.rest.takeWhile Char.isDigit
  .ok (run, ⟨c.rest.dropWhile Char.isDigit, c.position.across run.length⟩)

/-- Goes over the given characters, or fails at the first that differs. -/
def word : List Char → Decoder Unit
  | [] => pure ()
  | c :: rest => do
    match ← peek? with
    | none => failHere .endInValue
    | some found => if found = c then advance; word rest else failAhead .expectedWord

end Decoder

/-- How deep values may still be nested, and a number of steps that no loop
over the text exceeds. -/
structure Limits where
  /-- The number of steps, at least one more than the length of the text. -/
  steps : Nat
  /-- The number of arrays and objects that may still be opened. -/
  depth : Nat

/-- The limits inside an array or an object. -/
def Limits.inside (l : Limits) : Limits := ⟨l.steps, l.depth - 1⟩

/-- The limits for a text in which at most 127 values are nested. -/
def Limits.ofText (text : List Char) : Limits := ⟨text.length + 1, 127⟩

/-- Reads a whole text as one value. -/
def decode (read : Limits → Decoder α) (text : String) : Except Error α :=
  let chars := text.toList
  match read (.ofText chars) ⟨chars, .start⟩ with
  | .error (.final e) => .error e
  | .error (.pending reason _) => .error ⟨reason, none⟩
  | .ok (a, c) =>
    let c := c.atToken
    match c.rest with
    | [] => .ok a
    | _ :: _ => .error ⟨.trailingCharacters, some c.ahead⟩

end SourceScribe.Json
