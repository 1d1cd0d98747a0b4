/-!
# String literals

A literal stands between double quotes. A backslash, a double quote, a line
feed, a carriage return and a tab inside it are written as a backslash and
one character; every other character stands for itself.
-/

namespace SourceScribe.Text.Quoted

/-- How one character is written inside a literal. -/
def escape : Char → List Char
  | '\\' => ['\\', '\\']
  | '"' => ['\\', '"']
  | '\n' => ['\\', 'n']
  | '\r' => ['\\', 'r']
  | '\t' => ['\\', 't']
  | c => [c]

/-- The literal of a text: its escaped characters between double quotes. -/
def encode (text : List Char) : List Char := '"' :: text.flatMap escape ++ ['"']

/-- The character that a backslash and the given character stand for. -/
def unescape : Char → Option Char
  | '\\' => some '\\'
  | '"' => some '"'
  | 'n' => some '\n'
  | 'r' => some '\r'
  | 't' => some '\t'
  | _ => none

/-- Reads the inside of a literal up to its closing quote. -/
def decodeBody : List Char → Option (List Char × List Char)
  | [] => none
  | '"' :: rest => some ([], rest)
  | '\\' :: e :: rest =>
    match unescape e, decodeBody rest with
    | some c, some (text, after) => some (c :: text, after)
    | _, _ => none
  | c :: rest => (decodeBody rest).map fun (text, after) => (c :: text, after)

/-- Reads one literal at the start of a text: its value and what follows it. -/
def decode : List Char → Option (List Char × List Char)
  | '"' :: rest => decodeBody rest
  | _ => none

/-- The string literal of a text. -/
def literal (text : String) : String := String.ofList (encode text.toList)

end SourceScribe.Text.Quoted
