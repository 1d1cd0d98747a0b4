/-!
# White space and lines of text

White space is the `White_Space` property of Unicode, and a line ends at a
line feed, which takes a carriage return before it along. Both work on
character lists; the wrappers on `String` at the end are what the rest of
the library calls.
-/

namespace SourceScribe.Text

/-- The characters with the property `White_Space`. -/
def isBlank (c : Char) : Bool :=
  let n := c.toNat
  (9 ≤ n && n ≤ 13) || n == 0x20 || n == 0x85 || n == 0xA0 || n == 0x1680 ||
    (0x2000 ≤ n && n ≤ 0x200A) || n == 0x2028 || n == 0x2029 || n == 0x202F ||
    n == 0x205F || n == 0x3000

/-- Removes white space in front. -/
def dropBlanksFront (text : List Char) : List Char := text.dropWhile isBlank

/-- Removes white space at the end. -/
def dropBlanksBack (text : List Char) : List Char :=
  (text.reverse.dropWhile isBlank).reverse

/-- Removes white space on both sides. -/
def dropBlanks (text : List Char) : List Char := dropBlanksFront (dropBlanksBack text)

/-- A finished line, kept in reverse, loses the carriage return that ended it. -/
def closeLine : List Char → List Char
  | '\r' :: line => line.reverse
  | line => line.reverse

/-- Splits off lines, with the characters of the unfinished line in reverse.
An empty remainder after the last line feed is not a line. -/
def splitLines : List Char → List Char → List (List Char)
  | [], [] => []
  | line, [] => [line.reverse]
  | line, '\n' :: rest => closeLine line :: splitLines [] rest
  | line, c :: rest => splitLines (c :: line) rest

/-- The lines of a text, without their line ends. -/
def linesOf (text : List Char) : List (List Char) := splitLines [] text

/-- A text without the white space around it. -/
def trim (text : String) : String := String.ofList (dropBlanks text.toList)

end SourceScribe.Text
