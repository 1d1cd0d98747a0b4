import SourceScribe.Glob.Search

/-!
# The documents of a run

A run names its documents by paths and by patterns. What holds a star, a
question mark or an opening bracket is a pattern and has to match something;
the paths that it matches take its place. Any other path stands for itself.
-/

namespace SourceScribe

/-- Why it is not known which documents a run has. -/
inductive InputError where
  /-- A pattern is not written as one. -/
  | invalidPattern (pattern : String) (error : Glob.PatternError)
  /-- A pattern matches nothing. -/
  | noMatch (pattern : String)
  /-- A directory could not be listed. -/
  | unlisted (error : Glob.ListingError)
deriving DecidableEq, Repr

/-- The wording of an error. -/
def InputError.message : InputError → String
  | .invalidPattern pattern error => "invalid pattern " ++ pattern ++ ": " ++ error.message
  | .noMatch pattern => "no input matches " ++ pattern
  | .unlisted error => error.message

namespace Inputs

/-- Whether a text is a pattern. -/
def isPattern (text : String) : Bool := text.toList.any fun c => c == '*' || c == '?' || c == '['

variable {m : Type → Type} [Monad m] [FileSystem m]

/-- The paths that a text stands for. -/
def expandOne (text : String) : ExceptT InputError m (List Path) := do
  if isPattern text then
    match Glob.Query.ofPattern text with
    | .error e => throw (.invalidPattern text e)
    | .ok query =>
      match ← (query.find (m := m)).run with
      | .error e => throw (.unlisted e)
      | .ok [] => throw (.noMatch text)
      | .ok paths => return paths
  else return [⟨text⟩]

/-- The paths that some texts stand for, in order. -/
def expand (texts : List String) : ExceptT InputError m (List Path) := do
  return (← texts.mapM expandOne).flatten

end Inputs

end SourceScribe
