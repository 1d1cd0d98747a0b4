/-!
# Patterns for names

A pattern stands for the names that it matches. A question mark stands for
any character, a star for any characters, and brackets for one character of a
set or, after an exclamation mark, for one outside of it. Two stars stand for
any number of directories and have to be all that is between two slashes. All
other characters stand for themselves.
-/

namespace SourceScribe.Glob

/-- Some of the characters between brackets. -/
inductive CharSet where
  /-- One character. -/
  | single (c : Char)
  /-- The characters from one to another, both included. -/
  | range (first last : Char)
deriving DecidableEq, Repr

/-- Whether a character is one of those. -/
def CharSet.has : CharSet → Char → Bool
  | .single a, c => a == c
  | .range first last, c => first ≤ c && c ≤ last

/-- A part of a pattern. -/
inductive Token where
  /-- The character itself. -/
  | char (c : Char)
  /-- Any character. -/
  | any
  /-- Any characters, or none. -/
  | run
  /-- Any number of directories. -/
  | directories
  /-- One character of a set. -/
  | within (set : List CharSet)
  /-- One character outside of a set. -/
  | except (set : List CharSet)
deriving DecidableEq, Repr

/-- What is wrong with a pattern. -/
inductive PatternFault where
  /-- More than two stars stand together. -/
  | wildcards
  /-- Two stars are not alone between slashes. -/
  | directories
  /-- A bracket is not closed, or nothing stands between the brackets. -/
  | range
deriving DecidableEq, Repr

/-- What is wrong with a pattern, and after how many characters. -/
structure PatternError where
  /-- The number of characters in front of the place. -/
  position : Nat
  /-- What is wrong. -/
  fault : PatternFault
deriving DecidableEq, Repr

/-- The wording of a fault. -/
def PatternFault.message : PatternFault → String
  | .wildcards => "wildcards are either regular `*` or recursive `**`"
  | .directories => "recursive wildcards must form a single path component"
  | .range => "invalid range pattern"

/-- The wording of an error. -/
def PatternError.message (e : PatternError) : String :=
  "Pattern syntax error near position " ++ toString e.position ++ ": " ++ e.fault.message

/-- The set that is written between brackets: a hyphen with a character on
either side is a range. -/
def setOf : List Char → List CharSet
  | first :: '-' :: last :: rest => .range first last :: setOf rest
  | c :: rest => .single c :: setOf rest
  | [] => []

/-- The characters up to a closing bracket that is not the first, and what
follows the bracket. -/
def untilBracket : List Char → Option (List Char × List Char)
  | [] => none
  | first :: rest =>
    match rest.span (· ≠ ']') with
    | (more, _ :: after) => some (first :: more, after)
    | (_, []) => none

/-- The set after an opening bracket, and what follows its closing bracket. -/
def bracketed : List Char → Option (Token × List Char)
  | '!' :: rest => (untilBracket rest).map fun (set, after) => (.except (setOf set), after)
  | rest => (untilBracket rest).map fun (set, after) => (.within (setOf set), after)

/-- The tokens of the rest of a pattern: the number of steps that may still be
taken, the number of characters in front of the rest, and the character in
front of it. -/
def tokensFrom : Nat → Nat → Option Char → List Char → Except PatternError (List Token)
  | 0, _, _, _ => .ok []
  | _, _, _, [] => .ok []
  | steps + 1, position, before, c :: rest =>
    match c with
    | '?' => (.any :: ·) <$> tokensFrom steps (position + 1) (some c) rest
    | '*' =>
      let stars := (c :: rest).takeWhile (· = '*')
      let after := (c :: rest).dropWhile (· = '*')
      match stars.length with
      | 1 => (.run :: ·) <$> tokensFrom steps (position + 1) (some c) after
      | 2 =>
        match before with
        | none | some '/' =>
          match after with
          | [] => .ok [.directories]
          | '/' :: after => (.directories :: ·) <$> tokensFrom steps (position + 3) (some '/') after
          | _ => .error ⟨position + 2, .directories⟩
        | some _ => .error ⟨position - 1, .directories⟩
      | _ => .error ⟨position + 2, .wildcards⟩
    | '[' =>
      match bracketed rest with
      | some (token, after) =>
        (token :: ·) <$>
          tokensFrom steps (position + 1 + (rest.length - after.length)) (some ']') after
      | none => .error ⟨position, .range⟩
    | c => (.char c :: ·) <$> tokensFrom steps (position + 1) (some c) rest

/-- The tokens of a pattern. -/
def tokens (pattern : List Char) : Except PatternError (List Token) :=
  tokensFrom (pattern.length + 1) 0 none pattern

/-- Whether a token that stands for one character stands for this one. -/
def Token.hasChar (t : Token) (c : Char) : Bool :=
  match t with
  | .char a => a == c
  | .any => true
  | .within set => set.any (·.has c)
  | .except set => !set.any (·.has c)
  | .run | .directories => false

/-- For each suffix of a list of marks, whether one of its marks is set. -/
def anyFrom : List Bool → List Bool
  | [] => []
  | b :: bs => (b || bs.any id) :: anyFrom bs

/-- For each suffix of a name, the whole name first and the empty one last,
whether tokens match it. Each row comes from the row of the tokens after the
first, so that the work grows with the product of the two lengths only. -/
def suffixMatches : List Token → List Char → List Bool
  | [], name => name.map (fun _ => false) ++ [true]
  | .run :: ts, name => anyFrom (suffixMatches ts name)
  | .directories :: ts, name => anyFrom (suffixMatches ts name)
  | t :: ts, name =>
    List.zipWith (fun c b => t.hasChar c && b) name (suffixMatches ts name).tail ++ [false]

/-- Whether tokens match a name. -/
def isMatch (ts : List Token) (name : List Char) : Bool := (suffixMatches ts name).headD false

/-- Marking the suffixes of the rest is the rest of marking the suffixes. -/
theorem tail_anyFrom (bs : List Bool) : (anyFrom bs).tail = anyFrom bs.tail := by
  cases bs <;> rfl

/-- The first mark says whether any is set. -/
theorem headD_anyFrom (bs : List Bool) : (anyFrom bs).headD false = bs.any id := by
  cases bs <;> rfl

/-- No row is empty: the empty suffix has its mark. -/
theorem suffixMatches_ne_nil (ts : List Token) (name : List Char) : suffixMatches ts name ≠ [] := by
  fun_induction suffixMatches ts name with
  | case1 => simp
  | case2 ts name ih | case3 ts name ih =>
    obtain ⟨b, bs, h⟩ := List.exists_cons_of_ne_nil ih
    simp [h, anyFrom]
  | case4 => simp

/-- Without its first character a name has one suffix less. -/
theorem tail_suffixMatches (ts : List Token) (c : Char) (name : List Char) :
    (suffixMatches ts (c :: name)).tail = suffixMatches ts name := by
  induction ts with
  | nil => simp [suffixMatches]
  | cons t ts ih =>
    obtain ⟨b, bs, h⟩ := List.exists_cons_of_ne_nil (suffixMatches_ne_nil ts name)
    cases t <;> simp [suffixMatches, tail_anyFrom, ih, h]

/-- No token is left for the empty name alone. -/
@[simp] theorem isMatch_nil (name : List Char) : isMatch [] name = name.isEmpty := by
  cases name <;> rfl

/-- The first of the suffixes is the name. -/
theorem suffixMatches_cons (ts : List Token) (c : Char) (name : List Char) :
    suffixMatches ts (c :: name) = isMatch ts (c :: name) :: suffixMatches ts name := by
  obtain ⟨b, bs, h⟩ := List.exists_cons_of_ne_nil (suffixMatches_ne_nil ts (c :: name))
  have rest := tail_suffixMatches ts c name
  rw [h] at rest
  rw [isMatch, h, ← rest]
  rfl

/-- The empty name has one suffix. -/
theorem suffixMatches_nil (ts : List Token) : suffixMatches ts [] = [isMatch ts []] := by
  induction ts with
  | nil => rfl
  | cons t ts ih =>
    generalize isMatch ts [] = b at ih
    cases t <;> simp [isMatch, suffixMatches, ih, anyFrom]

/-- Any characters are none at the end of a name. -/
@[simp] theorem isMatch_run_nil (ts : List Token) : isMatch (.run :: ts) [] = isMatch ts [] := by
  rw [isMatch, suffixMatches, headD_anyFrom, suffixMatches_nil]
  simp

/-- Any characters are none, or the first one and any others. -/
theorem isMatch_run_cons (ts : List Token) (c : Char) (name : List Char) :
    isMatch (.run :: ts) (c :: name) = (isMatch ts (c :: name) || isMatch (.run :: ts) name) := by
  simp only [isMatch, suffixMatches, headD_anyFrom]
  rw [suffixMatches_cons, List.any_cons]
  rfl

/-- A token for one character takes the first and leaves the rest to the
others. -/
theorem isMatch_cons {t : Token} (notRun : t ≠ .run) (notDirectories : t ≠ .directories)
    (ts : List Token) (c : Char) (name : List Char) :
    isMatch (t :: ts) (c :: name) = (t.hasChar c && isMatch ts name) := by
  obtain ⟨b, bs, h⟩ := List.exists_cons_of_ne_nil (suffixMatches_ne_nil ts name)
  cases t <;> simp_all [isMatch, suffixMatches, tail_suffixMatches]

/-- The characters of a pattern in which each stands for itself. -/
def literal? (ts : List Token) : Option (List Char) :=
  ts.mapM fun
    | .char c => some c
    | _ => none

/-- Whether a pattern stands for any number of directories. -/
def isDeep (ts : List Token) : Bool := ts.contains .directories

end SourceScribe.Glob
