import Mathlib.Data.List.TakeWhile
import SourceScribe.Text.Blank
import SourceScribe.Text.Name
import SourceScribe.Text.Quoted

/-!
# Delimiters

Strings stand between double quotes, inside which a backslash takes the next
character along, and templates between back quotes. Outside of them round,
square and curly brackets are to be nested. A scanner that keeps the brackets
still open decides that character by character: what it accepts is nested.
Text without delimiters leaves it as it is, and so do names, type names and
string literals as a whole.
-/

namespace SourceScribe

/-- The pairs of brackets. -/
inductive Bracket where
  /-- Parentheses. -/
  | round
  /-- Brackets. -/
  | square
  /-- Braces. -/
  | curly
deriving DecidableEq, Repr

namespace Bracket

/-- The character that opens a pair. -/
def opener : Bracket → Char
  | .round => '('
  | .square => '['
  | .curly => '\x7b'

/-- The character that closes a pair. -/
def closer : Bracket → Char
  | .round => ')'
  | .square => ']'
  | .curly => '\x7d'

/-- The pair that a character opens. -/
def opened? (c : Char) : Option Bracket := [round, square, curly].find? fun b => b.opener == c

/-- The pair that a character closes. -/
def closed? (c : Char) : Option Bracket := [round, square, curly].find? fun b => b.closer == c

/-- A character that opens a pair is the opener of that pair. -/
theorem opener_of_opened? {c : Char} {b : Bracket} (h : opened? c = some b) : b.opener = c := by
  have hfound := List.find?_some h
  exact beq_iff_eq.mp hfound

/-- A character that closes a pair is the closer of that pair. -/
theorem closer_of_closed? {c : Char} {b : Bracket} (h : closed? c = some b) : b.closer = c := by
  have hfound := List.find?_some h
  exact beq_iff_eq.mp hfound

/-- Words in which every bracket that opens is closed by its own kind, behind a word of
that sort. -/
inductive Nested : List Char → Prop
  | nil : Nested []
  | pair (b : Bracket) {inner rest : List Char} :
    Nested inner → Nested rest → Nested (b.opener :: inner ++ b.closer :: rest)

end Bracket

/-- What a character of a text belongs to. -/
inductive Region where
  /-- Neither a string nor a template. -/
  | code
  /-- A string. -/
  | string
  /-- A string, behind a backslash. -/
  | escape
  /-- A template. -/
  | template
deriving DecidableEq, Repr

/-- The region behind a character. -/
def Region.behind (c : Char) : Region → Region
  | .code => if c = '"' then .string else if c = '\x60' then .template else .code
  | .string => if c = '\\' then .escape else if c = '"' then .code else .string
  | .escape => .string
  | .template => if c = '\x60' then .code else .template

/-- Whether a character is a bracket. -/
def isBracket (c : Char) : Bool := (Bracket.opened? c).isSome || (Bracket.closed? c).isSome

/-- The brackets of a text that stand outside strings and templates, if the text ends
outside them. -/
def bracketsFrom : Region → List Char → Option (List Char)
  | region, [] => if region = .code then some [] else none
  | region, c :: rest =>
    if region = .code && isBracket c then (bracketsFrom .code rest).map (c :: ·)
    else bracketsFrom (region.behind c) rest

/-- Every string and every template of the text is closed, and the brackets that remain
are nested. -/
def WellNested (text : String) : Prop :=
  ∃ word, bracketsFrom .code text.toList = some word ∧ Bracket.Nested word

/-- A scanner: where it stands, and the brackets that are open, the last one first. -/
structure Scanner where
  /-- What the next character belongs to. -/
  region : Region
  /-- The open brackets. -/
  opened : List Bracket
deriving DecidableEq, Repr

namespace Scanner

/-- Takes a character; a bracket must not close another pair than the last one that is
open. -/
def step (s : Scanner) (c : Char) : Option Scanner :=
  if s.region = .code then
    match Bracket.opened? c, Bracket.closed? c with
    | some b, _ => some ⟨.code, b :: s.opened⟩
    | none, some b => if s.opened.head? = some b then some ⟨.code, s.opened.tail⟩ else none
    | none, none => some ⟨s.region.behind c, s.opened⟩
  else some ⟨s.region.behind c, s.opened⟩

/-- Takes characters. -/
def run (s : Scanner) : List Char → Option Scanner
  | [] => some s
  | c :: rest => (s.step c).bind fun s' => s'.run rest

/-- Characters are taken one after the other. -/
theorem run_append (s : Scanner) (front back : List Char) :
    s.run (front ++ back) = (s.run front).bind fun s' => s'.run back := by
  induction front generalizing s with
  | nil => rfl
  | cons c front ih =>
    rw [List.cons_append, run, run]
    cases s.step c with
    | none => rfl
    | some s' => exact ih s'

/-- Behind a nested word each of the open brackets is closed in turn, with nested words
in between. -/
def Closes : List Bracket → List Char → Prop
  | [], word => Bracket.Nested word
  | b :: opened, word =>
    ∃ inner rest, word = inner ++ b.closer :: rest ∧ Bracket.Nested inner ∧ Closes opened rest

/-- A pair in front does not change what a word closes. -/
theorem Closes.pair (b : Bracket) {opened : List Bracket} {inner rest : List Char}
    (hinner : Bracket.Nested inner) (h : Closes opened rest) :
    Closes opened (b.opener :: inner ++ b.closer :: rest) := by
  cases opened with
  | nil => exact Bracket.Nested.pair b hinner h
  | cons last opened =>
    obtain ⟨front, back, rfl, hfront, hback⟩ := h
    have hpair := Bracket.Nested.pair b hinner hfront
    exact ⟨b.opener :: inner ++ b.closer :: front, back, by simp, hpair, hback⟩

/-- Outside strings and templates a bracket is kept; every other character is left out. -/
theorem bracketsFrom_cons (region : Region) (c : Char) (text : List Char) :
    bracketsFrom region (c :: text) =
      if region = .code ∧ isBracket c = true then (bracketsFrom .code text).map (c :: ·)
      else bracketsFrom (region.behind c) text := by
  rw [bracketsFrom]
  simp only [Bool.and_eq_true, decide_eq_true_eq]

/-- What a scanner accepts closes the brackets that were open. -/
theorem closes_of_run {s : Scanner} {text : List Char} (h : s.run text = some ⟨.code, []⟩) :
    ∃ word, bracketsFrom s.region text = some word ∧ Closes s.opened word := by
  induction text generalizing s with
  | nil =>
    cases h
    exact ⟨[], rfl, .nil⟩
  | cons c text ih =>
    obtain ⟨next, hstep, hrun⟩ := Option.bind_eq_some_iff.mp h
    obtain ⟨word, hword, hcloses⟩ := ih hrun
    obtain ⟨region, opened⟩ := s
    rw [bracketsFrom_cons]
    unfold step at hstep
    split at hstep
    next hregion =>
      split at hstep
      next b hopen =>
        cases hstep
        rw [if_pos ⟨hregion, by simp [isBracket, hopen]⟩, hword]
        obtain ⟨inner, rest, rfl, hinner, hrest⟩ := hcloses
        refine ⟨_, rfl, ?_⟩
        rw [← Bracket.opener_of_opened? hopen]
        exact hrest.pair b hinner
      next b hopen hclose =>
        split at hstep
        next hlast =>
          cases hstep
          rw [if_pos ⟨hregion, by simp [isBracket, hclose]⟩, hword]
          obtain ⟨rest, rfl⟩ := List.head?_eq_some_iff.mp hlast
          refine ⟨_, rfl, ?_⟩
          rw [← Bracket.closer_of_closed? hclose]
          exact ⟨[], word, rfl, .nil, hcloses⟩
        next => cases hstep
      next hopen hclose =>
        cases hstep
        rw [if_neg (by simp [isBracket, hopen, hclose])]
        exact ⟨word, hword, hcloses⟩
    next hregion =>
      cases hstep
      rw [if_neg fun hcode => hregion hcode.1]
      exact ⟨word, hword, hcloses⟩

/-- A text that takes a scanner from the start back to the start is well nested. -/
theorem wellNested_of_run {text : String}
    (h : run ⟨.code, []⟩ text.toList = some ⟨.code, []⟩) : WellNested text :=
  closes_of_run h

end Scanner

/-- Whether a character is a bracket or a quote. -/
def isDelimiter (c : Char) : Bool := isBracket c || c == '"' || c == '\x60'

/-- No character is a bracket or a quote. -/
def Text.Plain (text : List Char) : Prop := ∀ c ∈ text, isDelimiter c = false

/-- The text leaves every scanner outside strings and templates as it is. -/
def Text.Level (text : List Char) : Prop :=
  ∀ opened, Scanner.run ⟨.code, opened⟩ text = some ⟨.code, opened⟩

/-- Whether a text is plain can be checked. -/
instance (text : List Char) : Decidable (Text.Plain text) :=
  List.decidableBAll (fun c => isDelimiter c = false) text

section Plain

variable {text front back : List Char} {opened : List Bracket}

/-- Text without characters is plain. -/
theorem Text.plain_nil : Text.Plain [] := by simp [Text.Plain]

/-- Plain texts are put one behind the other. -/
theorem Text.plain_append : Text.Plain (front ++ back) ↔ Text.Plain front ∧ Text.Plain back := by
  simp [Text.Plain, or_imp, forall_and]

/-- A part of a plain text is plain. -/
theorem Text.Plain.subset (h : Text.Plain back) (hs : front ⊆ back) : Text.Plain front :=
  fun c hc => h c (hs hc)

/-- A character that is no delimiter leaves a scanner as it is. -/
theorem step_of_not_delimiter {c : Char} (h : isDelimiter c = false) :
    Scanner.step ⟨.code, opened⟩ c = some ⟨.code, opened⟩ := by
  simp only [isDelimiter, isBracket, Bool.or_eq_false_iff, Option.isSome_eq_false_iff,
    Option.isNone_iff_eq_none, beq_eq_false_iff_ne] at h
  obtain ⟨⟨⟨hopened, hclosed⟩, hquote⟩, htemplate⟩ := h
  simp [Scanner.step, hopened, hclosed, Region.behind, hquote, htemplate]

/-- Plain text is level. -/
theorem Text.Plain.level (h : Text.Plain text) : Text.Level text := by
  intro opened
  induction text with
  | nil => rfl
  | cons c text ih =>
    rw [Scanner.run, step_of_not_delimiter (h c List.mem_cons_self)]
    exact ih fun d hd => h d (List.mem_cons_of_mem c hd)

/-- Level texts are put one behind the other. -/
theorem Text.Level.append (hf : Text.Level front) (hb : Text.Level back) :
    Text.Level (front ++ back) := by
  intro opened
  rw [Scanner.run_append, hf opened]
  exact hb opened

end Plain

section Names

open Text.Name

variable {text : List Char}

/-- The delimiters. -/
theorem mem_of_isDelimiter {c : Char} (h : isDelimiter c = true) :
    c ∈ ['(', ')', '[', ']', '\x7b', '\x7d', '"', '\x60'] := by
  simp only [isDelimiter, isBracket, Bool.or_eq_true, Option.isSome_iff_exists, beq_iff_eq] at h
  rcases h with ((⟨b, hb⟩ | ⟨b, hb⟩) | rfl) | rfl
  · rw [← Bracket.opener_of_opened? hb]
    cases b <;> simp [Bracket.opener]
  · rw [← Bracket.closer_of_closed? hb]
    cases b <;> simp [Bracket.closer]
  · simp
  · simp

/-- No character of a name is a delimiter. -/
theorem not_delimiter_of_isFollowing {c : Char} (h : isFollowing c = true) :
    isDelimiter c = false := by
  by_contra hd
  have hmem := mem_of_isDelimiter (Bool.not_eq_false _ ▸ hd)
  have hnone : ['(', ')', '[', ']', '\x7b', '\x7d', '"', '\x60'].all (!isFollowing ·) = true := by
    decide
  have hc := List.all_eq_true.mp hnone c hmem
  rw [h] at hc
  cases hc

/-- A first character of a name may also follow. -/
theorem isFollowing_of_isFirst {c : Char} (h : isFirst c = true) : isFollowing c = true := by
  simp only [isFirst, isFollowing, Char.isAlphanum, Bool.or_eq_true] at h ⊢
  rcases h with h | h
  · exact .inl (.inl h)
  · exact .inr h

/-- The characters of an identifier may follow in a name. -/
theorem isFollowing_of_identifier (h : identifier text = true) :
    ∀ c ∈ text, isFollowing c = true := by
  cases text with
  | nil => simp
  | cons first rest =>
    simp only [identifier, Bool.and_eq_true, List.all_eq_true] at h
    intro c hc
    rcases List.mem_cons.mp hc with rfl | hc
    · exact isFollowing_of_isFirst h.1
    · exact h.2 c hc

/-- Identifiers are plain. -/
theorem plain_of_identifier (h : identifier text = true) : Text.Plain text := fun c hc =>
  not_delimiter_of_isFollowing (isFollowing_of_identifier h c hc)

/-- What holds of the characters of a separator and of pieces holds of those of the pieces
with the separator between them. -/
theorem forall_mem_intercalate {P : Char → Prop} {separator : List Char}
    (hs : ∀ c ∈ separator, P c) {pieces : List (List Char)}
    (h : ∀ piece ∈ pieces, ∀ c ∈ piece, P c) : ∀ c ∈ separator.intercalate pieces, P c := by
  induction pieces with
  | nil => simp [List.intercalate]
  | cons piece pieces ih =>
    obtain ⟨hpiece, hrest⟩ := List.forall_mem_cons.mp h
    cases pieces with
    | nil => simpa [List.intercalate] using hpiece
    | cons next pieces =>
      rw [List.intercalate_cons_cons, List.forall_mem_append, List.forall_mem_append]
      exact ⟨⟨hpiece, hs⟩, ih hrest⟩

/-- What holds of a separator and of the characters of the pieces between its places holds
of the characters of the text. -/
theorem forall_mem_of_splitOn {P : Char → Prop} {separator : Char} (hs : P separator)
    (h : ∀ piece ∈ text.splitOn separator, ∀ c ∈ piece, P c) : ∀ c ∈ text, P c := by
  have htext : [separator].intercalate (text.splitOn separator) = text :=
    List.intercalate_splitOn separator
  rw [← htext]
  exact forall_mem_intercalate (List.forall_mem_singleton.mpr hs) h

/-- A dotted name has the characters of identifiers, and dots. -/
theorem forall_mem_of_dotted {P : Char → Prop} (hname : ∀ c, isFollowing c = true → P c)
    (hdot : P '.') (h : dotted text = true) : ∀ c ∈ text, P c :=
  forall_mem_of_splitOn hdot fun piece hpiece c hc =>
    hname c (isFollowing_of_identifier (List.all_eq_true.mp h piece hpiece) c hc)

/-- A callee has the characters of identifiers, dots, and colons. -/
theorem forall_mem_of_callee {P : Char → Prop} (hname : ∀ c, isFollowing c = true → P c)
    (hdot : P '.') (hcolon : P ':') (h : callee text = true) : ∀ c ∈ text, P c := by
  refine forall_mem_of_splitOn hcolon ?_
  unfold callee at h
  split at h
  next name hsplit =>
    rw [hsplit]
    exact List.forall_mem_singleton.mpr (forall_mem_of_dotted hname hdot h)
  next package name hsplit =>
    rw [hsplit]
    obtain ⟨hp, hn⟩ := Bool.and_eq_true_iff.mp h
    have hpackage : ∀ c ∈ package, P c := fun c hc => hname c (isFollowing_of_identifier hp c hc)
    exact List.forall_mem_cons.mpr
      ⟨hpackage, List.forall_mem_singleton.mpr (forall_mem_of_dotted hname hdot hn)⟩
  next => cases h

/-- Dotted names are plain. -/
theorem plain_of_dotted (h : dotted text = true) : Text.Plain text :=
  forall_mem_of_dotted (fun _ => not_delimiter_of_isFollowing) (by decide) h

/-- Callees are plain. -/
theorem plain_of_callee (h : callee text = true) : Text.Plain text :=
  forall_mem_of_callee (fun _ => not_delimiter_of_isFollowing) (by decide) (by decide) h

/-- The head of an invocation opens a parenthesis. -/
theorem run_of_invocationHead? {head : List Char} (h : invocationHead? text = some head)
    (opened : List Bracket) :
    Scanner.run ⟨.code, opened⟩ head = some ⟨.code, .round :: opened⟩ := by
  unfold invocationHead? at h
  dsimp only at h
  split at h
  next hcallee =>
    cases h
    rw [Bool.and_eq_true] at hcallee
    rw [Scanner.run_append, (plain_of_callee hcallee.2).level opened]
    rfl
  next => cases h

/-- Behind an identifier at the start of a text comes the rest. -/
theorem afterIdentifier_eq_some {rest : List Char} (h : afterIdentifier text = some rest) :
    ∃ name, text = name ++ rest ∧ ∀ c ∈ name, isFollowing c = true := by
  unfold afterIdentifier at h
  split at h
  next => cases h
  next c text =>
    split at h
    next hfirst =>
      cases h
      refine ⟨c :: text.takeWhile isFollowing, by simp, fun d hd => ?_⟩
      rcases List.mem_cons.mp hd with rfl | hd
      · exact isFollowing_of_isFirst hfirst
      · exact List.mem_takeWhile_imp hd
    next => cases h

/-- Pairs of brackets are level. -/
theorem level_of_bracketPairs (h : bracketPairs text = true) : Text.Level text := by
  fun_induction bracketPairs text with
  | case1 => exact fun _ => rfl
  | case2 rest ih =>
    intro opened
    exact ih h opened
  | case3 => cases h

/-- What stands between the angle brackets of a type name. -/
def constraintOf (type : List Char) : List Char :=
  ((type.dropWhile (· != '<')).drop 1).takeWhile (· != '>')

/-- Behind characters of names comes the constraint. -/
theorem constraintOf_append {name rest : List Char}
    (h : ∀ c ∈ name, isFollowing c = true ∨ c = ':') :
    constraintOf (name ++ rest) = constraintOf rest := by
  unfold constraintOf
  rw [List.dropWhile_append_of_pos]
  intro c hc
  rw [bne_iff_ne]
  rintro rfl
  rcases h '<' hc with h | h
  · exact absurd h (by decide)
  · exact absurd h (by decide)

/-- What follows the name of a type is level when its constraint is plain. -/
theorem level_of_typeTail (h : typeTail text = true) (hc : Text.Plain (constraintOf text)) :
    Text.Level text := by
  unfold typeTail at h
  split at h
  next rest =>
    split at h
    next first more after htake hdrop =>
      have hrest : rest = first :: more ++ '>' :: after := by
        rw [← htake, ← hdrop, List.takeWhile_append_dropWhile]
      have hinner : constraintOf ('<' :: rest) = first :: more := by
        have hno : ∀ c ∈ first :: more, (c != '>') = true := by
          intro c hc
          rw [← htake] at hc
          have hconstraint := List.mem_takeWhile_imp hc
          simp only [isConstraint, Bool.and_eq_true] at hconstraint
          exact hconstraint.2
        change (rest.takeWhile (· != '>')) = _
        rw [hrest, List.takeWhile_append_of_pos hno]
        simp
      rw [hinner] at hc
      rw [hrest]
      have hopen : Text.Plain ('<' :: (first :: more)) := by
        intro c hmem
        rcases List.mem_cons.mp hmem with rfl | hmem
        · decide
        · exact hc c hmem
      have hclose : Text.Level ('>' :: after) :=
        (show Text.Plain ['>'] by decide).level.append (level_of_bracketPairs h)
      exact hopen.level.append hclose
    next => cases h
  next => exact level_of_bracketPairs h

/-- Type names are level when their constraints are plain. -/
theorem level_of_typeName (h : typeName text = true) (hc : Text.Plain (constraintOf text)) :
    Text.Level text := by
  have hplain {name : List Char} (hname : ∀ c ∈ name, isFollowing c = true) : Text.Plain name :=
    fun c hc => not_delimiter_of_isFollowing (hname c hc)
  unfold typeName at h
  split at h
  next rest hafter =>
    obtain ⟨package, rfl, hpackage⟩ := afterIdentifier_eq_some hafter
    split at h
    next after hafter =>
      obtain ⟨name, rfl, hname⟩ := afterIdentifier_eq_some hafter
      have hfront : package ++ ':' :: (name ++ after) = (package ++ ':' :: name) ++ after := by simp
      rw [hfront, constraintOf_append] at hc
      · rw [hfront]
        refine (Text.Plain.level ?_).append (level_of_typeTail h hc)
        refine Text.plain_append.mpr ⟨hplain hpackage, ?_⟩
        intro c hmem
        rcases List.mem_cons.mp hmem with rfl | hmem
        · decide
        · exact hplain hname c hmem
      · intro c hmem
        rcases List.mem_append.mp hmem with hmem | hmem
        · exact .inl (hpackage c hmem)
        · rcases List.mem_cons.mp hmem with rfl | hmem
          · exact .inr rfl
          · exact .inl (hname c hmem)
    next => cases h
  next rest _ hafter =>
    obtain ⟨name, rfl, hname⟩ := afterIdentifier_eq_some hafter
    rw [constraintOf_append fun c hc => .inl (hname c hc)] at hc
    exact (hplain hname).level.append (level_of_typeTail h hc)
  next => cases h

end Names

section Quotes

variable {text : List Char} {opened : List Bracket}

/-- An escaped character leaves a scanner inside a string as it is. -/
theorem run_escape (c : Char) :
    Scanner.run ⟨.string, opened⟩ (Text.Quoted.escape c) = some ⟨.string, opened⟩ := by
  unfold Text.Quoted.escape
  split
  next => rfl
  next => rfl
  next => rfl
  next => rfl
  next => rfl
  next hbackslash hquote _ _ _ =>
    have hbehind : Region.behind c .string = .string := by
      rw [Region.behind, if_neg hbackslash, if_neg hquote]
    simp [Scanner.run, Scanner.step, hbehind]

/-- String literals are level. -/
theorem level_encode (text : List Char) : Text.Level (Text.Quoted.encode text) := by
  intro opened
  have hbody : Scanner.run ⟨.string, opened⟩ (text.flatMap Text.Quoted.escape) =
      some ⟨.string, opened⟩ := by
    induction text with
    | nil => rfl
    | cons c text ih =>
      rw [List.flatMap_cons, Scanner.run_append, run_escape]
      exact ih
  have hopen : Scanner.run ⟨.code, opened⟩ ['"'] = some ⟨.string, opened⟩ := rfl
  have hclose : Scanner.run ⟨.string, opened⟩ ['"'] = some ⟨.code, opened⟩ := rfl
  change Scanner.run ⟨.code, opened⟩ (['"'] ++ text.flatMap Text.Quoted.escape ++ ['"']) = _
  rw [Scanner.run_append, Scanner.run_append, hopen, Option.bind_some, hbody, Option.bind_some,
    hclose]

/-- Text without back quotes leaves a scanner inside a template as it is. -/
theorem run_template (h : '\x60' ∉ text) :
    Scanner.run ⟨.template, opened⟩ text = some ⟨.template, opened⟩ := by
  induction text with
  | nil => rfl
  | cons c text ih =>
    obtain ⟨hc, ht⟩ : '\x60' ≠ c ∧ '\x60' ∉ text := by simpa using h
    have hstep : Scanner.step ⟨.template, opened⟩ c = some ⟨.template, opened⟩ := by
      simp [Scanner.step, Region.behind, Ne.symm hc]
    rw [Scanner.run, hstep]
    exact ih ht

end Quotes

/-- A text without the white space around it is plain when the text is. -/
theorem Text.Plain.trim {text : String} (h : Text.Plain text.toList) :
    Text.Plain (Text.trim text).toList := by
  rw [Text.trim, String.toList_ofList]
  refine h.subset fun c hc => ?_
  have hback := (List.dropWhile_suffix _).subset hc
  rw [Text.dropBlanksBack, List.mem_reverse] at hback
  exact List.mem_reverse.mp ((List.dropWhile_suffix _).subset hback)

end SourceScribe
