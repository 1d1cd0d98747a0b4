import Mathlib.Data.List.TakeWhile
import SourceScribe.Document.Basic
import SourceScribe.Text.Name
import SourceScribe.Text.Quoted

/-!
# Reading expressions

A reader for printed expressions: variables, string literals, invocations, arrays,
parentheses, operators between and in front of operands, fields and indices. It goes from
left to right and looks ahead no further than to the end of a name. What it reads depends
on the text only, so a text that it reads in one way is the text of one tree.
-/

namespace SourceScribe

/-- With enough fuel a reader brings a result. -/
def Reads {α : Type} (read : Nat → Option α) (a : α) : Prop := ∃ n, ∀ m, n ≤ m → read m = some a

namespace Reads

variable {α β γ : Type} {read : Nat → Option α} {other : Nat → Option β} {whole : Nat → Option γ}
  {a a' : α} {b : β} {c : γ}

/-- A reader brings one result. -/
theorem unique (h : Reads read a) (h' : Reads read a') : a = a' := by
  obtain ⟨n, hn⟩ := h
  obtain ⟨n', hn'⟩ := h'
  have hboth := (hn (max n n') (Nat.le_max_left ..)).symm.trans (hn' _ (Nat.le_max_right ..))
  exact Option.some.inj hboth

/-- A reader that needs no other needs fuel for itself. -/
theorem of_succ (h : ∀ n, whole (n + 1) = some c) : Reads whole c := by
  refine ⟨1, fun m hm => ?_⟩
  obtain ⟨m, rfl⟩ := Nat.exists_eq_add_of_le' hm
  exact h m

/-- A reader that begins with another one brings a result when that one does. -/
theorem next (h : Reads read a) (hwhole : ∀ n, read n = some a → whole (n + 1) = some c) :
    Reads whole c := by
  obtain ⟨n, hn⟩ := h
  refine ⟨n + 1, fun m hm => ?_⟩
  obtain ⟨m, rfl⟩ : ∃ k, m = k + 1 := ⟨m - 1, by omega⟩
  exact hwhole m (hn m (by omega))

/-- A reader that goes on with two others brings a result when both do. -/
theorem both (h : Reads read a) (h' : Reads other b)
    (hwhole : ∀ n, read n = some a → other n = some b → whole (n + 1) = some c) :
    Reads whole c := by
  obtain ⟨n, hn⟩ := h
  obtain ⟨n', hn'⟩ := h'
  refine ⟨max n n' + 1, fun m hm => ?_⟩
  obtain ⟨m, rfl⟩ : ∃ k, m = k + 1 := ⟨m - 1, by omega⟩
  exact hwhole m (hn m (by omega)) (hn' m (by omega))

end Reads

namespace Text.Quoted

/-- An escaped character is read as the character. -/
theorem decodeBody_escape (c : Char) (text : List Char) :
    decodeBody (escape c ++ text) =
      (decodeBody text).map fun (value, rest) => (c :: value, rest) := by
  unfold escape
  split
  case h_6 c hbackslash hquote _ _ _ =>
    rw [List.singleton_append, decodeBody]
    · exact hquote
    · rintro e rest rfl rfl
      exact hbackslash rfl
  all_goals
    rw [List.cons_append, List.singleton_append, decodeBody, unescape]
    cases decodeBody text <;> rfl

/-- The literal of a text is read as the text. -/
theorem decode_encode (value w : List Char) : decode (encode value ++ w) = some (value, w) := by
  have hbody : decodeBody (value.flatMap escape ++ '"' :: w) = some (value, w) := by
    induction value with
    | nil => rfl
    | cons c value ih =>
      rw [List.flatMap_cons, List.append_assoc, decodeBody_escape, ih]
      rfl
  simpa [encode, decode] using hbody

example : encode "a\n".toList = "\"a\\n\"".toList ∧
    decode "\"a\\n\" rest".toList = some ("a\n".toList, " rest".toList) := by decide

end Text.Quoted

namespace Reader

open Text.Name

/-- A character of a callee. -/
def isCalleePart (c : Char) : Bool := isFollowing c || c == '.' || c == ':'

/-- The operator at the start of a text that stands in front of its operand, and what
follows it. -/
def unary? (text : List Char) : Option (UnaryOperator × List Char) := do
  let operator ← UnaryOperator.all.find? fun operator => operator.symbol.toList.isPrefixOf text
  return (operator, text.drop operator.symbol.toList.length)

/-- The operator between two spaces at the start of a text, and what follows it. -/
def binary? : List Char → Option (BinaryOperator × List Char)
  | ' ' :: text => do
    let operator ← BinaryOperator.all.find? fun operator =>
      operator.symbol.toList == text.takeWhile (· != ' ')
    return (operator, (text.dropWhile (· != ' ')).tail)
  | _ => none

/-- What follows a character at the start of a text. -/
def after? (c : Char) : List Char → Option (List Char)
  | [] => none
  | first :: rest => if first = c then some rest else none

@[simp]
theorem after?_cons (c : Char) (text : List Char) : after? c (c :: text) = some text := if_pos rfl

/-- A tree whose place is not known. -/
def tree (construct : Construct) (children : List TreeNode) : TreeNode :=
  .node construct children none

mutual

/-- Reads an expression. -/
def expression : Nat → List Char → Option (TreeNode × List Char)
  | 0, _ => none
  | n + 1, text => do
    let (left, rest) ← operand n text
    match binary? rest with
    | none => return (left, rest)
    | some (operator, rest) =>
      let (right, rest) ← operand n rest
      return (tree (.binaryExpression operator) [left, right], rest)

/-- Reads an expression that is no operator between two operands. -/
def operand : Nat → List Char → Option (TreeNode × List Char)
  | 0, _ => none
  | _ + 1, '"' :: text => do
    let (value, rest) ← Text.Quoted.decode ('"' :: text)
    return (tree (.basicLiteralExpression .string (String.ofList value)) [], rest)
  | n + 1, '[' :: text => do
    let (inner, rest) ← items n ']' text
    return (tree .arrayInitExpression inner, rest)
  | n + 1, '(' :: text => do
    let (inner, rest) ← expression n text
    suffixes n (tree .parenthesizedExpression [inner]) (← after? ')' rest)
  | n + 1, text =>
    match unary? text with
    | some (operator, rest) => do
      let (inner, rest) ← operand n rest
      return (tree (.unaryExpression operator) [inner], rest)
    | none => named n text

/-- Reads an invocation or a variable. -/
def named : Nat → List Char → Option (TreeNode × List Char)
  | 0, _ => none
  | n + 1, text =>
    match text.dropWhile isCalleePart with
    | '(' :: rest => do
      let (inner, rest) ← items n ')' rest
      let callee := String.ofList (text.takeWhile isCalleePart ++ ['('])
      suffixes n (tree (.functionInvocationExpression callee) inner) rest
    | _ =>
      let name := String.ofList (text.takeWhile isFollowing)
      suffixes n (tree (.variableReferenceExpression none name) []) (text.dropWhile isFollowing)

/-- Reads fields and indices of a base. -/
def suffixes : Nat → TreeNode → List Char → Option (TreeNode × List Char)
  | 0, _, _ => none
  | n + 1, base, '.' :: text =>
    let field := String.ofList (text.takeWhile isFollowing)
    suffixes n (tree (.fieldAccessExpression field) [base]) (text.dropWhile isFollowing)
  | n + 1, base, '[' :: text => do
    let (index, rest) ← expression n text
    suffixes n (tree .indexAccessExpression [base, index]) (← after? ']' rest)
  | _ + 1, base, text => some (base, text)

/-- Reads items up to the closing bracket. -/
def items : Nat → Char → List Char → Option (List TreeNode × List Char)
  | 0, _, _ => none
  | n + 1, closer, text =>
    match after? closer text with
    | some rest => some ([], rest)
    | none => listed n closer text

/-- Reads items, of which there is at least one, up to the closing bracket. -/
def listed : Nat → Char → List Char → Option (List TreeNode × List Char)
  | 0, _, _ => none
  | n + 1, closer, text => do
    let (first, rest) ← expression n text
    match after? closer rest with
    | some rest => return ([first], rest)
    | none =>
      let (others, rest) ← listed n closer (← after? ' ' (← after? ',' rest))
      return (first :: others, rest)

end

/-- A name ends in front of a text. -/
theorem span_name {part : Char → Bool} {name w : List Char} (hname : ∀ c ∈ name, part c = true)
    (hw : ∀ c ∈ w.head?, part c = false) :
    (name ++ w).takeWhile part = name ∧ (name ++ w).dropWhile part = w := by
  have hnone : w.takeWhile part = [] ∧ w.dropWhile part = w := by
    cases w with
    | nil => exact ⟨rfl, rfl⟩
    | cons c w => simp [hw c rfl]
  rw [List.takeWhile_append_of_pos hname, List.dropWhile_append_of_pos hname, hnone.1, hnone.2,
    List.append_nil]
  exact ⟨rfl, rfl⟩

/-- A text in front of which a name ends that is no callee. -/
structure Quiet (w : List Char) : Prop where
  /-- The name does not go on. -/
  ends : ∀ c ∈ w.head?, isFollowing c = false
  /-- No parenthesis opens behind what a callee could go on with. -/
  free : (w.dropWhile isCalleePart).head? ≠ some '('

/-- A text that may stand behind an operand: it is empty or begins with a space, a comma
or a closing bracket. -/
def Ends (w : List Char) : Prop := ∀ c ∈ w.head?, c = ' ' ∨ c = ',' ∨ c = ')' ∨ c = ']'

/-- A text that may stand behind an expression: it is empty or begins with a comma or a
closing bracket. -/
def Closes (w : List Char) : Prop := ∀ c ∈ w.head?, c = ',' ∨ c = ')' ∨ c = ']'

variable {w : List Char} {base inner : TreeNode} {r : TreeNode × List Char}

theorem Closes.ends (h : Closes w) : Ends w := fun c hc => .inr (h c hc)

/-- No operator comes in front of what may stand behind an expression. -/
theorem Closes.binary?_eq_none (h : Closes w) : binary? w = none := by
  cases w with
  | nil => rfl
  | cons c w => rcases h c rfl with rfl | rfl | rfl <;> rfl

/-- Behind an operand no name goes on. -/
theorem Ends.quiet (h : Ends w) : Quiet w := by
  cases w with
  | nil => exact ⟨by simp, by simp⟩
  | cons c w =>
    refine ⟨?_, ?_⟩
    · rintro _ ⟨⟩
      rcases h c rfl with rfl | rfl | rfl | rfl <;> decide
    · have hpart : isCalleePart c = false := by
        rcases h c rfl with rfl | rfl | rfl | rfl <;> decide
      rw [List.dropWhile_cons_of_neg (by simp [hpart])]
      rintro ⟨⟩
      simpa using h '(' rfl

/-- Fields are no callees. -/
theorem Quiet.field (h : Quiet w) {field : List Char} (hfield : ∀ c ∈ field, isFollowing c = true) :
    Quiet ('.' :: (field ++ w)) where
  ends := by
    rintro _ ⟨⟩
    decide
  free := by
    have hparts : ∀ c ∈ '.' :: field, isCalleePart c = true := by
      intro c hc
      rcases List.mem_cons.mp hc with rfl | hc
      · decide
      · simp [isCalleePart, hfield c hc]
    rw [← List.cons_append, List.dropWhile_append_of_pos hparts]
    exact h.free

/-- Indices are no callees. -/
theorem quiet_index (w : List Char) : Quiet ('[' :: w) where
  ends := by
    rintro _ ⟨⟩
    decide
  free := by
    rw [List.dropWhile_cons_of_neg (by decide)]
    simp

/-- Nothing is read behind a base when an operand ends there. -/
theorem suffixes_stop (h : Ends w) : Reads (suffixes · base w) (base, w) := by
  refine Reads.of_succ fun n => ?_
  cases w with
  | nil => rfl
  | cons c w => rcases h c rfl with rfl | rfl | rfl | rfl <;> rfl

/-- A field is read, and then what follows it. -/
theorem suffixes_field {field : String} (hfield : ∀ c ∈ field.toList, isFollowing c = true)
    (hw : Quiet w)
    (h : Reads (suffixes · (tree (.fieldAccessExpression field) [base]) w) r) :
    Reads (suffixes · base ('.' :: (field.toList ++ w))) r := by
  obtain ⟨htake, hdrop⟩ := span_name hfield hw.ends
  refine h.next fun n hn => ?_
  simpa only [suffixes, htake, hdrop, String.ofList_toList] using hn

/-- An index is read, and then what follows it. -/
theorem suffixes_index {index : TreeNode} {text : List Char}
    (hindex : Reads (expression · text) (index, ']' :: w))
    (h : Reads (suffixes · (tree .indexAccessExpression [base, index]) w) r) :
    Reads (suffixes · base ('[' :: text)) r := by
  refine hindex.both h fun n hi hn => ?_
  simpa only [suffixes, hi, Option.bind_eq_bind, Option.bind_some, after?_cons] using hn

/-- A character of a callee is none of the others. -/
theorem ne_of_isCalleePart {c d : Char} (hc : isCalleePart c = true)
    (hd : isCalleePart d = false) : c ≠ d := by
  rintro rfl
  rw [hc] at hd
  cases hd

/-- No operator begins like a name. -/
theorem unary?_of_isCalleePart {c : Char} (h : isCalleePart c = true) (text : List Char) :
    unary? (c :: text) = none := by
  have hsymbols : UnaryOperator.all.all (fun operator =>
      match operator.symbol.toList with
      | first :: _ => !isCalleePart first
      | [] => false) = true := by decide
  have hfind : (UnaryOperator.all.find? fun operator =>
      operator.symbol.toList.isPrefixOf (c :: text)) = none := by
    rw [List.find?_eq_none]
    intro operator hmem hprefix
    have hfirst := List.all_eq_true.mp hsymbols operator hmem
    cases hs : operator.symbol.toList with
    | nil => simp [hs] at hfirst
    | cons first rest =>
      rw [hs, List.isPrefixOf_cons_cons, Bool.and_eq_true, beq_iff_eq] at hprefix
      simp [hs, hprefix.1, h] at hfirst
  simp only [unary?, hfind, Option.bind_eq_bind, Option.bind_none]

/-- Operators in front of an operand are read. -/
theorem unary?_symbol (operator : UnaryOperator) (text : List Char) :
    unary? (operator.symbol.toList ++ text) = some (operator, text) := by
  cases operator <;> rfl

/-- Operators between operands are read. -/
theorem binary?_symbol (operator : BinaryOperator) (text : List Char) :
    binary? (' ' :: (operator.symbol.toList ++ ' ' :: text)) = some (operator, text) := by
  have hsymbol : ∀ c ∈ operator.symbol.toList, (c != ' ') = true := by
    cases operator <;> simp [BinaryOperator.symbol]
  have hspace : ∀ c ∈ (' ' :: text).head?, (c != ' ') = false := by simp
  obtain ⟨htake, hdrop⟩ := span_name hsymbol hspace
  have hfind : (BinaryOperator.all.find? fun other =>
      other.symbol.toList == operator.symbol.toList) = some operator := by
    cases operator <;> rfl
  simp only [binary?, htake, hdrop, hfind, Option.bind_eq_bind, Option.bind_some, List.tail_cons]
  rfl

/-- A text that begins with a name is that of an invocation or a variable. -/
theorem operand_of_named {name : List Char} (hempty : name ≠ [])
    (hname : ∀ c ∈ name, isCalleePart c = true) (h : Reads (named · (name ++ w)) r) :
    Reads (operand · (name ++ w)) r := by
  cases name with
  | nil => exact absurd rfl hempty
  | cons c text =>
    have hc := hname c List.mem_cons_self
    refine h.next fun n hn => ?_
    rw [List.cons_append] at hn ⊢
    rw [operand]
    · simp only [unary?_of_isCalleePart hc, hn]
    · rintro _ ⟨⟩
      exact ne_of_isCalleePart hc (by decide) rfl
    · rintro _ ⟨⟩
      exact ne_of_isCalleePart hc (by decide) rfl
    · rintro _ ⟨⟩
      exact ne_of_isCalleePart hc (by decide) rfl

/-- The characters of names are those of callees. -/
theorem isCalleePart_of_isFollowing {c : Char} (h : isFollowing c = true) :
    isCalleePart c = true := by simp [isCalleePart, h]

/-- A variable is read, and then what follows it. -/
theorem operand_variable {name : String} (hempty : name.toList ≠ [])
    (hname : ∀ c ∈ name.toList, isFollowing c = true) (hw : Quiet w)
    (h : Reads (suffixes · (tree (.variableReferenceExpression none name) []) w) r) :
    Reads (operand · (name.toList ++ w)) r := by
  have hcallee : ∀ c ∈ name.toList, isCalleePart c = true :=
    fun c hc => isCalleePart_of_isFollowing (hname c hc)
  have hnamed : Reads (named · (name.toList ++ w)) r := by
    obtain ⟨htake, hdrop⟩ := span_name hname hw.ends
    refine h.next fun n hn => ?_
    have hskip : (name.toList ++ w).dropWhile isCalleePart = w.dropWhile isCalleePart :=
      List.dropWhile_append_of_pos hcallee
    have hfree := hw.free
    rw [← hskip] at hfree
    rw [named]
    split
    next rest heq => simp [heq] at hfree
    next => simpa only [htake, hdrop, String.ofList_toList] using hn
  exact operand_of_named hempty hcallee hnamed

/-- An invocation is read, and then what follows it. -/
theorem operand_invocation {callee : String} {text : List Char} {inner : List TreeNode}
    (hempty : callee.toList ≠ []) (hcallee : ∀ c ∈ callee.toList, isCalleePart c = true)
    (hinner : Reads (items · ')' text) (inner, w))
    (h : Reads (suffixes · (tree (.functionInvocationExpression (callee ++ "(")) inner) w) r) :
    Reads (operand · (callee.toList ++ '(' :: text)) r := by
  have hnamed : Reads (named · (callee.toList ++ '(' :: text)) r := by
    have hopen : ∀ c ∈ ('(' :: text).head?, isCalleePart c = false := by
      rintro _ ⟨⟩
      decide
    obtain ⟨htake, hdrop⟩ := span_name hcallee hopen
    have hstored : String.ofList (callee.toList ++ ['(']) = callee ++ "(" := by
      rw [String.ofList_append, String.ofList_toList]
    refine hinner.both h fun n hi hn => ?_
    simpa only [named, hdrop, htake, hi, hstored, Option.bind_eq_bind, Option.bind_some] using hn
  exact operand_of_named hempty hcallee hnamed

/-- Parentheses are read, and then what follows them. -/
theorem operand_parenthesized {text : List Char}
    (hinner : Reads (expression · text) (inner, ')' :: w))
    (h : Reads (suffixes · (tree .parenthesizedExpression [inner]) w) r) :
    Reads (operand · ('(' :: text)) r := by
  refine hinner.both h fun n hi hn => ?_
  simpa only [operand, hi, Option.bind_eq_bind, Option.bind_some, after?_cons] using hn

/-- A string literal is read. -/
theorem operand_literal (value : String) (w : List Char) :
    Reads (operand · ((Text.Quoted.literal value).toList ++ w))
      (tree (.basicLiteralExpression .string value) [], w) := by
  refine Reads.of_succ fun n => ?_
  have hvalue := Text.Quoted.decode_encode value.toList w
  rw [Text.Quoted.literal, String.toList_ofList]
  simp only [Text.Quoted.encode, List.cons_append] at hvalue ⊢
  simp only [operand, hvalue, Option.bind_eq_bind, Option.bind_some, String.ofList_toList]
  rfl

/-- An array is read. -/
theorem operand_array {text : List Char} {inner : List TreeNode}
    (hinner : Reads (items · ']' text) (inner, w)) :
    Reads (operand · ('[' :: text)) (tree .arrayInitExpression inner, w) := by
  refine hinner.next fun n hi => ?_
  simp only [operand, hi, Option.bind_eq_bind, Option.bind_some]
  rfl

/-- An operator in front of its operand is read. -/
theorem operand_unary (operator : UnaryOperator) {text : List Char}
    (hinner : Reads (operand · text) (inner, w)) :
    Reads (operand · (operator.symbol.toList ++ text))
      (tree (.unaryExpression operator) [inner], w) := by
  refine hinner.next fun n hi => ?_
  rw [operand, unary?_symbol]
  · simp only [hi, Option.bind_eq_bind, Option.bind_some]
    rfl
  all_goals
    cases operator <;> rintro _ ⟨⟩

/-- What is no operator between two operands is read as an expression. -/
theorem expression_of_operand {text : List Char} (hw : Closes w)
    (h : Reads (operand · text) (inner, w)) : Reads (expression · text) (inner, w) := by
  refine h.next fun n hn => ?_
  simp only [expression, hn, hw.binary?_eq_none, Option.bind_eq_bind, Option.bind_some]
  rfl

/-- An operator between two operands is read. -/
theorem expression_binary (operator : BinaryOperator) {left right : TreeNode}
    {text rest : List Char}
    (hleft : Reads (operand · text) (left, ' ' :: (operator.symbol.toList ++ ' ' :: rest)))
    (hright : Reads (operand · rest) (right, w)) :
    Reads (expression · text) (tree (.binaryExpression operator) [left, right], w) := by
  refine hleft.both hright fun n hl hr => ?_
  simp only [expression, hl, hr, binary?_symbol, Option.bind_eq_bind, Option.bind_some]
  rfl

/-- No items are read in front of the closing bracket. -/
theorem items_nil (closer : Char) (w : List Char) :
    Reads (items · closer (closer :: w)) ([], w) :=
  Reads.of_succ fun n => by simp only [items, after?_cons]

/-- Items are read. -/
theorem items_of_listed {closer c : Char} {text : List Char} {r : List TreeNode × List Char}
    (hc : c ≠ closer) (h : Reads (listed · closer (c :: text)) r) :
    Reads (items · closer (c :: text)) r := by
  refine h.next fun n hn => ?_
  simpa only [items, after?, if_neg hc] using hn

/-- The last item is read. -/
theorem listed_last {closer : Char} {text : List Char}
    (h : Reads (expression · text) (inner, closer :: w)) :
    Reads (listed · closer text) ([inner], w) := by
  refine h.next fun n hn => ?_
  simp only [listed, hn, Option.bind_eq_bind, Option.bind_some, after?_cons]
  rfl

/-- An item in front of others is read. -/
theorem listed_cons {closer : Char} {text rest : List Char} {others : List TreeNode}
    (hc : closer ≠ ',') (h : Reads (expression · text) (inner, ',' :: ' ' :: rest))
    (hothers : Reads (listed · closer rest) (others, w)) :
    Reads (listed · closer text) (inner :: others, w) := by
  refine h.both hothers fun n hn ho => ?_
  have hcomma : after? closer (',' :: ' ' :: rest) = none := if_neg hc.symm
  simp only [listed, hn, ho, hcomma, Option.bind_eq_bind, Option.bind_some, after?_cons]
  rfl

end Reader

end SourceScribe
