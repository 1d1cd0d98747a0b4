import SourceScribe.Proofs.Acceptance
import SourceScribe.Proofs.Delimiters
import SourceScribe.Proofs.Reading
import SourceScribe.Proofs.Refinement

/-!
# Texts of expressions

An expression is printed on one line, so that its text is what its layout spells. The
reader takes this text and brings the expression back, without the places at which its
parts were read. What may follow is different for an operator between operands, which
must not be followed by another one, for other operands, and for the bases of fields and
indices, behind which reading goes on.
-/

namespace SourceScribe

namespace Layout

variable {l m : Layout}

/-- A layout without line ends. -/
def Flat (l : Layout) : Prop := ∀ s ∈ l, ∃ value, s = .text value

/-- The characters that a layout spells. -/
def chars (l : Layout) : List Char :=
  l.flatMap fun
    | .text value => value.toList
    | .line _ => ['\n']

@[simp]
theorem flat_nil : Flat [] := by simp [Flat]

@[simp]
theorem flat_str (value : String) : Flat (str value) := by simp [Flat, str]

@[simp]
theorem flat_append : Flat (l ++ m) ↔ Flat l ∧ Flat m := List.forall_mem_append

@[simp]
theorem chars_nil : chars [] = [] := rfl

@[simp]
theorem chars_str (value : String) : chars (str value) = value.toList := by simp [chars, str]

@[simp]
theorem chars_append (l m : Layout) : chars (l ++ m) = chars l ++ chars m := List.flatMap_append

/-- A layout without line ends adds its characters to the last row. -/
theorem Flat.write_eq (h : Flat l) (level : Nat) (p : Page) : l.write level p =
    { p with last := { p.last with text := p.last.text ++ String.ofList l.chars } } := by
  induction l generalizing p with
  | nil => simp [write]
  | cons s l ih =>
    obtain ⟨⟨value, rfl⟩, hl⟩ := List.forall_mem_cons.mp h
    change write level l ((Stroke.text value).write level p) = _
    rw [ih hl]
    simp [Stroke.write, chars, String.ofList_append, String.append_assoc]

/-- A layout without line ends is its characters. -/
theorem Flat.source_eq (h : Flat l) (unit : String) : l.source unit = String.ofList l.chars := by
  rw [source, h.write_eq]
  by_cases hempty : String.ofList l.chars = ""
  · simp [Page.source, Page.blank, Row.source, hempty]
  · simp [Page.source, Page.blank, Row.source, hempty, indentation]

/-- Layouts without line ends stay on one line when they are put one behind the other. -/
theorem flat_separated {separator : Layout} (hs : Flat separator) {ls : List Layout}
    (h : ∀ l ∈ ls, Flat l) : Flat (separated separator ls) := by
  cases ls with
  | nil => exact flat_nil
  | cons first rest =>
    obtain ⟨hfirst, hrest⟩ := List.forall_mem_cons.mp h
    refine flat_append.mpr ⟨hfirst, fun s hsm => ?_⟩
    obtain ⟨l, hl, hsl⟩ := List.mem_flatMap.mp hsm
    exact (flat_append.mpr ⟨hs, hrest l hl⟩) s hsl

end Layout

namespace Text.Name

/-- An identifier is not empty. -/
theorem ne_nil_of_identifier {text : List Char} (h : identifier text = true) : text ≠ [] := by
  rintro rfl
  cases h

/-- A callee is not empty. -/
theorem ne_nil_of_callee {text : List Char} (h : callee text = true) : text ≠ [] := by
  rintro rfl
  revert h
  decide

/-- What is stored for an invocation with an opening parenthesis at its end is a callee and
this parenthesis, and it is printed as it is. -/
theorem invocation?_of_isSome {name : String} (h : (invocation? (name ++ "(")).isSome = true) :
    invocation? (name ++ "(") = some (name ++ "(") ∧ callee name.toList = true := by
  have hstored : (name ++ "(").toList = name.toList ++ ['('] := by simp
  have hwhole : (name.toList ++ ['(']).takeWhile (· != '(') ++
      (name.toList ++ ['(']).dropWhile (· != '(') = name.toList ++ ['('] :=
    List.takeWhile_append_dropWhile
  rw [invocation?, hstored, invocationHead?] at h ⊢
  split at h
  next hcond =>
    rw [if_pos hcond]
    simp only [Bool.and_eq_true, Bool.or_eq_true, beq_iff_eq] at hcond
    obtain ⟨hopen | hclosed, hcallee⟩ := hcond
    · rw [hopen] at hwhole
      rw [List.append_cancel_right hwhole] at hcallee ⊢
      exact ⟨by simp [String.ofList_append], hcallee⟩
    · rw [hclosed] at hwhole
      have hlast := congrArg List.getLast? hwhole
      simp at hlast
  next => cases h

end Text.Name

namespace Reader

/-- A text that does not begin with a closing bracket. -/
def Opens (text : List Char) : Prop := ∃ c rest, text = c :: rest ∧ c ≠ ')' ∧ c ≠ ']'

theorem Opens.append {text : List Char} (h : Opens text) (more : List Char) :
    Opens (text ++ more) := by
  obtain ⟨c, rest, rfl, hc⟩ := h
  exact ⟨c, rest ++ more, rfl, hc⟩

theorem opens_cons {c : Char} (rest : List Char) (hround : c ≠ ')') (hsquare : c ≠ ']') :
    Opens (c :: rest) := ⟨c, rest, rfl, hround, hsquare⟩

/-- A name does not begin with a closing bracket. -/
theorem opens_of_name {text : List Char} (hempty : text ≠ [])
    (h : ∀ c ∈ text, isCalleePart c = true) : Opens text := by
  cases text with
  | nil => exact absurd rfl hempty
  | cons c rest =>
    have hc := h c List.mem_cons_self
    exact opens_cons rest (ne_of_isCalleePart hc (by decide)) (ne_of_isCalleePart hc (by decide))

end Reader

namespace Tag

/-- The kinds of expressions of which a field or an item may be taken. -/
def isBase (tag : Tag) : Bool :=
  tag ∈ [variableReferenceExpression, functionInvocationExpression, parenthesizedExpression,
    fieldAccessExpression, indexAccessExpression]

end Tag

namespace TreeNode

mutual

/-- A tree without the places at which its parts were read. -/
def bare : TreeNode → TreeNode
  | .node construct children _ => .node construct (bares children) none

/-- Trees without the places at which their parts were read. -/
def bares : List TreeNode → List TreeNode
  | [] => []
  | t :: rest => t.bare :: bares rest

end

/-- Expressions of variables and string literals, in which parentheses stand around an
operator between operands that is itself an operand or a base. -/
inductive Expression : TreeNode → Prop
  /-- A variable of no named package. -/
  | reference (name : String) (position : Option SourcePosition) :
    Expression (.node (.variableReferenceExpression none name) [] position)
  /-- A string literal. -/
  | literal (value : String) (position : Option SourcePosition) :
    Expression (.node (.basicLiteralExpression .string value) [] position)
  /-- An invocation that is stored up to its opening parenthesis. -/
  | invocation (callee : String) (arguments : List TreeNode) (position : Option SourcePosition) :
    (∀ t ∈ arguments, Expression t) →
      Expression (.node (.functionInvocationExpression (callee ++ "(")) arguments position)
  /-- An array. -/
  | array (items : List TreeNode) (position : Option SourcePosition) :
    (∀ t ∈ items, Expression t) → Expression (.node .arrayInitExpression items position)
  /-- An expression between parentheses. -/
  | parenthesized (inner : TreeNode) (position : Option SourcePosition) :
    Expression inner → Expression (.node .parenthesizedExpression [inner] position)
  /-- An operator in front of an operand that is no operator between operands. -/
  | unary (operator : UnaryOperator) (operand : TreeNode) (position : Option SourcePosition) :
    Expression operand → operand.tag ≠ .binaryExpression →
      Expression (.node (.unaryExpression operator) [operand] position)
  /-- An operator between operands that are no such operators themselves. -/
  | binary (operator : BinaryOperator) (left right : TreeNode)
    (position : Option SourcePosition) :
    Expression left → left.tag ≠ .binaryExpression → Expression right →
      right.tag ≠ .binaryExpression →
      Expression (.node (.binaryExpression operator) [left, right] position)
  /-- A field of a base. -/
  | field (name : String) (base : TreeNode) (position : Option SourcePosition) :
    Expression base → base.tag.isBase = true →
      Expression (.node (.fieldAccessExpression name) [base] position)
  /-- An item of a base. -/
  | index (base index : TreeNode) (position : Option SourcePosition) :
    Expression base → base.tag.isBase = true → Expression index →
      Expression (.node .indexAccessExpression [base, index] position)

/-- What stands inside an expression is an expression. -/
theorem Expression.inside {construct : Construct} {children : List TreeNode}
    {position : Option SourcePosition} (h : (node construct children position).Expression) :
    ∀ t ∈ children, t.Expression := by
  cases h <;> simp_all

/-- Every node of the tree may be written with the children that it has. -/
inductive Accepted : TreeNode → Prop
  | node {construct : Construct} {children : List TreeNode} {position : Option SourcePosition} :
    construct.Accepts (children.map tag) → (∀ t ∈ children, Accepted t) →
      Accepted (.node construct children position)

/-- The characters of a tree. -/
def chars (o : Options) (t : TreeNode) : List Char := (t.layout o).chars

/-- The characters of items: a comma and a space stand between them. -/
def listing (o : Options) : List TreeNode → List Char
  | [] => []
  | t :: rest => t.chars o ++ rest.flatMap fun u => ',' :: ' ' :: u.chars o

/-- The layout of items without line ends spells them. -/
theorem chars_arguments {o : Options} (ho : o.argumentSeparator = ", ") (ts : List TreeNode) :
    (Layout.arguments o (kids o ts)).chars = listing o ts := by
  rw [Layout.arguments, kids_eq_map, ho]
  cases ts with
  | nil => rfl
  | cons t ts =>
    simp only [Kid.layouts, List.map_cons, List.map_map, Layout.separated, Layout.chars_append,
      listing]
    congr 1
    simp only [Layout.chars, List.flatMap_assoc, List.flatMap_map]
    rfl

section Spelling

/-! What each form of expression spells. -/

variable (o : Options) (position : Option SourcePosition)

theorem chars_variable (name : String) :
    chars o (.node (.variableReferenceExpression none name) [] position) = name.toList := by
  simp [chars, layout, Construct.layout, Layout.qualified]

theorem chars_literal (value : String) :
    chars o (.node (.basicLiteralExpression .string value) [] position) =
      (Text.Quoted.literal value).toList := by
  simp [chars, layout, Construct.layout, Layout.literal]

theorem chars_invocation {o : Options} (ho : o.argumentSeparator = ", ") {callee : String}
    (hc : Text.Name.invocation? (callee ++ "(") = some (callee ++ "("))
    (arguments : List TreeNode) :
    chars o (.node (.functionInvocationExpression (callee ++ "(")) arguments position) =
      callee.toList ++ '(' :: (listing o arguments ++ [')']) := by
  simp [chars, layout, Construct.layout, hc, chars_arguments ho]

theorem chars_array {o : Options} (ho : o.argumentSeparator = ", ") (items : List TreeNode) :
    chars o (.node .arrayInitExpression items position) = '[' :: (listing o items ++ [']']) := by
  simp [chars, layout, Construct.layout, chars_arguments ho]

theorem chars_parenthesized (inner : TreeNode) :
    chars o (.node .parenthesizedExpression [inner] position) =
      '(' :: (inner.chars o ++ [')']) := by
  simp [chars, layout, kids, Construct.layout, Kid.inline]

theorem chars_unary (operator : UnaryOperator) (operand : TreeNode) :
    chars o (.node (.unaryExpression operator) [operand] position) =
      operator.symbol.toList ++ operand.chars o := by
  simp [chars, layout, kids, Construct.layout, Kid.inline]

theorem chars_binary (operator : BinaryOperator) (left right : TreeNode) :
    chars o (.node (.binaryExpression operator) [left, right] position) =
      left.chars o ++ ' ' :: (operator.symbol.toList ++ ' ' :: right.chars o) := by
  simp [chars, layout, kids, Construct.layout, Kid.layouts, Layout.separated]

theorem chars_field (name : String) (base : TreeNode) :
    chars o (.node (.fieldAccessExpression name) [base] position) =
      base.chars o ++ '.' :: name.toList := by
  simp [chars, layout, kids, Construct.layout, Kid.inline]

theorem chars_index (base index : TreeNode) :
    chars o (.node .indexAccessExpression [base, index] position) =
      base.chars o ++ '[' :: (index.chars o ++ [']']) := by
  simp [chars, layout, kids, Construct.layout, Kid.layouts, Layout.separated]

end Spelling

/-- Expressions are printed on one line. -/
theorem Expression.flat {t : TreeNode} (h : t.Expression) (o : Options) : (t.layout o).Flat := by
  have hlisted {ts : List TreeNode} (hts : ∀ t ∈ ts, (t.layout o).Flat) :
      (Layout.arguments o (kids o ts)).Flat := by
    refine Layout.flat_separated (Layout.flat_str _) ?_
    rw [kids_eq_map, Kid.layouts, List.map_map]
    exact List.forall_mem_map.mpr hts
  induction h with
  | reference name position => simp [layout, Construct.layout, Layout.qualified]
  | literal value position => simp [layout, Construct.layout, Layout.literal]
  | invocation callee arguments position _ ih => simp [layout, Construct.layout, hlisted ih]
  | array items position _ ih => simp [layout, Construct.layout, hlisted ih]
  | parenthesized inner position _ ih => simp [layout, kids, Construct.layout, Kid.inline, ih]
  | unary operator operand position _ _ ih => simp [layout, kids, Construct.layout, Kid.inline, ih]
  | binary operator left right position _ _ _ _ ihl ihr =>
    simp [layout, kids, Construct.layout, Kid.layouts, Layout.separated, ihl, ihr]
  | field name base position _ _ ih => simp [layout, kids, Construct.layout, Kid.inline, ih]
  | index base index position _ _ _ ihb ihi =>
    simp [layout, kids, Construct.layout, Kid.layouts, Layout.separated, ihb, ihi]

/-- The reader brings an expression back from its characters, whatever follows them, as far
as it may stand behind the expression. -/
structure Readable (o : Options) (t : TreeNode) : Prop where
  /-- No closing bracket comes first. -/
  opens : Reader.Opens (t.chars o)
  /-- Behind a base fields and indices are read. -/
  base : t.tag.isBase = true → ∀ {w : List Char} {r : TreeNode × List Char}, Reader.Quiet w →
    Reads (Reader.suffixes · t.bare w) r → Reads (Reader.operand · (t.chars o ++ w)) r
  /-- An operand is read. -/
  operand : t.tag ≠ .binaryExpression → ∀ {w : List Char}, Reader.Ends w →
    Reads (Reader.operand · (t.chars o ++ w)) (t.bare, w)
  /-- An expression is read. -/
  expression : ∀ {w : List Char}, Reader.Closes w →
    Reads (Reader.expression · (t.chars o ++ w)) (t.bare, w)

namespace Readable

variable {o : Options} {t : TreeNode} {ts : List TreeNode}

/-- A base is an operand, and an operand that is no operator is an expression. -/
theorem of_base (hopens : Reader.Opens (t.chars o))
    (hbase : ∀ {w : List Char} {r : TreeNode × List Char}, Reader.Quiet w →
      Reads (Reader.suffixes · t.bare w) r → Reads (Reader.operand · (t.chars o ++ w)) r) :
    Readable o t where
  opens := hopens
  base _ := hbase
  operand _ _ hw := hbase hw.quiet (Reader.suffixes_stop hw)
  expression hw :=
    Reader.expression_of_operand hw (hbase hw.ends.quiet (Reader.suffixes_stop hw.ends))

/-- An operand that is no base is an expression. -/
theorem of_operand (hopens : Reader.Opens (t.chars o)) (hbase : t.tag.isBase = false)
    (hoperand : ∀ {w : List Char}, Reader.Ends w →
      Reads (Reader.operand · (t.chars o ++ w)) (t.bare, w)) : Readable o t where
  opens := hopens
  base h := by simp [hbase] at h
  operand _ _ hw := hoperand hw
  expression hw := Reader.expression_of_operand hw (hoperand hw.ends)

/-- Items are read up to the closing bracket, if there is at least one. -/
theorem listed {closer : Char} (hc : closer = ')' ∨ closer = ']') (ht : Readable o t)
    (hts : ∀ t ∈ ts, Readable o t) (w : List Char) :
    Reads (Reader.listed · closer (listing o (t :: ts) ++ closer :: w)) (bares (t :: ts), w) := by
  have hcloses : Reader.Closes (closer :: w) := by
    rintro _ ⟨⟩
    exact .inr hc
  induction ts generalizing t with
  | nil =>
    have hchars : listing o [t] ++ closer :: w = t.chars o ++ closer :: w := by simp [listing]
    rw [hchars]
    exact Reader.listed_last (ht.expression hcloses)
  | cons u ts ih =>
    obtain ⟨hu, hrest⟩ := List.forall_mem_cons.mp hts
    have hchars : listing o (t :: u :: ts) ++ closer :: w =
        t.chars o ++ ',' :: ' ' :: (listing o (u :: ts) ++ closer :: w) := by
      simp [listing]
    have hcomma : Reader.Closes (',' :: ' ' :: (listing o (u :: ts) ++ closer :: w)) := by
      rintro _ ⟨⟩
      exact .inl rfl
    rw [hchars]
    refine Reader.listed_cons ?_ (ht.expression hcomma) (ih hu hrest)
    rcases hc with rfl | rfl <;> decide

/-- Items are read up to the closing bracket. -/
theorem items {closer : Char} (hc : closer = ')' ∨ closer = ']') (hts : ∀ t ∈ ts, Readable o t)
    (w : List Char) :
    Reads (Reader.items · closer (listing o ts ++ closer :: w)) (bares ts, w) := by
  cases ts with
  | nil => exact Reader.items_nil closer w
  | cons t ts =>
    obtain ⟨ht, hrest⟩ := List.forall_mem_cons.mp hts
    obtain ⟨c, rest, hchars, hround, hsquare⟩ := ht.opens
    have hlisted := listed hc ht hrest w
    have hfirst : listing o (t :: ts) ++ closer :: w = c ::
        (rest ++ (ts.flatMap fun u => ',' :: ' ' :: u.chars o) ++ closer :: w) := by
      simp [listing, hchars]
    rw [hfirst] at hlisted ⊢
    refine Reader.items_of_listed ?_ hlisted
    rcases hc with rfl | rfl
    · exact hround
    · exact hsquare

/-! Each form of expression is readable when its parts are. -/

variable (position : Option SourcePosition)

theorem reference {name : String} (h : Text.Name.isIdentifier name = true) :
    Readable o (.node (.variableReferenceExpression none name) [] position) := by
  have hempty := Text.Name.ne_nil_of_identifier h
  have hname := isFollowing_of_identifier h
  refine of_base ?_ fun hw hr => ?_
  · rw [chars_variable]
    exact Reader.opens_of_name hempty fun c hc =>
      Reader.isCalleePart_of_isFollowing (hname c hc)
  · rw [chars_variable]
    exact Reader.operand_variable hempty hname hw hr

theorem literal (value : String) :
    Readable o (.node (.basicLiteralExpression .string value) [] position) := by
  refine of_operand ?_ rfl fun _ => ?_
  · rw [chars_literal, Text.Quoted.literal, String.toList_ofList]
    exact Reader.opens_cons _ (by decide) (by decide)
  · rw [chars_literal]
    exact Reader.operand_literal value _

theorem invocation (ho : o.argumentSeparator = ", ") {callee : String}
    (hc : (Text.Name.invocation? (callee ++ "(")).isSome = true) (hts : ∀ t ∈ ts, Readable o t) :
    Readable o (.node (.functionInvocationExpression (callee ++ "(")) ts position) := by
  obtain ⟨hprinted, hcallee⟩ := Text.Name.invocation?_of_isSome hc
  have hempty := Text.Name.ne_nil_of_callee hcallee
  have hparts : ∀ c ∈ callee.toList, Reader.isCalleePart c = true :=
    forall_mem_of_callee (fun _ => Reader.isCalleePart_of_isFollowing) (by decide)
      (by decide) hcallee
  refine of_base ?_ fun {w r} _ hr => ?_
  · rw [chars_invocation position ho hprinted]
    exact (Reader.opens_of_name hempty hparts).append _
  · have hchars : chars o (.node (.functionInvocationExpression (callee ++ "(")) ts position) ++ w =
        callee.toList ++ '(' :: (listing o ts ++ ')' :: w) := by
      simp [chars_invocation position ho hprinted]
    rw [hchars]
    exact Reader.operand_invocation hempty hparts (items (.inl rfl) hts w) hr

theorem array (ho : o.argumentSeparator = ", ") (hts : ∀ t ∈ ts, Readable o t) :
    Readable o (.node .arrayInitExpression ts position) := by
  refine of_operand ?_ rfl fun {w} _ => ?_
  · rw [chars_array position ho]
    exact Reader.opens_cons _ (by decide) (by decide)
  · have hchars : chars o (.node .arrayInitExpression ts position) ++ w =
        '[' :: (listing o ts ++ ']' :: w) := by
      simp [chars_array position ho]
    rw [hchars]
    exact Reader.operand_array (items (.inr rfl) hts w)

theorem parenthesized (ht : Readable o t) :
    Readable o (.node .parenthesizedExpression [t] position) := by
  refine of_base ?_ fun {w r} _ hr => ?_
  · rw [chars_parenthesized]
    exact Reader.opens_cons _ (by decide) (by decide)
  · have hchars : chars o (.node .parenthesizedExpression [t] position) ++ w =
        '(' :: (t.chars o ++ ')' :: w) := by
      simp [chars_parenthesized]
    have hcloses : Reader.Closes (')' :: w) := by
      rintro _ ⟨⟩
      exact .inr (.inl rfl)
    rw [hchars]
    exact Reader.operand_parenthesized (ht.expression hcloses) hr

theorem unary (operator : UnaryOperator) (ht : Readable o t) (hno : t.tag ≠ .binaryExpression) :
    Readable o (.node (.unaryExpression operator) [t] position) := by
  refine of_operand ?_ rfl fun hw => ?_
  · rw [chars_unary]
    refine Reader.Opens.append ?_ _
    cases operator <;> exact Reader.opens_cons [] (by decide) (by decide)
  · rw [chars_unary, List.append_assoc]
    exact Reader.operand_unary operator (ht.operand hno hw)

theorem binary (operator : BinaryOperator) {left right : TreeNode} (hl : Readable o left)
    (hleft : left.tag ≠ .binaryExpression) (hr : Readable o right)
    (hright : right.tag ≠ .binaryExpression) :
    Readable o (.node (.binaryExpression operator) [left, right] position) where
  opens := by
    rw [chars_binary]
    exact hl.opens.append _
  base h := by cases h
  operand h := absurd rfl h
  expression {w} hw := by
    have hchars : chars o (.node (.binaryExpression operator) [left, right] position) ++ w =
        left.chars o ++ ' ' :: (operator.symbol.toList ++ ' ' :: (right.chars o ++ w)) := by
      simp [chars_binary]
    have hends : Reader.Ends (' ' :: (operator.symbol.toList ++ ' ' :: (right.chars o ++ w))) := by
      rintro _ ⟨⟩
      exact .inl rfl
    rw [hchars]
    exact Reader.expression_binary operator (hl.operand hleft hends) (hr.operand hright hw.ends)

theorem field {name : String} (hname : Text.Name.isIdentifier name = true) (ht : Readable o t)
    (hbase : t.tag.isBase = true) :
    Readable o (.node (.fieldAccessExpression name) [t] position) := by
  have hfield := isFollowing_of_identifier hname
  refine of_base ?_ fun {w r} hw hr => ?_
  · rw [chars_field]
    exact ht.opens.append _
  · have hchars : chars o (.node (.fieldAccessExpression name) [t] position) ++ w =
        t.chars o ++ '.' :: (name.toList ++ w) := by
      simp [chars_field]
    rw [hchars]
    exact ht.base hbase (hw.field hfield) (Reader.suffixes_field hfield hw hr)

theorem index {index : TreeNode} (ht : Readable o t) (hbase : t.tag.isBase = true)
    (hi : Readable o index) : Readable o (.node .indexAccessExpression [t, index] position) := by
  refine of_base ?_ fun {w r} _ hr => ?_
  · rw [chars_index]
    exact ht.opens.append _
  · have hchars : chars o (.node .indexAccessExpression [t, index] position) ++ w =
        t.chars o ++ '[' :: (index.chars o ++ ']' :: w) := by
      simp [chars_index]
    have hcloses : Reader.Closes (']' :: w) := by
      rintro _ ⟨⟩
      exact .inr (.inr rfl)
    rw [hchars]
    exact ht.base hbase (Reader.quiet_index _) (Reader.suffixes_index (hi.expression hcloses) hr)

end Readable

/-- The nodes inside an accepted tree are accepted, as it is itself. -/
theorem accepted_iff {construct : Construct} {children : List TreeNode}
    {position : Option SourcePosition} :
    (node construct children position).Accepted ↔
      construct.Accepts (children.map tag) ∧ ∀ t ∈ children, t.Accepted := by
  constructor
  · rintro ⟨haccepts, hall⟩
    exact ⟨haccepts, hall⟩
  · rintro ⟨haccepts, hall⟩
    exact .node haccepts hall

/-- Expressions that may be written are read back from their characters. -/
theorem Expression.readable {o : Options} (ho : o.argumentSeparator = ", ") {t : TreeNode}
    (h : t.Expression) (ha : t.Accepted) : Readable o t := by
  induction h with
  | reference name position => exact .reference position (accepted_iff.mp ha).1.2.2
  | literal value position => exact .literal position value
  | invocation callee arguments position _ ih =>
    obtain ⟨haccepts, hall⟩ := accepted_iff.mp ha
    exact .invocation position ho haccepts fun t ht => ih t ht (hall t ht)
  | array items position _ ih =>
    exact .array position ho fun t ht => ih t ht ((accepted_iff.mp ha).2 t ht)
  | parenthesized inner position _ ih =>
    exact .parenthesized position (ih ((accepted_iff.mp ha).2 inner (by simp)))
  | unary operator operand position _ hno ih =>
    exact .unary position operator (ih ((accepted_iff.mp ha).2 operand (by simp))) hno
  | binary operator left right position _ hleft _ hright ihl ihr =>
    have hall := (accepted_iff.mp ha).2
    exact .binary position operator (ihl (hall left (by simp))) hleft
      (ihr (hall right (by simp))) hright
  | field name base position _ hbase ih =>
    obtain ⟨haccepts, hall⟩ := accepted_iff.mp ha
    exact .field position haccepts.2 (ih (hall base (by simp))) hbase
  | index base index position _ hbase _ ihb ihi =>
    have hall := (accepted_iff.mp ha).2
    exact .index position (ihb (hall base (by simp))) hbase (ihi (hall index (by simp)))

/-- Expressions that may be written and have the same characters are the same, but for the
places at which their parts were read. -/
theorem Expression.bare_eq {o o' : Options} (ho : o.argumentSeparator = ", ")
    (ho' : o'.argumentSeparator = ", ") {t t' : TreeNode} (h : t.Expression) (ha : t.Accepted)
    (h' : t'.Expression) (ha' : t'.Accepted) (hchars : t.chars o = t'.chars o') :
    t.bare = t'.bare := by
  have hempty : Reader.Closes [] := by simp [Reader.Closes]
  have hread := (h.readable ho ha).expression hempty
  have hread' := (h'.readable ho' ha').expression hempty
  rw [← hchars] at hread'
  exact congrArg Prod.fst (hread.unique hread')

end TreeNode

end SourceScribe
