import SourceScribe.Buffer

/-!
# Layouts

A layout is text without a place: pieces of text and line ends, each of which
says how many levels further in than the first line the next line begins.
Layouts are put one behind the other like lists, and a layout that goes further
in takes all of its lines along. On a page a layout becomes lines; a line that
stays empty is not indented.
-/

namespace SourceScribe

/-- Text, or the end of a line. -/
inductive Stroke where
  /-- Text. -/
  | text (value : String)
  /-- The end of a line, and how far in the next one begins. -/
  | line (depth : Nat)
deriving DecidableEq, Repr

/-- Text and line ends, in order. -/
abbrev Layout := List Stroke

/-- A line on a page. -/
structure Row where
  /-- The level of indentation. -/
  level : Nat
  /-- The text. -/
  text : String
deriving DecidableEq, Repr

/-- The text of a row; an empty row has no indentation. -/
def Row.source (unit : String) (r : Row) : String :=
  if r.text = "" then "" else indentation unit r.level ++ r.text

/-- Finished rows and one that is being written. -/
structure Page where
  /-- The rows above the last. -/
  above : List Row
  /-- The last row. -/
  last : Row
deriving DecidableEq, Repr

namespace Page

/-- A page with a row that is empty. -/
def blank (level : Nat) : Page := ⟨[], ⟨level, ""⟩⟩

/-- The text of a page. -/
def source (unit : String) (p : Page) : String :=
  String.intercalate "\n" ((p.above ++ [p.last]).map (Row.source unit))

/-- Puts a page behind another: its first row goes on where the other ends. -/
def append (p q : Page) : Page :=
  match q.above with
  | [] => ⟨p.above, ⟨p.last.level, p.last.text ++ q.last.text⟩⟩
  | first :: rest => ⟨p.above ++ ⟨p.last.level, p.last.text ++ first.text⟩ :: rest, q.last⟩

end Page

/-- Writes a stroke on a page, as part of a layout at a level. -/
def Stroke.write (level : Nat) (p : Page) : Stroke → Page
  | .text value => { p with last := { p.last with text := p.last.text ++ value } }
  | .line depth => ⟨p.above ++ [p.last], ⟨level + depth, ""⟩⟩

/-- Takes a stroke some levels further in. -/
def Stroke.nest (levels : Nat) : Stroke → Stroke
  | .text value => .text value
  | .line depth => .line (levels + depth)

namespace Layout

/-- Writes a layout on a page. -/
def write (level : Nat) (l : Layout) (p : Page) : Page := l.foldl (Stroke.write level) p

/-- Takes a layout some levels further in. -/
def nest (levels : Nat) (l : Layout) : Layout := l.map (Stroke.nest levels)

/-- The text of a layout at the left margin. -/
def source (unit : String) (l : Layout) : String := (l.write 0 (Page.blank 0)).source unit

/-- Text. -/
def str (value : String) : Layout := [.text value]

/-- The end of a line. -/
def newline : Layout := [.line 0]

/-- Layouts with the same layout between them. -/
def separated (separator : Layout) : List Layout → Layout
  | [] => []
  | first :: rest => first ++ rest.flatMap fun l => separator ++ l

/-- Layouts, each of which ends its line. -/
def rows (ls : List Layout) : Layout := ls.flatMap fun l => l ++ newline

/-- Layouts between braces, each on a line of its own and one level further in. -/
def braces (ls : List Layout) : Layout :=
  str "\x7b" ++ (ls.flatMap fun l => nest 1 (newline ++ l)) ++ newline ++ str "\x7d"

/-- Layouts are written one after the other. -/
theorem write_append (level : Nat) (l m : Layout) (p : Page) :
    write level (l ++ m) p = write level m (write level l p) := List.foldl_append

/-- Layouts go further in together. -/
theorem nest_append (levels : Nat) (l m : Layout) :
    nest levels (l ++ m) = nest levels l ++ nest levels m := List.map_append

/-- A layout that goes further in is one at a greater level. -/
theorem write_nest (level levels : Nat) (l : Layout) (p : Page) :
    write level (nest levels l) p = write (level + levels) l p := by
  have hstroke : ∀ s : Stroke, ∀ p, (s.nest levels).write level p = s.write (level + levels) p := by
    intro s p
    cases s with
    | text value => rfl
    | line depth => simp only [Stroke.nest, Stroke.write, Nat.add_assoc]
  induction l generalizing p with
  | nil => rfl
  | cons s l ih =>
    change write level (nest levels l) ((s.nest levels).write level p) = _
    rw [ih, hstroke]
    rfl

/-- Rows that go further in, behind a line end that does, are layouts on lines
of their own with the line end behind them. -/
theorem nest_rows (ls : List Layout) :
    nest 1 (newline ++ rows ls) =
      (ls.flatMap fun l => nest 1 (newline ++ l)) ++ nest 1 newline := by
  induction ls with
  | nil => rfl
  | cons l ls ih =>
    simp only [nest_append] at ih
    simp only [rows, List.flatMap_cons, nest_append, List.append_assoc] at ih ⊢
    rw [ih]

end Layout

namespace Page

/-- A page goes on with a blank one. -/
theorem append_blank (p : Page) (level : Nat) : p.append (blank level) = p := by
  simp only [append, blank, String.append_empty]

/-- What is written on the second of two pages is written on both. -/
theorem append_write (level : Nat) (p q : Page) (l : Layout) :
    p.append (l.write level q) = l.write level (p.append q) := by
  induction l generalizing q with
  | nil => rfl
  | cons s l ih =>
    have hstroke : p.append (s.write level q) = s.write level (p.append q) := by
      cases s with
      | text value =>
        rcases q with ⟨_ | ⟨first, rest⟩, last⟩
        · simp only [Stroke.write, append, String.append_assoc]
        · rfl
      | line depth =>
        rcases q with ⟨_ | ⟨first, rest⟩, last⟩
        · rfl
        · simp only [Stroke.write, append, List.cons_append, List.append_assoc]
    change p.append (Layout.write level l (s.write level q)) =
      Layout.write level l (s.write level (p.append q))
    rw [ih, hstroke]

end Page

end SourceScribe
