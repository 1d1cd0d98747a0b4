import SourceScribe.Proofs.Growth
import SourceScribe.Proofs.Shifting

/-!
# Children written in place

What a node writes into a buffer of its own and then appends could have been written
where it is appended, if the node comes back to the level at which it began. The two
ways differ while the node stands in its first line: its own buffer takes the line
along when the level changes, although the line is given up when it is appended. So
either the line in which it is appended has begun, or the node does not change the
level before it has written something.
-/

namespace SourceScribe

/-- What is done to a buffer by a node. -/
inductive Act where
  /-- Writes at the end of the last line. -/
  | print (text : String)
  /-- Writes and begins a new line. -/
  | println (text : String)
  /-- Begins a new line. -/
  | newline
  /-- Goes one level in. -/
  | deeper
  /-- Goes one level out. -/
  | shallower
  /-- Appends what another node has done to a new buffer. -/
  | child (origin : Option NodeId) (acts : List Act)

namespace Buffer

/-- A new buffer that begins where another one stands. -/
def forChild (b : Buffer) (origin : Option NodeId) : Buffer :=
  { ofIndent b.indent b.unit with origin := origin }

/-- The buffer at another level, which its last line does not follow. -/
def onLevel (b : Buffer) (indent : Nat) : Buffer := { b with indent := indent }

/-- Something has been written or a line has been begun. -/
def Begun (b : Buffer) : Prop := b.finished ≠ #[] ∨ b.current.isEmpty = false

end Buffer

namespace Act

mutual

/-- What an act makes of a buffer. -/
def perform (b : Buffer) : Act → Buffer
  | .print text => b.print text
  | .println text => b.println text
  | .newline => b.newline
  | .deeper => b.deeper
  | .shallower => b.shallower
  | .child origin acts => b.append (performAll (b.forChild origin) acts)

/-- What acts make of a buffer, one after the other. -/
def performAll (b : Buffer) : List Act → Buffer
  | [] => b
  | act :: rest => performAll (act.perform b) rest

end

mutual

/-- Whether an act writes something or begins a line. -/
def marks : Act → Bool
  | .print text => !text.isEmpty
  | .println _ | .newline => true
  | .deeper | .shallower => false
  | .child _ acts => marksAny acts

/-- Whether one of some acts writes something or begins a line. -/
def marksAny : List Act → Bool
  | [] => false
  | act :: rest => act.marks || marksAny rest

end

/-- Whether an act changes the level. -/
def shifts : Act → Bool
  | .deeper | .shallower => true
  | _ => false

/-- Whether the level is not changed before something is written or a line is begun. -/
def settled : List Act → Bool
  | [] => true
  | act :: rest => act.marks || (!act.shifts && settled rest)

/-- An act that writes something or begins a line does not change the level. -/
theorem shifts_of_marks {act : Act} (h : act.marks = true) : act.shifts = false := by
  cases act with
  | deeper => cases h
  | shallower => cases h
  | _ => rfl

end Act

namespace Line

/-- A part leaves no line empty. -/
theorem isEmpty_push (l : Line) (part : Part) : (l.push part).isEmpty = false := by
  simp [isEmpty, push]

/-- A line that has been joined is empty when both lines are. -/
theorem isEmpty_join (l other : Line) : (l.join other).isEmpty = (l.isEmpty && other.isEmpty) := by
  have hiff : (l.join other).isEmpty = true ↔ l.isEmpty = true ∧ other.isEmpty = true := by
    simp only [isEmpty, join, Array.isEmpty_iff, Array.append_eq_empty_iff]
  rw [Bool.eq_iff_iff, hiff, Bool.and_eq_true]

/-- Another level does not fill a line. -/
theorem isEmpty_reindent (l : Line) (indent : Nat) : (l.reindent indent).isEmpty = l.isEmpty := by
  unfold reindent
  split <;> rfl

/-- A part is joined with the line that it was added to. -/
theorem join_push (l other : Line) (part : Part) :
    l.join (other.push part) = (l.join other).push part := by
  simp [join, push, Nat.add_assoc]

/-- A line that has begun stays at its level. -/
theorem reindent_of_begun {l : Line} (h : l.isEmpty = false) (indent : Nat) :
    l.reindent indent = l := by
  rw [reindent, h]
  rfl

/-- The level of a line that is joined to another does not matter. -/
theorem join_reindent (l other : Line) (indent : Nat) :
    l.join (other.reindent indent) = l.join other := by
  unfold reindent
  split <;> rfl

end Line

namespace Buffer

variable {p b c : Buffer} {act : Act} {acts : List Act}

/-- Text that is not empty is a part of the last line. -/
theorem print_of_isEmpty_eq_false (b : Buffer) {text : String} (h : text.isEmpty = false) :
    b.print text = { b with current := b.current.push ⟨text, b.origin⟩ } := by
  rw [print, h]
  rfl

/-- What has begun on either side has begun when a buffer is appended. -/
theorem begun_append (h : b.Begun ∨ c.Begun) : (b.append c).Begun := by
  by_cases hfinished : b.finished ≠ #[] ∨ c.finished ≠ #[]
  · exact .inl (finished_append_ne hfinished)
  · -- only the last lines are left, and they are joined
    have hb : b.finished = #[] := by grind
    have hc : c.finished = #[] := by grind
    have hcurrent : (b.append c).current = b.current.join c.current := by
      simp only [append, hc]
    have hempty : (b.current.isEmpty && c.current.isEmpty) = false := by
      rcases h with h | h
      · rw [h.resolve_left (by simp [hb]), Bool.false_and]
      · rw [h.resolve_left (by simp [hc]), Bool.and_false]
    exact .inr (by rw [hcurrent, Line.isEmpty_join, hempty])

/-- Behind a line end a buffer has begun. -/
theorem begun_newline (b : Buffer) : b.newline.Begun := .inl (by simp [newline])

/-- Text does not undo what has begun. -/
theorem Begun.print (h : b.Begun) (text : String) : (b.print text).Begun := by
  unfold Buffer.print
  split
  · exact h
  · exact .inr (Line.isEmpty_push b.current _)

/-- Another level does not undo what has begun. -/
theorem Begun.relevel (h : b.Begun) (indent : Nat) :
    Begun { b with indent := indent, current := b.current.reindent indent } := by
  rcases h with h | h
  · exact .inl h
  · exact .inr ((Line.isEmpty_reindent b.current indent).trans h)

/-- No act undoes what has begun. -/
theorem Begun.perform (h : b.Begun) (act : Act) : (act.perform b).Begun := by
  cases act with
  | print text => exact h.print text
  | println text => exact begun_newline (b.print text)
  | newline => exact begun_newline b
  | deeper => exact h.relevel (b.indent + 1)
  | shallower => exact h.relevel (b.indent - 1)
  | child origin acts => exact begun_append (.inl h)

/-- Acts do not undo what has begun. -/
theorem Begun.performAll (h : b.Begun) (acts : List Act) : (Act.performAll b acts).Begun := by
  induction acts generalizing b with
  | nil => exact h
  | cons act rest ih => exact ih (h.perform act)

mutual

/-- A buffer has begun with an act that writes something or begins a line. -/
theorem begun_of_marks (b : Buffer) : ∀ act : Act, act.marks = true → (act.perform b).Begun
  | .print text, h => by
    have hfull : text.isEmpty = false := by simpa [Act.marks] using h
    exact .inr (by rw [Act.perform, b.print_of_isEmpty_eq_false hfull, Line.isEmpty_push])
  | .println text, _ => begun_newline (b.print text)
  | .newline, _ => begun_newline b
  | .deeper, h => by cases h
  | .shallower, h => by cases h
  | .child origin acts, h => begun_append (.inr (begun_of_marksAny (b.forChild origin) acts h))

/-- A buffer has begun with acts one of which writes something or begins a line. -/
theorem begun_of_marksAny (b : Buffer) :
    ∀ acts : List Act, Act.marksAny acts = true → (Act.performAll b acts).Begun
  | [], h => by cases h
  | act :: rest, h => by
    rw [Act.marksAny, Bool.or_eq_true] at h
    rcases h with h | h
    · exact (begun_of_marks b act h).performAll rest
    · exact begun_of_marksAny (act.perform b) rest h

end

/-- What is printed into a child is printed where it is appended. -/
theorem append_print (h : c.origin = p.origin) (text : String) :
    (p.append (c.print text)).onLevel c.indent = ((p.append c).onLevel c.indent).print text := by
  cases htext : text.isEmpty with
  | true => simp only [print, htext, if_true]
  | false =>
    rw [c.print_of_isEmpty_eq_false htext, print_of_isEmpty_eq_false _ htext]
    unfold append
    cases c.finished.toList with
    | nil => simp only [onLevel, Line.join_push, h]
    | cons first rest => simp only [onLevel, h]

/-- A line that a child begins is begun where it is appended. -/
theorem append_newline (p c : Buffer) :
    (p.append c.newline).onLevel c.indent = ((p.append c).onLevel c.indent).newline := by
  obtain ⟨⟨finished⟩, current, indent, unit, origin⟩ := c
  cases finished with
  | nil => simp [append, newline, onLevel]
  | cons first rest =>
    have hlines : p.finished.push (p.current.join first) ++ (rest ++ [current]) =
        (p.finished.push (p.current.join first) ++ rest).push current := by
      rw [← Array.toList_inj]
      simp
    simp [append, newline, onLevel, hlines]

/-- A child that comes to another level takes the line along to which it is appended, unless
that line has begun. -/
theorem append_relevel (h : p.current.isEmpty = false ∨ c.Begun) (level : Nat) :
    (p.append { c with indent := level, current := c.current.reindent level }).onLevel level =
      { p.append c with
        indent := level
        current := (p.append c).current.reindent level } := by
  obtain ⟨⟨finished⟩, current, indent, unit, origin⟩ := c
  cases finished with
  | nil =>
    have hcurrent : p.current.isEmpty = false ∨ current.isEmpty = false := by
      simpa only [Begun, ne_eq, not_true_eq_false, false_or] using h
    have hjoined : (p.current.join current).isEmpty = false := by
      rw [Line.isEmpty_join, Bool.and_eq_false_iff]
      exact hcurrent
    simp only [append, onLevel, Line.join_reindent, Line.reindent_of_begun hjoined]
  | cons first rest => rfl

/-- What is appended to a child is appended where the child is. -/
theorem append_child (p c child : Buffer) :
    (p.append (c.append child)).onLevel c.indent =
      ((p.append c).onLevel c.indent).append child := by
  rw [← append_assoc]
  unfold append
  cases child.finished.toList <;> rfl

/-- A buffer holds what another one holds to which a child is appended that has come
as far, and it stands at the level of the child. -/
structure Follows (p c b : Buffer) : Prop where
  /-- The child has been appended. -/
  appended : b = (p.append c).onLevel c.indent
  /-- The child has the same text for a level. -/
  unit : c.unit = p.unit
  /-- The same node writes. -/
  origin : c.origin = p.origin

namespace Follows

/-- A child that has just begun adds nothing. -/
theorem start (p : Buffer) : Follows p (p.forChild p.origin) p where
  appended := by simp [append, forChild, ofIndent, onLevel, Line.join_blank]
  unit := rfl
  origin := rfl

/-- A new child of the one begins where a new child of the other does. -/
theorem forChild (h : Follows p c b) (origin : Option NodeId) :
    b.forChild origin = c.forChild origin := by
  have hunit : b.unit = c.unit := by
    rw [h.appended, h.unit]
    exact unit_append p c
  have hindent : b.indent = c.indent := by rw [h.appended, onLevel]
  rw [Buffer.forChild, Buffer.forChild, hunit, hindent]

/-- Text is printed on both sides. -/
theorem print (h : Follows p c b) (text : String) : Follows p (c.print text) (b.print text) where
  appended := by rw [indent_print, append_print h.origin, ← h.appended]
  unit := (unit_print c text).trans h.unit
  origin := (origin_print c text).trans h.origin

/-- A line is begun on both sides. -/
theorem newline (h : Follows p c b) : Follows p c.newline b.newline where
  appended := by
    rw [h.appended]
    exact (append_newline p c).symm
  unit := h.unit
  origin := h.origin

/-- The level is changed on both sides, if no empty line goes along on one side only. -/
theorem relevel (h : Follows p c b) (hbegun : p.current.isEmpty = false ∨ c.Begun) (level : Nat) :
    Follows p { c with indent := level, current := c.current.reindent level }
      { b with indent := level, current := b.current.reindent level } where
  appended := by
    rw [h.appended]
    exact (append_relevel hbegun level).symm
  unit := h.unit
  origin := h.origin

/-- A buffer is appended on both sides. -/
theorem append (h : Follows p c b) (child : Buffer) :
    Follows p (c.append child) (b.append child) where
  appended := by rw [indent_append, append_child, ← h.appended]
  unit := (unit_append c child).trans h.unit
  origin := (origin_append c child).trans h.origin

/-- An act is done on both sides. -/
theorem perform (h : Follows p c b)
    (hfree : act.shifts = false ∨ p.current.isEmpty = false ∨ c.Begun) :
    Follows p (act.perform c) (act.perform b) := by
  have hindent : b.indent = c.indent := by rw [h.appended, onLevel]
  cases act with
  | print text => exact h.print text
  | println text => exact (h.print text).newline
  | newline => exact h.newline
  | deeper =>
    have hlevel := h.relevel (hfree.resolve_left (by simp [Act.shifts])) (c.indent + 1)
    rw [← hindent] at hlevel
    simpa only [Act.perform, Buffer.deeper, hindent] using hlevel
  | shallower =>
    have hlevel := h.relevel (hfree.resolve_left (by simp [Act.shifts])) (c.indent - 1)
    simpa only [Act.perform, Buffer.shallower, hindent] using hlevel
  | child origin acts =>
    rw [Act.perform, Act.perform, h.forChild]
    exact h.append _

/-- Acts are done on both sides. -/
theorem performAll (h : Follows p c b)
    (hfree : p.current.isEmpty = false ∨ c.Begun ∨ Act.settled acts = true) :
    Follows p (Act.performAll c acts) (Act.performAll b acts) := by
  induction acts generalizing b c with
  | nil => exact h
  | cons act rest ih =>
    rcases hfree with hline | hbegun | hsettled
    · exact ih (h.perform (.inr (.inl hline))) (.inl hline)
    · exact ih (h.perform (.inr (.inr hbegun))) (.inr (.inl (hbegun.perform act)))
    · rw [Act.settled, Bool.or_eq_true, Bool.and_eq_true, Bool.not_eq_true'] at hsettled
      rcases hsettled with hmarks | ⟨hstays, hrest⟩
      · have hstep := h.perform (.inl (Act.shifts_of_marks hmarks))
        exact ih hstep (.inr (.inl (begun_of_marks c act hmarks)))
      · exact ih (h.perform (.inl hstays)) (.inr (.inr hrest))

end Follows

end Buffer

/-- The line when nothing is known of who wrote its parts. -/
def Line.anonymous (l : Line) : Line :=
  { l with parts := l.parts.map fun part => { part with origin := none } }

/-- The buffer when nothing is known of who wrote its parts and who writes. -/
def Buffer.anonymous (b : Buffer) : Buffer :=
  { b with
    finished := b.finished.map Line.anonymous
    current := b.current.anonymous
    origin := none }

namespace Line

@[simp]
theorem isEmpty_anonymous (l : Line) : l.anonymous.isEmpty = l.isEmpty := by
  rw [isEmpty, isEmpty, Bool.eq_iff_iff, Array.isEmpty_iff, Array.isEmpty_iff, anonymous,
    Array.map_eq_empty_iff]

@[simp]
theorem anonymous_push (l : Line) (text : String) (origin : Option NodeId) :
    (l.push ⟨text, origin⟩).anonymous = l.anonymous.push ⟨text, none⟩ := by
  simp [anonymous, push]

@[simp]
theorem anonymous_join (l other : Line) :
    (l.join other).anonymous = l.anonymous.join other.anonymous := by
  simp [anonymous, join]

@[simp]
theorem anonymous_reindent (l : Line) (indent : Nat) :
    (l.reindent indent).anonymous = l.anonymous.reindent indent := by
  unfold reindent
  rw [isEmpty_anonymous]
  split <;> rfl

/-- Who wrote a line does not show in its text. -/
@[simp]
theorem text_anonymous (l : Line) (unit : String) : l.anonymous.text unit = l.text unit := by
  have hparts : l.anonymous.parts.toList.map Part.text = l.parts.toList.map Part.text := by
    simp [anonymous]
  rw [text, text, isEmpty_anonymous, hparts]
  rfl

end Line

namespace Buffer

variable {p b b' : Buffer}

/-- Who wrote a buffer does not matter for its level. -/
theorem indent_anonymous (b : Buffer) : b.anonymous.indent = b.indent := rfl

/-- Who wrote a buffer does not matter for the text of a level. -/
theorem unit_anonymous (b : Buffer) : b.anonymous.unit = b.unit := rfl

/-- Who wrote a buffer does not matter for the length of its last line. -/
theorem lineLength_anonymous (b : Buffer) : b.anonymous.lineLength = b.lineLength := rfl

/-- New buffers differ in the node that writes. -/
theorem anonymous_forChild (p : Buffer) (origin origin' : Option NodeId) :
    (p.forChild origin).anonymous = (p.forChild origin').anonymous := rfl

@[simp]
theorem lines_anonymous (b : Buffer) : b.anonymous.lines = b.lines.map Line.anonymous := by
  simp [anonymous, lines]

@[simp]
theorem anonymous_print (b : Buffer) (text : String) :
    (b.print text).anonymous = b.anonymous.print text := by
  cases htext : text.isEmpty with
  | true => simp only [print, htext, if_true]
  | false => simp [print_of_isEmpty_eq_false _ htext, anonymous]

@[simp]
theorem anonymous_newline (b : Buffer) : b.newline.anonymous = b.anonymous.newline := by
  simp [anonymous, newline, Line.anonymous]

@[simp]
theorem anonymous_relevel (b : Buffer) (indent level : Nat) :
    anonymous { b with indent := indent, current := b.current.reindent level } =
      { b.anonymous with indent := indent, current := b.anonymous.current.reindent level } := by
  simp [anonymous]

@[simp]
theorem anonymous_append (b child : Buffer) :
    (b.append child).anonymous = b.anonymous.append child.anonymous := by
  obtain ⟨⟨finished⟩, current, indent, unit, origin⟩ := child
  cases finished with
  | nil => simp [append, anonymous]
  | cons first rest =>
    have hlines : (b.finished.push (b.current.join first) ++ rest).map Line.anonymous =
        (b.finished.map Line.anonymous).push (b.current.anonymous.join first.anonymous) ++
          rest.map Line.anonymous := by
      rw [← Array.toList_inj]
      simp
    simp [append, anonymous, hlines]

/-- What an act writes does not depend on who wrote what is there. -/
theorem anonymous_perform_congr (h : b.anonymous = b'.anonymous) (act : Act) :
    (act.perform b).anonymous = (act.perform b').anonymous := by
  have hindent : b.indent = b'.indent := by rw [← indent_anonymous b, h, indent_anonymous]
  have hunit : b.unit = b'.unit := by rw [← unit_anonymous b, h, unit_anonymous]
  cases act with
  | print text => simp only [Act.perform, anonymous_print, h]
  | println text => simp only [Act.perform, println, anonymous_newline, anonymous_print, h]
  | newline => simp only [Act.perform, anonymous_newline, h]
  | deeper => simp only [Act.perform, deeper, anonymous_relevel, h, hindent]
  | shallower => simp only [Act.perform, shallower, anonymous_relevel, h, hindent]
  | child origin acts =>
    have hchild : b.forChild origin = b'.forChild origin := by
      rw [forChild, forChild, hindent, hunit]
    simp only [Act.perform, anonymous_append, h, hchild]

/-- What acts write does not depend on who wrote what is there. -/
theorem anonymous_performAll_congr (h : b.anonymous = b'.anonymous) (acts : List Act) :
    (Act.performAll b acts).anonymous = (Act.performAll b' acts).anonymous := by
  induction acts generalizing b b' with
  | nil => exact h
  | cons act rest ih => exact ih (anonymous_perform_congr h act)

/-- Two buffers with the same text, whoever wrote it. -/
structure SameText (b b' : Buffer) : Prop where
  /-- The lines have the same level, the same parts and the same number of bytes. -/
  lines : b.lines.map Line.anonymous = b'.lines.map Line.anonymous
  /-- New lines are indented alike. -/
  indent : b.indent = b'.indent
  /-- The text is the same. -/
  source : b.source = b'.source
  /-- The last line has the same number of bytes with its indentation. -/
  lineLength : b.lineLength = b'.lineLength
  /-- The last line is empty in both. -/
  lineIsEmpty : b.lineIsEmpty = b'.lineIsEmpty
  /-- Nothing has been written in either. -/
  isEmpty : b.isEmpty = b'.isEmpty

/-- Who wrote a buffer does not show in its text. -/
theorem source_anonymous (b : Buffer) : b.anonymous.source = b.source := by
  have htexts : (b.lines.map Line.anonymous).map (Line.text b.unit) =
      b.lines.map (Line.text b.unit) := by simp
  rw [source, source, lines_anonymous, unit_anonymous, htexts]

/-- Who wrote a buffer does not matter for whether something has been written. -/
theorem isEmpty_eq_anonymous (b : Buffer) : b.anonymous.isEmpty = b.isEmpty := by
  simp [isEmpty, Function.comp_def]

/-- Buffers have the same text if they are the same when nothing is known of who wrote them. -/
theorem sameText_of_anonymous (h : b.anonymous = b'.anonymous) : SameText b b' where
  lines := by rw [← lines_anonymous, ← lines_anonymous, h]
  indent := by rw [← indent_anonymous b, h, indent_anonymous]
  source := by rw [← source_anonymous b, h, source_anonymous]
  lineLength := by rw [← lineLength_anonymous b, h, lineLength_anonymous]
  lineIsEmpty := by
    have hcurrent : b.current.anonymous = b'.current.anonymous := congrArg Buffer.current h
    rw [lineIsEmpty, lineIsEmpty, ← Line.isEmpty_anonymous, hcurrent, Line.isEmpty_anonymous]
  isEmpty := by rw [← isEmpty_eq_anonymous b, h, isEmpty_eq_anonymous]

/-- A child that comes back to its level has been written in place: to append it and to do
in its place what it does leave the same text, if the line has begun or the child does not
change the level before it has written something. The buffers are equal if the same node
writes. And it is the same whether buffers are appended to each other first or last. -/
theorem append_eq_written_in_place :
    (∀ (p : Buffer) (origin : Option NodeId) (acts : List Act),
      (Act.performAll (p.forChild origin) acts).indent = p.indent →
      p.lineIsEmpty = false ∨ Act.settled acts = true →
      SameText (p.append (Act.performAll (p.forChild origin) acts)) (Act.performAll p acts) ∧
        (origin = p.origin →
          p.append (Act.performAll (p.forChild origin) acts) = Act.performAll p acts)) ∧
      ∀ a b c : Buffer, a.append (b.append c) = (a.append b).append c := by
  refine ⟨?_, fun a b c => (append_assoc a b c).symm⟩
  intro p origin acts hlevel hfree
  have hanonymous : (Act.performAll (p.forChild origin) acts).anonymous =
      (Act.performAll (p.forChild p.origin) acts).anonymous :=
    anonymous_performAll_congr (anonymous_forChild p origin p.origin) acts
  have hfollows : Follows p (Act.performAll (p.forChild p.origin) acts) (Act.performAll p acts) :=
    (Follows.start p).performAll (hfree.imp_right .inr)
  have hindent : (Act.performAll (p.forChild p.origin) acts).indent = p.indent :=
    (sameText_of_anonymous hanonymous).indent.symm.trans hlevel
  have hplace : Act.performAll p acts =
      p.append (Act.performAll (p.forChild p.origin) acts) := by
    rw [hfollows.appended, hindent, onLevel, ← indent_append p]
  constructor
  · apply sameText_of_anonymous
    rw [hplace, anonymous_append, anonymous_append, hanonymous]
  · intro horigin
    rw [hplace, horigin]

/-- A line that has begun one level in. -/
def begunLine : Buffer := (ofNode ⟨0⟩ 1 "  ").print "x = "

/-- A block with two statements, the first of which has a block of its own. -/
def blockActs : List Act :=
  [.println "\x7b", .deeper,
    .child (some ⟨2⟩) [.println "while \x7b", .deeper, .println "a", .shallower, .print "\x7d"],
    .newline, .child none [.print "b"], .newline, .shallower, .print "\x7d"]

/-- A block behind a line that has begun is written in place. -/
theorem append_eq_written_in_place_block :
    (Act.performAll (begunLine.forChild (some ⟨1⟩)) blockActs).indent = begunLine.indent ∧
      begunLine.lineIsEmpty = false ∧
      SameText (begunLine.append (Act.performAll (begunLine.forChild (some ⟨1⟩)) blockActs))
        (Act.performAll begunLine blockActs) := by
  have hlevel : (Act.performAll (begunLine.forChild (some ⟨1⟩)) blockActs).indent =
      begunLine.indent := by decide
  have hline : begunLine.lineIsEmpty = false := by decide
  have hsame := append_eq_written_in_place.1 begunLine (some ⟨1⟩) blockActs hlevel (.inl hline)
  exact ⟨hlevel, hline, hsame.1⟩

/-- The level is not changed in front of the first text for nothing: an empty line goes along
with the buffer in which it stands, but not with one that is appended to it. -/
example :
    ((ofIndent 0 "  ").append (Act.performAll ((ofIndent 0 "  ").forChild none)
      [.deeper, .print "a", .shallower])).source = "a" ∧
    (Act.performAll (ofIndent 0 "  ") [.deeper, .print "a", .shallower]).source = "  a" := by
  decide

end Buffer

end SourceScribe
