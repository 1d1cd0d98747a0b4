import SourceScribe.Storage

/-!
# The stored form of a buffer

Every buffer has a stored form, from which it can be read back, and what is done in
storage is what is done to the buffer. The stored form has a line to write on, so nothing
that is done in storage ever makes one for want of one.
-/

namespace SourceScribe

/-- The line in storage. -/
def Line.stored (l : Line) : StoredLine :=
  { indent := l.indent
    texts := l.parts.map Part.text
    origins := l.parts.map Part.origin
    length := l.width }

/-- The buffer in storage. -/
def Buffer.stored (b : Buffer) : StoredBuffer :=
  { lines := (b.finished.map Line.stored).push b.current.stored
    indent := b.indent
    unit := b.unit
    origin := b.origin }

namespace Line

@[simp]
theorem isEmpty_stored (l : Line) : l.stored.isEmpty = l.isEmpty := by
  rw [StoredLine.isEmpty, isEmpty, Bool.eq_iff_iff, Array.isEmpty_iff, Array.isEmpty_iff, stored,
    Array.map_eq_empty_iff]

@[simp]
theorem stored_push (l : Line) (text : String) (origin : Option NodeId) :
    (l.push ⟨text, origin⟩).stored = l.stored.push text origin := by
  simp [stored, push, StoredLine.push]

@[simp]
theorem stored_join (l other : Line) : (l.join other).stored = l.stored.join other.stored := by
  simp [stored, join, StoredLine.join]

/-- A line has the same text in storage. -/
@[simp]
theorem text_stored (unit : String) (l : Line) : l.stored.text unit = l.text unit := by
  have htexts : l.stored.texts.toList = l.parts.toList.map Part.text := by simp [stored]
  rw [StoredLine.text, text, isEmpty_stored, htexts]
  rfl

/-- A line can be read back from storage. -/
@[simp]
theorem line_stored (l : Line) : l.stored.line = l := by
  simp [stored, StoredLine.line, Array.zipWith_map, Array.zipWith_self]

end Line

namespace Buffer

/-- A buffer in storage has a line to write on. -/
@[simp]
theorem grounded_stored (b : Buffer) : b.stored.grounded = b.stored := by
  simp [StoredBuffer.grounded, stored]

/-- The last line of a buffer is the last one in storage. -/
@[simp]
theorem back?_stored (b : Buffer) : b.stored.lines.back? = some b.current.stored :=
  Array.back?_push

/-- The lines in storage are those of the buffer. -/
theorem lines_stored (b : Buffer) : b.stored.lines.toList = b.lines.map Line.stored := by
  simp [stored, lines]

/-- A buffer can be read back from storage. -/
theorem buffer_stored (b : Buffer) : b.stored.buffer = b := by
  have hfinished : b.stored.lines.pop.map StoredLine.line = b.finished := by
    simp [stored, Function.comp_def]
  rw [StoredBuffer.buffer, grounded_stored, hfinished, back?_stored, Option.map_some,
    Line.line_stored]
  rfl

/-- The lines in storage are the stored lines. -/
theorem mem_lines_stored {b : Buffer} {r : StoredLine} :
    r ∈ b.stored.lines ↔ ∃ l ∈ b.lines, l.stored = r := by
  rw [← Array.mem_toList_iff, lines_stored, List.mem_map]

/-- The text is the same in storage. -/
theorem source_stored (b : Buffer) : b.stored.source = b.source := by
  have htexts : b.stored.lines.toList.map (StoredLine.text b.unit) =
      b.lines.map (Line.text b.unit) := by
    rw [lines_stored, List.map_map]
    exact List.map_congr_left fun l _ => Line.text_stored b.unit l
  rw [source, ← htexts]
  rfl

/-- Nothing has been written in storage when nothing has been written. -/
theorem isEmpty_stored (b : Buffer) : b.stored.isEmpty = b.isEmpty := by
  rw [StoredBuffer.isEmpty, isEmpty, ← Array.all_toList, lines_stored, List.all_map]
  exact congrArg b.lines.all (funext Line.isEmpty_stored)

/-- The last line is empty in storage when it is empty. -/
@[simp]
theorem lineIsEmpty_stored (b : Buffer) : b.stored.lineIsEmpty = b.lineIsEmpty := by
  rw [StoredBuffer.lineIsEmpty, back?_stored]
  exact Line.isEmpty_stored b.current

/-- The last line is as long in storage as it is. -/
theorem lineLength_stored (b : Buffer) : b.stored.lineLength = b.lineLength := by
  rw [StoredBuffer.lineLength, back?_stored]
  rfl

/-- An empty buffer is stored as one is made in storage. -/
theorem stored_ofIndent (indent : Nat) (unit : String) :
    (ofIndent indent unit).stored = .ofIndent indent unit := by
  simp [ofIndent, stored, StoredBuffer.ofIndent, Line.stored]

/-- An empty buffer in which a node writes is stored as one is made in storage. -/
theorem stored_ofNode (origin : NodeId) (indent : Nat) (unit : String) :
    (ofNode origin indent unit).stored = .ofNode origin indent unit := by
  simp [ofNode, ofIndent, stored, StoredBuffer.ofNode, StoredBuffer.ofIndent, Line.stored]

/-- A change of the last line in storage is one of the last line. -/
theorem onLast_stored {b : Buffer} {change : StoredLine → StoredLine} {l : Line}
    (h : change b.current.stored = l.stored) :
    b.stored.onLast change = stored { b with current := l } := by
  have hlines : b.stored.lines.modify (b.stored.lines.size - 1) change =
      (b.finished.map Line.stored).push l.stored := by
    rw [← Array.toList_inj, Array.toList_modify, List.modify_eq_take_cons_drop (by simp [stored])]
    simp [stored, h]
  rw [StoredBuffer.onLast, grounded_stored, hlines]
  rfl

/-- Text is printed in storage as it is printed. -/
theorem print_stored (b : Buffer) (text : String) :
    b.stored.print text = (b.print text).stored := by
  rw [StoredBuffer.print, print]
  split
  · rfl
  · exact onLast_stored (Line.stored_push b.current text b.origin).symm

/-- A line is begun in storage as it is begun. -/
theorem newline_stored (b : Buffer) : b.stored.newline = b.newline.stored := by
  simp [StoredBuffer.newline, newline, stored, Line.stored]

/-- A buffer comes to a level in storage as it comes to it. -/
theorem relevel_stored (b : Buffer) (level : Nat) :
    b.stored.relevel level =
      stored { b with indent := level, current := b.current.reindent level } := by
  have hindent : { b.stored with indent := level } = stored { b with indent := level } := rfl
  rw [StoredBuffer.relevel, hindent, lineIsEmpty_stored, lineIsEmpty, Line.reindent]
  split
  · exact onLast_stored rfl
  · rfl

/-- An empty last line is removed in storage as it is removed. -/
theorem dropEmptyLine_stored (b : Buffer) : b.stored.dropEmptyLine = b.dropEmptyLine.stored := by
  rw [StoredBuffer.dropEmptyLine, dropEmptyLine, lineIsEmpty_stored, lineIsEmpty]
  cases hback : b.finished.back? with
  | none =>
    have hfinished : b.finished = #[] := Array.back?_eq_none_iff.mp hback
    have hsize : b.stored.lines.size = 1 := by simp [stored, hfinished]
    rw [hsize]
    rfl
  | some line =>
    obtain ⟨front, hfront⟩ := Array.back?_eq_some_iff.mp hback
    have hsize : 1 < b.stored.lines.size := by simp [stored, hfront]
    have hpop : b.stored.lines.pop = (front.map Line.stored).push line.stored := by
      simp [stored, hfront]
    simp only [hsize, decide_true, Bool.true_and, hpop]
    split
    · rw [hfront, Array.pop_push]
      rfl
    · rfl

/-- A buffer is appended in storage as it is appended. -/
theorem append_stored (b child : Buffer) :
    b.stored.append child.stored = (b.append child).stored := by
  have hjoin (l : Line) : (b.stored.onLast fun last => last.join l.stored) =
      stored { b with current := b.current.join l } :=
    onLast_stored (Line.stored_join b.current l).symm
  obtain ⟨⟨finished⟩, current, indent, unit, origin⟩ := child
  rw [StoredBuffer.append, lines_stored]
  cases finished with
  | nil =>
    simp only [lines, List.nil_append, List.map_cons, List.map_nil, hjoin,
      Array.appendList_nil]
    rfl
  | cons first rest =>
    simp only [lines, List.cons_append, List.map_cons, List.map_append, List.map_nil, hjoin]
    have hlines : (b.finished.map Line.stored).push (b.current.join first).stored ++
        (rest.map Line.stored ++ [current.stored]) =
        ((b.finished.push (b.current.join first) ++ rest).map Line.stored).push
          current.stored := by
      rw [← Array.toList_inj]
      simp
    simp only [stored, append, hlines]

end Buffer

namespace BufferEdit

/-- Does an edit. -/
def apply (b : Buffer) : BufferEdit → Buffer
  | .print text => b.print text
  | .println text => b.println text
  | .newline => b.newline
  | .deeper => b.deeper
  | .shallower => b.shallower
  | .dropEmptyLine => b.dropEmptyLine

/-- An edit is done in storage as it is done. -/
theorem perform_stored (edit : BufferEdit) (b : Buffer) :
    edit.perform b.stored = (edit.apply b).stored := by
  cases edit with
  | print text => exact b.print_stored text
  | println text =>
    rw [perform, StoredBuffer.println, b.print_stored text, Buffer.newline_stored]
    rfl
  | newline => exact b.newline_stored
  | deeper => exact b.relevel_stored (b.indent + 1)
  | shallower => exact b.relevel_stored (b.indent - 1)
  | dropEmptyLine => exact b.dropEmptyLine_stored

end BufferEdit

end SourceScribe
