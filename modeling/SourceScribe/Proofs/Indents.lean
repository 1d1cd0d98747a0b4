import SourceScribe.Proofs.Representation

/-!
# Empty lines and the level

The next text that is printed into an empty line begins at the level of the line, which
was noted when the line was begun. Every call on a buffer leaves an empty last line at
the level of the buffer, by noting it anew where the level changes, except for one: when
an empty line is removed, an empty line in front of it that was left at another level is
the last one again and keeps that level. So the last line follows the level throughout a
session if and only if no such line comes back.
-/

namespace SourceScribe

namespace Buffer

variable {b child : Buffer}

/-- The last line is at the level of the buffer as long as it is empty. -/
def AtLevel (b : Buffer) : Prop := b.current.isEmpty = true → b.current.indent = b.indent

/-- The last line is empty, and so is the one in front of it, which is at another level than
the buffer. -/
def Covers (b : Buffer) : Prop :=
  b.current.isEmpty = true ∧ ∃ line ∈ b.finished.back?, line.isEmpty = true ∧ line.indent ≠ b.indent

/-- Printed text leaves an empty line at the level. -/
theorem AtLevel.print (h : b.AtLevel) (text : String) : (b.print text).AtLevel := by
  unfold Buffer.print
  split
  next => exact h
  next => exact fun hempty => by simp [Line.isEmpty, Line.push] at hempty

/-- A new line is at the level. -/
theorem atLevel_newline (b : Buffer) : b.newline.AtLevel := fun _ => rfl

/-- An empty last line goes along to another level. -/
theorem atLevel_relevel (b : Buffer) (level : Nat) :
    AtLevel { b with indent := level, current := b.current.reindent level } := by
  intro hempty
  dsimp only at hempty ⊢
  unfold Line.reindent at hempty ⊢
  split
  next => rfl
  next hfull =>
    rw [if_neg hfull] at hempty
    exact absurd hempty hfull

/-- When an empty line is removed, the last line is at the level unless one at another level
comes back. -/
theorem AtLevel.dropEmptyLine_iff (h : b.AtLevel) : b.dropEmptyLine.AtLevel ↔ ¬ b.Covers := by
  unfold Buffer.dropEmptyLine Covers
  cases hback : b.finished.back? with
  | none => simpa using h
  | some line =>
    dsimp only
    split
    next hempty => simp [AtLevel, hempty]
    next hfull => simp [h, hfull]

/-- A buffer that is appended at the level leaves an empty line there. -/
theorem AtLevel.append (h : b.AtLevel) (hchild : child.AtLevel) (hlevel : child.indent = b.indent) :
    (b.append child).AtLevel := by
  unfold Buffer.append
  split
  next =>
    intro hempty
    have hboth : b.current.isEmpty = true ∧ child.current.isEmpty = true := by
      simpa [Line.isEmpty, Line.join] using hempty
    exact h hboth.1
  next => exact fun hempty => (hchild hempty).trans hlevel

end Buffer

namespace StoredBuffer

/-- The last line is empty, and so is the one in front of it, which is at another level than
the buffer. -/
def Covers (b : StoredBuffer) : Prop :=
  b.lineIsEmpty = true ∧ ∃ line ∈ b.lines.pop.back?, line.isEmpty = true ∧ line.indent ≠ b.indent

instance (b : StoredBuffer) : Decidable b.Covers := inferInstanceAs (Decidable (_ ∧ _))

/-- The next text begins at the level of the buffer. -/
structure StartsAtLevel (b : StoredBuffer) : Prop where
  /-- The last line is at the level. -/
  level : ∀ line ∈ b.lines.back?, line.indent = b.indent
  /-- The last line is as long as the indentation. -/
  length : b.lineLength = b.indent * b.unit.utf8ByteSize
  /-- Printed text stands behind the indentation. -/
  printed : ∀ text, text ≠ "" →
    (b.print text).lines.back?.map (StoredLine.text b.unit) =
      some (indentation b.unit b.indent ++ text)

end StoredBuffer

namespace Buffer

variable {b : Buffer}

/-- A line that is covered is covered in storage. -/
theorem covers_stored : b.stored.Covers ↔ b.Covers := by
  have hpop : b.stored.lines.pop = b.finished.map Line.stored := by simp [stored]
  have hlast {line : StoredLine} :
      line ∈ b.stored.lines.pop.back? ↔ ∃ l ∈ b.finished.back?, l.stored = line := by
    rw [hpop, Array.back?_map]
    exact Option.map_eq_some_iff
  constructor
  · rintro ⟨hempty, line, hline, hblank, hlevel⟩
    obtain ⟨l, hl, rfl⟩ := hlast.mp hline
    exact ⟨(lineIsEmpty_stored b).symm.trans hempty, l, hl, l.isEmpty_stored.symm.trans hblank,
      hlevel⟩
  · rintro ⟨hempty, l, hl, hblank, hlevel⟩
    exact ⟨(lineIsEmpty_stored b).trans hempty, l.stored, hlast.mpr ⟨l, hl, rfl⟩,
      l.isEmpty_stored.trans hblank, hlevel⟩

/-- A line at another level comes back when the one that covers it is removed. -/
theorem dropEmptyLine_of_covers (h : b.Covers) : b.stored.dropEmptyLine.lineIsEmpty = true ∧
    ¬ ∀ line ∈ b.stored.dropEmptyLine.lines.back?, line.indent = b.stored.indent := by
  obtain ⟨hempty, line, hline, hblank, hlevel⟩ := h
  have hdrop : b.dropEmptyLine = { b with finished := b.finished.pop, current := line } := by
    rw [dropEmptyLine, Option.mem_def.mp hline]
    simp only [hempty, if_true]
  rw [dropEmptyLine_stored, lineIsEmpty_stored, back?_stored, hdrop]
  exact ⟨hblank, fun h => hlevel (h line.stored rfl)⟩

/-- The next text begins at the level in storage if the last line is empty and at the level. -/
theorem startsAtLevel_stored (hmeasured : b.current.Measured) (hempty : b.current.isEmpty = true)
    (hlevel : b.current.indent = b.indent) : b.stored.StartsAtLevel where
  level := by
    rw [back?_stored]
    rintro _ ⟨⟩
    exact hlevel
  length := by
    have hparts : b.current.parts = #[] := Array.isEmpty_iff.mp hempty
    have hwidth : b.current.width = 0 := by rw [hmeasured, hparts]; rfl
    rw [lineLength_stored, lineLength, hwidth, hlevel]
    rfl
  printed text hne := by
    have hparts : b.current.parts = #[] := Array.isEmpty_iff.mp hempty
    have hfull : text.isEmpty = false := by
      simpa [String.isEmpty_iff] using hne
    rw [print_stored, back?_stored, Option.map_some, Line.text_stored, print,
      if_neg (by simp [hfull])]
    simp [Line.text, Line.push, Line.isEmpty, hparts, hlevel, stored]

end Buffer

namespace Store

variable {s : Store} {calls before : List BufferCall} {call : BufferCall} {r : StoredBuffer}

/-- Another call is carried out behind the others. -/
theorem run_concat (s : Store) (calls : List BufferCall) (call : BufferCall) :
    s.run (calls ++ [call]) = (s.run calls).perform call :=
  List.foldl_concat perform s call calls

/-- The buffer of a number that was changed. -/
theorem buffer?_modify (s : Store) (number : Nat) (change : StoredBuffer → StoredBuffer) :
    buffer? (s.modify number (Option.map change)) number = (s.buffer? number).map change := by
  rw [buffer?, buffer?, Array.getElem?_modify, if_pos rfl]
  cases s[number]? with
  | none => rfl
  | some b => rfl

/-- A buffer of a store in which that of a number was changed. -/
theorem mem_modify {number : Nat} {change : StoredBuffer → StoredBuffer}
    (h : some r ∈ s.modify number (Option.map change)) :
    some r ∈ s ∨ ∃ old, s.buffer? number = some old ∧ change old = r := by
  obtain ⟨i, hi, heq⟩ := Array.mem_iff_getElem.mp h
  rw [Array.getElem_modify] at heq
  have hsize : i < s.size := by simpa using hi
  split at heq
  next hnumber =>
    obtain ⟨old, hold, hr⟩ := Option.map_eq_some_iff.mp heq
    refine .inr ⟨old, ?_, hr⟩
    rw [buffer?, hnumber, Array.getElem?_eq_getElem hsize, hold]
    rfl
  next => exact .inl (heq ▸ Array.getElem_mem hsize)

/-- A buffer that is still there when another one was taken. -/
theorem buffer?_of_taken {number child : Nat}
    (h : buffer? (s.setIfInBounds child none) number = some r) : s.buffer? number = some r := by
  rw [buffer?, Array.getElem?_setIfInBounds] at h
  split at h
  next => split at h <;> cases h
  next => exact h

/-- What is appended has come back to the level of the buffer to which it is appended. -/
def Returns (s : Store) : BufferCall → Prop
  | .append target child =>
    ∀ b ∈ s.buffer? target, ∀ taken ∈ s.buffer? child, taken.indent = b.indent
  | _ => True

/-- No empty line that was left at another level is the last one again when the line that
covers it is removed. -/
def KeepsCovered (s : Store) : BufferCall → Prop
  | .edit target .dropEmptyLine => ∀ b ∈ s.buffer? target, ¬ b.Covers
  | _ => True

instance (s : Store) : DecidablePred s.Returns
  | .append target child => inferInstanceAs (Decidable
      (∀ b ∈ s.buffer? target, ∀ taken ∈ s.buffer? child, taken.indent = b.indent))
  | .ofIndent _ _ | .ofNode _ _ _ | .edit _ _ => .isTrue trivial

instance (s : Store) : DecidablePred s.KeepsCovered
  | .edit target .dropEmptyLine =>
    inferInstanceAs (Decidable (∀ b ∈ s.buffer? target, ¬ b.Covers))
  | .edit _ (.print _) | .edit _ (.println _) | .edit _ .newline | .edit _ .deeper
  | .edit _ .shallower | .ofIndent _ _ | .ofNode _ _ _ | .append _ _ => .isTrue trivial

/-- Something holds of every call and the store in which it is made. -/
def Throughout (P : Store → BufferCall → Prop) (calls : List BufferCall) : Prop :=
  ∀ n (h : n < calls.length), P (run #[] (calls.take n)) calls[n]

instance (P : Store → BufferCall → Prop) [∀ s, DecidablePred (P s)] (calls : List BufferCall) :
    Decidable (Throughout P calls) :=
  inferInstanceAs (Decidable (∀ n (h : n < calls.length), P (run #[] (calls.take n)) calls[n]))

/-- What holds throughout holds up to any moment. -/
theorem Throughout.take {P : Store → BufferCall → Prop} (h : Throughout P calls) (n : Nat) :
    Throughout P (calls.take n) := by
  intro m hm
  have hbound : m < n ∧ m < calls.length := by simpa [Nat.lt_min] using hm
  have hcall := h m hbound.2
  rwa [List.getElem_take, List.take_take, Nat.min_eq_left (Nat.le_of_lt hbound.1)]

/-- What holds throughout holds of the calls in front of the last, and of the last. -/
theorem Throughout.concat {P : Store → BufferCall → Prop} (h : Throughout P (calls ++ [call])) :
    Throughout P calls ∧ P (run #[] calls) call := by
  have hfront := h.take calls.length
  have hlast := h calls.length (by simp)
  rw [List.take_left] at hfront hlast
  rw [List.getElem_concat_length] at hlast
  · exact ⟨hfront, hlast⟩
  · rfl

/-- One call leaves empty last lines at the level of their buffers. -/
theorem atLevel_perform (h : ∀ r, some r ∈ run #[] calls → r.buffer.AtLevel)
    (hreturns : (run #[] calls).Returns call) (hkeeps : (run #[] calls).KeepsCovered call) :
    ∀ r, some r ∈ (run #[] calls).perform call → r.buffer.AtLevel := by
  have hpush {made : Buffer} (hmade : made.AtLevel) :
      ∀ r, some r ∈ (run #[] calls).push (some made.stored) → r.buffer.AtLevel := by
    intro r hr
    rcases Array.mem_push.mp hr with hr | hr
    · exact h r hr
    · rwa [Option.some.inj hr, made.buffer_stored]
  cases call with
  | ofIndent indent unit =>
    rw [perform, ← Buffer.stored_ofIndent]
    exact hpush fun _ => rfl
  | ofNode origin indent unit =>
    rw [perform, ← Buffer.stored_ofNode]
    exact hpush fun _ => rfl
  | edit target edit =>
    intro r hr
    rcases mem_modify hr with hr | ⟨old, hold, rfl⟩
    · exact h r hr
    · have hmem := mem_of_buffer? hold
      have hstored := stored_buffer hmem
      have hlevel := h old hmem
      rw [← hstored, edit.perform_stored, Buffer.buffer_stored]
      cases edit with
      | print text => exact hlevel.print text
      | println text => exact Buffer.atLevel_newline _
      | newline => exact Buffer.atLevel_newline _
      | deeper => exact old.buffer.atLevel_relevel _
      | shallower => exact old.buffer.atLevel_relevel _
      | dropEmptyLine =>
        have hcovers : ¬ old.buffer.stored.Covers := hstored.symm ▸ hkeeps old hold
        exact hlevel.dropEmptyLine_iff.mpr (Buffer.covers_stored.not.mp hcovers)
  | append target child =>
    rw [perform]
    cases htaken : buffer? (run #[] calls) child with
    | none => exact h
    | some taken =>
      intro r hr
      rcases mem_modify hr with hr | ⟨old, hold, rfl⟩
      · rcases Array.mem_or_eq_of_mem_setIfInBounds hr with hr | hr
        · exact h r hr
        · cases hr
      · have hold := buffer?_of_taken hold
        have hmem := mem_of_buffer? hold
        have hmemChild := mem_of_buffer? htaken
        have hsame := hreturns old hold taken htaken
        rw [← stored_buffer hmem, ← stored_buffer hmemChild, Buffer.append_stored,
          Buffer.buffer_stored]
        exact (h old hmem).append (h taken hmemChild) hsame

/-- Calls leave empty last lines at the level of their buffers. -/
theorem atLevel_run (hreturns : Throughout Returns calls) (hkeeps : Throughout KeepsCovered calls) :
    ∀ r, some r ∈ run #[] calls → r.buffer.AtLevel := by
  induction calls using List.reverseRecOn with
  | nil => exact forall_mem_empty
  | append_singleton calls call ih =>
    obtain ⟨hreturns, hreturnsLast⟩ := hreturns.concat
    obtain ⟨hkeeps, hkeepsLast⟩ := hkeeps.concat
    rw [run_concat]
    exact atLevel_perform (ih hreturns hkeeps) hreturnsLast hkeepsLast

/-- An empty last line that follows the level is as long as the indentation, and text that is
printed stands behind the indentation. -/
theorem startsAtLevel {b : StoredBuffer} (h : b.buffer.AtLevel) (hb : some b ∈ run #[] calls)
    (hempty : b.lineIsEmpty = true) : b.StartsAtLevel := by
  have hlasting := Line.lasting_measured fun _ => True
  obtain ⟨read, rfl, -, hlines⟩ := hlasting.kept.run forall_mem_empty (fun _ _ _ _ => trivial) b hb
  rw [Buffer.buffer_stored] at h
  rw [Buffer.lineIsEmpty_stored] at hempty
  exact Buffer.startsAtLevel_stored (hlines read.current (by simp [Buffer.lines])) hempty (h hempty)

/-- **Empty lines follow the level.** In a session in which what is appended has come back to
the level of the buffer to which it is appended, the next text in an empty last line begins
at exactly the level of its buffer, at every moment and in every buffer, if and only if no
empty line that was left at another level comes back when the one behind it is removed. -/
theorem empty_lines_follow_level {calls : List BufferCall} (hreturns : Throughout Returns calls) :
    (∀ n b, some b ∈ run #[] (calls.take n) → b.lineIsEmpty = true → b.StartsAtLevel) ↔
      Throughout KeepsCovered calls := by
  constructor
  · intro hstarts n hn
    have hnext : run #[] (calls.take (n + 1)) = (run #[] (calls.take n)).perform calls[n] := by
      rw [List.take_succ_eq_append_getElem hn, run_concat]
    cases hcall : calls[n] with
    | edit target edit =>
      cases edit with
      | dropEmptyLine =>
        intro b hb hcovers
        have hafter : (run #[] (calls.take (n + 1))).buffer? target = some b.dropEmptyLine := by
          rw [hnext, hcall, perform, buffer?_modify, hb]
          rfl
        have hstored := stored_buffer (mem_of_buffer? hb)
        have hread : b.buffer.Covers := Buffer.covers_stored.mp (hstored.symm ▸ hcovers)
        obtain ⟨hblank, hother⟩ := Buffer.dropEmptyLine_of_covers hread
        rw [hstored] at hblank hother
        have hindent : b.dropEmptyLine.indent = b.indent := by
          unfold StoredBuffer.dropEmptyLine
          split <;> rfl
        exact hother (hindent ▸ (hstarts _ _ (mem_of_buffer? hafter) hblank).level)
      | _ => trivial
    | _ => trivial
  · intro hkeeps n b hb hempty
    exact startsAtLevel (atLevel_run (hreturns.take n) (hkeeps.take n) b hb) hb hempty

/-- The block that is written into a buffer of its own leaves an empty line at its level, so
the text that is printed behind the block begins at the level. -/
theorem empty_lines_follow_level_appendedBlock :
    Throughout Returns appendedBlock ∧ Throughout KeepsCovered appendedBlock ∧
      ∃ b, (run #[] appendedBlock).buffer? 0 = some b ∧ b.lineIsEmpty = true ∧ b.StartsAtLevel := by
  have hreturns : Throughout Returns appendedBlock := by decide
  have hkeeps : Throughout KeepsCovered appendedBlock := by decide
  have hstarts := (empty_lines_follow_level hreturns).mpr hkeeps appendedBlock.length
  rw [List.take_length] at hstarts
  have hmem {b : StoredBuffer} (h : (run #[] appendedBlock).buffer? 0 = some b) :
      some b ∈ run #[] appendedBlock := mem_of_buffer? h
  exact ⟨hreturns, hkeeps, _, rfl, rfl, hstarts _ (hmem rfl) rfl⟩

/-- A line is begun at the level zero, and it is the last one again after the level has
become one. -/
def uncoveredLine : List BufferCall :=
  [.ofIndent 0 Buffer.defaultUnit, .edit 0 .newline, .edit 0 .deeper, .edit 0 .dropEmptyLine]

/-- The line that comes back is empty and not at the level, so the next text is not indented. -/
theorem removed_line_uncovers_level :
    Throughout Returns uncoveredLine ∧ ∃ b, (run #[] uncoveredLine).buffer? 0 = some b ∧
      b.lineIsEmpty = true ∧ b.indent * b.unit.utf8ByteSize = 4 ∧ b.lineLength = 0 ∧
      (b.print "a").source = "a" :=
  ⟨by decide, _, rfl, rfl, by decide, by decide, by decide⟩

end Store

end SourceScribe
