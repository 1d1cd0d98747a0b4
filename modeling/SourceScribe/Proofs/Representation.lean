import Mathlib.Algebra.GroupWithZero.Nat
import SourceScribe.Proofs.Alignment
import SourceScribe.Proofs.Building
import SourceScribe.Proofs.Delimiters
import SourceScribe.Proofs.Shifting
import SourceScribe.Proofs.Stored

/-!
# What can be relied on in storage

Whatever calls are made, every stored buffer is the stored form of a buffer: there is a
line, no part is empty, every part has its node, and the bytes are counted right. Where no
text holds a line end, the lines of a buffer are those of its text, nothing has been
written when the text is nothing but line ends, and the last line is as long as it is said
to be. All of it comes from what single lines keep when they are made, written on and
joined.
-/

namespace SourceScribe

namespace BufferEdit

/-- The texts that an edit prints. -/
def texts : BufferEdit → List String
  | .print text | .println text => [text]
  | _ => []

/-- An edit does not change the text of a level. -/
theorem unit_apply (edit : BufferEdit) (b : Buffer) : (edit.apply b).unit = b.unit := by
  cases edit with
  | print text => exact b.unit_print text
  | println text => exact b.unit_print text
  | dropEmptyLine =>
    rw [apply, Buffer.dropEmptyLine]
    split
    · rfl
    · split <;> rfl
  | _ => rfl

end BufferEdit

/-- What lines keep when they are made and written on, with texts of one kind. -/
structure Line.Lasting (allowed : String → Prop) (Q : Line → Prop) : Prop where
  /-- New lines have it. -/
  blank (indent : Nat) : Q { indent := indent }
  /-- A part leaves it. -/
  push {l : Line} {text : String} (origin : Option NodeId) :
    Q l → text ≠ "" → allowed text → Q (l.push ⟨text, origin⟩)
  /-- Joined lines have it. -/
  join {l other : Line} : Q l → Q other → Q (l.join other)
  /-- Another level leaves it. -/
  reindent {l : Line} (indent : Nat) : Q l → Q (l.reindent indent)

namespace Line.Lasting

variable {allowed : String → Prop} {Q : Line → Prop} {b : Buffer}

/-- Lines that are written on keep what two properties say. -/
theorem and {Q' : Line → Prop} (h : Lasting allowed Q) (h' : Lasting allowed Q') :
    Lasting allowed fun l => Q l ∧ Q' l where
  blank indent := ⟨h.blank indent, h'.blank indent⟩
  push origin hl hne hallowed :=
    ⟨h.push origin hl.1 hne hallowed, h'.push origin hl.2 hne hallowed⟩
  join hl hother := ⟨h.join hl.1 hother.1, h'.join hl.2 hother.2⟩
  reindent indent hl := ⟨h.reindent indent hl.1, h'.reindent indent hl.2⟩

/-- Text that is printed leaves what the lines have. -/
theorem print (h : Lasting allowed Q) (hb : ∀ l ∈ b.lines, Q l) {text : String}
    (htext : allowed text) : ∀ l ∈ (b.print text).lines, Q l := by
  unfold Buffer.print
  split
  next => exact hb
  next hne =>
    obtain ⟨hfinished, hcurrent⟩ := Buffer.forall_mem_lines.mp hb
    have hpushed : Q (b.current.push ⟨text, b.origin⟩) :=
      h.push b.origin hcurrent (fun hempty => hne (String.isEmpty_iff.mpr hempty)) htext
    exact Buffer.forall_mem_lines.mpr ⟨hfinished, hpushed⟩

/-- A new line has what the lines have. -/
theorem newline (h : Lasting allowed Q) (hb : ∀ l ∈ b.lines, Q l) : ∀ l ∈ b.newline.lines, Q l := by
  rw [Buffer.forall_mem_lines, Buffer.newline, Array.toList_push]
  exact ⟨hb, h.blank b.indent⟩

/-- Another level leaves what the lines have. -/
theorem relevel (h : Lasting allowed Q) (hb : ∀ l ∈ b.lines, Q l) (level : Nat) :
    ∀ l ∈ Buffer.lines { b with indent := level, current := b.current.reindent level }, Q l := by
  obtain ⟨hfinished, hcurrent⟩ := Buffer.forall_mem_lines.mp hb
  exact Buffer.forall_mem_lines.mpr ⟨hfinished, h.reindent level hcurrent⟩

/-- An edit leaves what the lines have. -/
theorem apply (h : Lasting allowed Q) (hb : ∀ l ∈ b.lines, Q l) {edit : BufferEdit}
    (htexts : ∀ text ∈ edit.texts, allowed text) : ∀ l ∈ (edit.apply b).lines, Q l := by
  cases edit with
  | print text => exact h.print hb (htexts text (by simp [BufferEdit.texts]))
  | println text => exact h.newline (h.print hb (htexts text (by simp [BufferEdit.texts])))
  | newline => exact h.newline hb
  | deeper => exact h.relevel hb (b.indent + 1)
  | shallower => exact h.relevel hb (b.indent - 1)
  | dropEmptyLine => exact fun l hl => hb l (Buffer.mem_lines_of_dropEmptyLine hl)

end Line.Lasting

namespace Line

/-- The number of bytes of the line is right. -/
def Measured (l : Line) : Prop :=
  l.width = (l.parts.toList.map fun part => part.text.utf8ByteSize).sum

/-- Lines keep that no part is empty. -/
theorem lasting_tidy (allowed : String → Prop) : Lasting allowed Tidy where
  blank := tidy_empty
  push _ hl hne _ := hl.push hne
  join := Tidy.join
  reindent indent hl := hl.reindent indent

/-- Lines keep that the number of their bytes is right. -/
theorem lasting_measured (allowed : String → Prop) : Lasting allowed Measured where
  blank indent := rfl
  push {l text} origin hl _ _ := by
    simp only [Measured, push] at hl ⊢
    simp [hl]
  join {l other} hl hother := by
    simp only [Measured, join] at hl hother ⊢
    simp [hl, hother]
  reindent {l} indent hl := by
    unfold Line.reindent
    split <;> exact hl

/-- Lines keep that no part holds a line end, if none is written. -/
theorem lasting_straight : Lasting (fun text => '\n' ∉ text.toList) Straight where
  blank indent := by simp [Straight]
  push {l text} origin hl _ htext := by
    simp only [Straight, push, Array.toList_push, List.forall_mem_append,
      List.forall_mem_singleton]
    exact ⟨hl, htext⟩
  join {l other} hl hother := by
    simp only [Straight, join, Array.toList_append, List.forall_mem_append]
    exact ⟨hl, hother⟩
  reindent {l} indent hl := by
    unfold Line.reindent
    split <;> exact hl

end Line

/-- The texts that a call prints or takes for a level. -/
def BufferCall.texts : BufferCall → List String
  | .ofIndent _ unit | .ofNode _ _ unit => [unit]
  | .edit _ change => change.texts
  | .append _ _ => []

namespace Store

/-- What stored buffers keep when calls are carried out with texts of one kind. -/
structure Kept (allowed : String → Prop) (P : StoredBuffer → Prop) : Prop where
  /-- New buffers have it. -/
  ofIndent (indent : Nat) {unit : String} : allowed unit → P (.ofIndent indent unit)
  /-- New buffers in which a node writes have it. -/
  ofNode (origin : NodeId) (indent : Nat) {unit : String} :
    allowed unit → P (.ofNode origin indent unit)
  /-- An edit leaves it. -/
  edit {b : StoredBuffer} {edit : BufferEdit} :
    (∀ text ∈ edit.texts, allowed text) → P b → P (edit.perform b)
  /-- A buffer to which another is appended keeps it if both have it. -/
  append {b child : StoredBuffer} : P b → P child → P (b.append child)

/-- A member of a store in which one was changed. -/
theorem mem_of_mem_modify {s : Store} {number : Nat}
    {change : Option StoredBuffer → Option StoredBuffer} {b : Option StoredBuffer}
    (h : b ∈ s.modify number change) : b ∈ s ∨ ∃ old ∈ s, b = change old := by
  obtain ⟨i, hi, rfl⟩ := Array.mem_iff_getElem.mp h
  rw [Array.getElem_modify]
  have hsize : i < s.size := by simpa using hi
  split
  · exact .inr ⟨s[i], Array.getElem_mem hsize, rfl⟩
  · exact .inl (Array.getElem_mem hsize)

/-- A buffer of a number is in the store. -/
theorem mem_of_buffer? {s : Store} {number : Nat} {b : StoredBuffer}
    (h : s.buffer? number = some b) : some b ∈ s := by
  rw [buffer?, Option.join_eq_some_iff] at h
  exact Array.mem_of_getElem? h

variable {allowed : String → Prop} {P : StoredBuffer → Prop} {s : Store} {call : BufferCall}
  {calls : List BufferCall}

/-- A change that leaves a property of one buffer leaves it to all. -/
theorem forall_mem_modify {number : Nat} {change : StoredBuffer → StoredBuffer}
    (hchange : ∀ b, P b → P (change b)) (hs : ∀ b, some b ∈ s → P b) :
    ∀ b, some b ∈ s.modify number (Option.map change) → P b := by
  intro b hb
  rcases mem_of_mem_modify hb with hb | ⟨old, hold, heq⟩
  · exact hs b hb
  · obtain ⟨before, rfl, rfl⟩ := Option.map_eq_some_iff.mp heq.symm
    exact hchange before (hs before hold)

/-- A call leaves what the buffers have. -/
theorem Kept.perform (h : Kept allowed P) (hs : ∀ b, some b ∈ s → P b)
    (hcall : ∀ text ∈ call.texts, allowed text) : ∀ b, some b ∈ s.perform call → P b := by
  have hpush {made : StoredBuffer} (hmade : P made) : ∀ b, some b ∈ s.push (some made) → P b := by
    intro b hb
    rcases Array.mem_push.mp hb with hb | hb
    · exact hs b hb
    · rw [Option.some.inj hb]
      exact hmade
  cases call with
  | ofIndent indent unit =>
    exact hpush (h.ofIndent indent (hcall unit (by simp [BufferCall.texts])))
  | ofNode origin indent unit =>
    exact hpush (h.ofNode origin indent (hcall unit (by simp [BufferCall.texts])))
  | edit target edit => exact forall_mem_modify (fun b hb => h.edit hcall hb) hs
  | append target child =>
    rw [Store.perform]
    cases htaken : s.buffer? child with
    | none => exact hs
    | some taken =>
      have hchild : P taken := hs taken (mem_of_buffer? htaken)
      have hrest : ∀ b, some b ∈ s.setIfInBounds child none → P b := by
        intro b hb
        rcases Array.mem_or_eq_of_mem_setIfInBounds hb with hb | hb
        · exact hs b hb
        · cases hb
      exact forall_mem_modify (fun b hb => h.append hb hchild) hrest

/-- Calls leave what the buffers have. -/
theorem Kept.run (h : Kept allowed P) (hs : ∀ b, some b ∈ s → P b)
    (hcalls : ∀ call ∈ calls, ∀ text ∈ call.texts, allowed text) :
    ∀ b, some b ∈ s.run calls → P b := by
  induction calls generalizing s with
  | nil => exact hs
  | cons call rest ih =>
    obtain ⟨hcall, hrest⟩ := List.forall_mem_cons.mp hcalls
    exact ih (h.perform hs hcall) hrest

end Store

/-- A stored buffer is the stored form of one whose lines have a property and whose text of
a level is of one kind. -/
def StoredBuffer.Stores (allowed : String → Prop) (Q : Line → Prop) (r : StoredBuffer) : Prop :=
  ∃ b : Buffer, b.stored = r ∧ allowed b.unit ∧ ∀ l ∈ b.lines, Q l

/-- What lines keep is kept by the lines of stored buffers. -/
theorem Line.Lasting.kept {allowed : String → Prop} {Q : Line → Prop} (h : Lasting allowed Q) :
    Store.Kept allowed (StoredBuffer.Stores allowed Q) where
  ofIndent indent unit hunit := by
    refine ⟨.ofIndent indent unit, Buffer.stored_ofIndent indent unit, hunit, ?_⟩
    rw [Buffer.forall_mem_lines]
    exact ⟨by simp [Buffer.ofIndent], h.blank indent⟩
  ofNode origin indent unit hunit := by
    refine ⟨.ofNode origin indent unit, Buffer.stored_ofNode origin indent unit, hunit, ?_⟩
    rw [Buffer.forall_mem_lines]
    exact ⟨by simp [Buffer.ofNode, Buffer.ofIndent], h.blank indent⟩
  edit {_ edit} htexts := by
    rintro ⟨b, rfl, hunit, hlines⟩
    exact ⟨edit.apply b, (edit.perform_stored b).symm, (edit.unit_apply b).symm ▸ hunit,
      h.apply hlines htexts⟩
  append := by
    rintro _ _ ⟨b, rfl, hunit, hlines⟩ ⟨child, rfl, -, hchild⟩
    exact ⟨b.append child, (b.append_stored child).symm, (b.unit_append child).symm ▸ hunit,
      Buffer.forall_mem_lines_append (fun _ _ => h.join) hlines hchild⟩

/-- What holds of the pieces between the places of a separator, and in between, holds of the
pieces. -/
theorem forall_mem_of_intercalate {P : Char → Prop} {separator : List Char}
    {pieces : List (List Char)} (h : ∀ c ∈ separator.intercalate pieces, P c) :
    ∀ piece ∈ pieces, ∀ c ∈ piece, P c := by
  induction pieces with
  | nil => simp
  | cons piece pieces ih =>
    cases pieces with
    | nil => simpa [List.intercalate] using h
    | cons next pieces =>
      rw [List.intercalate_cons_cons, List.forall_mem_append, List.forall_mem_append] at h
      exact List.forall_mem_cons.mpr ⟨h.1.1, ih h.2⟩

/-- Joined texts have the bytes of all of them. -/
theorem utf8ByteSize_join (texts : List String) :
    (String.join texts).utf8ByteSize = (texts.map String.utf8ByteSize).sum := by
  induction texts with
  | nil => rfl
  | cons text texts ih =>
    rw [String.join_cons, String.utf8ByteSize_append, ih, List.map_cons, List.sum_cons]

namespace Line

variable {l : Line}

/-- A line without parts has no text, and a tidy line without text has no parts. -/
theorem Tidy.text_eq_empty_iff (h : l.Tidy) (unit : String) :
    l.text unit = "" ↔ l.isEmpty = true := by
  unfold text
  split
  next hempty => simp [hempty]
  next hfull =>
    rw [String.append_eq_empty_iff]
    exact ⟨fun htext => h.isEmpty_iff.mpr htext.2, fun hempty => absurd hempty hfull⟩

/-- The text of a line that has parts is as long as its indentation and its parts. -/
theorem Measured.utf8ByteSize_text (h : l.Measured) (hfull : l.isEmpty = false) (unit : String) :
    (l.text unit).utf8ByteSize = l.indent * unit.utf8ByteSize + l.width := by
  have hparts : l.text unit =
      indentation unit l.indent ++ String.join (l.parts.toList.map Part.text) := by
    rw [text, hfull]
    rfl
  rw [hparts, String.utf8ByteSize_append, utf8ByteSize_indentation, utf8ByteSize_join, h,
    List.map_map]
  rfl

end Line

namespace Buffer

variable {b : Buffer}

/-- The characters of the text of a buffer are those of its lines, with line ends between
them. -/
theorem toList_source (b : Buffer) :
    b.source.toList = ['\n'].intercalate (b.lines.map fun l => (l.text b.unit).toList) := by
  rw [source, String.toList_intercalate, List.map_map]
  rfl

/-- The lines of the text of a straight buffer are its lines. -/
theorem Straight.splitOn_source (h : b.Straight) :
    b.source.toList.splitOn '\n' = b.lines.map fun l => (l.text b.unit).toList := by
  have hlines : ∀ piece ∈ b.lines.map fun l => (l.text b.unit).toList, '\n' ∉ piece := by
    simp only [List.forall_mem_map]
    exact fun l hl => (h.lines l hl).newline_not_mem h.unit
  rw [toList_source, List.splitOn_intercalate '\n' hlines (by simp [Buffer.lines])]

/-- Nothing has been written into a tidy and straight buffer when its text is nothing but
line ends. -/
theorem Straight.isEmpty_iff (h : b.Straight) (htidy : b.Tidy) :
    b.isEmpty = true ↔ ∀ c ∈ b.source.toList, c = '\n' := by
  rw [isEmpty, List.all_eq_true, toList_source]
  constructor
  · intro hempty
    apply forall_mem_intercalate (P := fun c => c = '\n') (List.forall_mem_singleton.mpr rfl)
    simp only [List.forall_mem_map]
    intro l hl
    rw [((htidy l hl).text_eq_empty_iff b.unit).mpr (hempty l hl)]
    simp
  · intro hends l hl
    have hline : ∀ c ∈ (l.text b.unit).toList, c = '\n' :=
      forall_mem_of_intercalate hends _ (List.mem_map_of_mem hl)
    have hstraight : '\n' ∉ (l.text b.unit).toList :=
      (h.lines l hl).newline_not_mem h.unit
    have hnone : (l.text b.unit).toList = [] := by
      apply List.eq_nil_iff_forall_not_mem.mpr
      intro c hc
      exact hstraight (hline c hc ▸ hc)
    exact ((htidy l hl).text_eq_empty_iff b.unit).mp (String.toList_eq_nil_iff.mp hnone)

end Buffer

namespace StoredBuffer

/-- The stored form of a buffer: there is a line, and what stands side by side in a line
fits together. -/
structure Sound (b : StoredBuffer) : Prop where
  /-- There is a line. -/
  lines : b.lines ≠ #[]
  /-- No line has to be made to write on. -/
  grounded : b.grounded = b
  /-- No part is empty. -/
  texts : ∀ l ∈ b.lines, ∀ text ∈ l.texts, text ≠ ""
  /-- Every part has its node. -/
  origins : ∀ l ∈ b.lines, l.origins.size = l.texts.size
  /-- The number of bytes is that of the parts. -/
  length : ∀ l ∈ b.lines, l.length = (l.texts.toList.map String.utf8ByteSize).sum

/-- What is said about a buffer can be read off its text. -/
structure Legible (b : StoredBuffer) : Prop where
  /-- The text has the lines of the buffer. -/
  lines : b.source.toList.splitOn '\n' = b.lines.toList.map fun l => (l.text b.unit).toList
  /-- The text has as many lines as the buffer. -/
  size : (b.source.toList.splitOn '\n').length = b.lines.size
  /-- Nothing has been written when the text is nothing but line ends. -/
  isEmpty : b.isEmpty = true ↔ ∀ c ∈ b.source.toList, c = '\n'
  /-- The last line is as long as the last line of the text. -/
  lineLength : b.lineIsEmpty = false →
    b.lineLength =
      (String.ofList ((b.source.toList.splitOn '\n').getLastD [])).utf8ByteSize

end StoredBuffer

namespace Buffer

variable {b : Buffer}

/-- The stored form of a tidy buffer with right numbers is sound. -/
theorem sound_stored (h : ∀ l ∈ b.lines, l.Tidy ∧ l.Measured) : b.stored.Sound where
  lines := by simp [stored]
  grounded := grounded_stored b
  texts := by
    intro r hr text htext
    obtain ⟨l, hl, rfl⟩ := mem_lines_stored.mp hr
    obtain ⟨part, hpart, rfl⟩ := Array.mem_map.mp htext
    exact (h l hl).1 part hpart
  origins := by
    intro r hr
    obtain ⟨l, -, rfl⟩ := mem_lines_stored.mp hr
    simp [Line.stored]
  length := by
    intro r hr
    obtain ⟨l, hl, rfl⟩ := mem_lines_stored.mp hr
    have hwidth : l.stored.length = l.width := rfl
    rw [hwidth, (h l hl).2]
    simp [Line.stored, Function.comp_def]

/-- The stored form of a straight buffer is legible. -/
theorem Straight.legible_stored (h : b.Straight) (hlines : ∀ l ∈ b.lines, l.Tidy ∧ l.Measured) :
    b.stored.Legible := by
  have hsplit : b.stored.source.toList.splitOn '\n' =
      b.lines.map fun l => (l.text b.unit).toList := by
    rw [source_stored, h.splitOn_source]
  have htexts : b.stored.lines.toList.map (fun r => (r.text b.unit).toList) =
      b.lines.map fun l => (l.text b.unit).toList := by
    rw [lines_stored, List.map_map]
    exact List.map_congr_left fun l _ => by rw [Function.comp_apply, Line.text_stored]
  refine ⟨?_, ?_, ?_, ?_⟩
  · rw [hsplit, ← htexts]
    rfl
  · rw [hsplit, List.length_map, ← Array.length_toList, lines_stored, List.length_map]
  · rw [isEmpty_stored, source_stored, h.isEmpty_iff fun l hl => (hlines l hl).1]
  · intro hfull
    rw [lineIsEmpty_stored] at hfull
    have hmeasured : b.current.Measured := (hlines b.current (by simp [Buffer.lines])).2
    have hlast : (b.lines.map fun l => (l.text b.unit).toList).getLastD [] =
        (b.current.text b.unit).toList := by
      rw [Buffer.lines, List.map_append, List.map_singleton, List.getLastD_concat]
    rw [hsplit, hlast, String.ofList_toList, hmeasured.utf8ByteSize_text hfull, lineLength_stored,
      lineLength]

end Buffer

namespace Store

variable {calls : List BufferCall}

/-- No buffer is stored at first. -/
theorem forall_mem_empty {P : StoredBuffer → Prop} : ∀ b, some b ∈ (#[] : Store) → P b := by
  simp

/-- Every stored buffer is the stored form of the buffer that is read from it. -/
theorem stored_buffer {b : StoredBuffer} (h : some b ∈ run #[] calls) : b.buffer.stored = b := by
  have hlasting := Line.lasting_tidy fun _ => True
  obtain ⟨read, rfl, -⟩ := hlasting.kept.run forall_mem_empty (fun _ _ _ _ => trivial) b h
  rw [Buffer.buffer_stored]

/-- Whatever calls are made, the stored buffers are sound. If no text that is printed or
taken for a level holds a line end, what is said about them can be read off their texts. -/
theorem storage_sound (calls : List BufferCall) :
    (∀ b, some b ∈ run #[] calls → b.Sound) ∧
      ((∀ call ∈ calls, ∀ text ∈ call.texts, '\n' ∉ text.toList) →
        ∀ b, some b ∈ run #[] calls → b.Legible) := by
  constructor
  · intro b hb
    have hlasting := (Line.lasting_tidy fun _ => True).and (Line.lasting_measured fun _ => True)
    obtain ⟨read, rfl, -, hlines⟩ :=
      hlasting.kept.run forall_mem_empty (fun _ _ _ _ => trivial) b hb
    exact Buffer.sound_stored hlines
  · intro htexts b hb
    have hlasting := ((Line.lasting_tidy fun text => '\n' ∉ text.toList).and
      (Line.lasting_measured _)).and Line.lasting_straight
    obtain ⟨read, rfl, hunit, hlines⟩ := hlasting.kept.run forall_mem_empty htexts b hb
    have hstraight : read.Straight := ⟨fun l hl => (hlines l hl).2, hunit⟩
    exact hstraight.legible_stored fun l hl => (hlines l hl).1

/-- A block that is written into a buffer of its own, with an empty line at its end, and
appended behind some text. -/
def appendedBlock : List BufferCall :=
  [.ofIndent 0 "  ", .edit 0 (.print "run "), .ofNode ⟨3⟩ 0 "  ", .edit 1 (.println "\x7b"),
    .edit 1 .deeper, .edit 1 (.print "stop;"), .edit 1 .newline, .edit 1 .shallower,
    .edit 1 .newline, .edit 1 .dropEmptyLine, .edit 1 (.println "\x7d"), .append 0 1,
    .edit 0 .newline]

/-- What is said about the buffer with the block can be read off its text. -/
theorem storage_sound_appendedBlock :
    (∀ call ∈ appendedBlock, ∀ text ∈ call.texts, '\n' ∉ text.toList) ∧
      ∃ b, (run #[] appendedBlock).buffer? 0 = some b ∧
        b.source = "run \x7b\n  stop;\n\x7d\n\n" ∧ b.Sound ∧ b.Legible := by
  have htexts : ∀ call ∈ appendedBlock, ∀ text ∈ call.texts, '\n' ∉ text.toList := by decide
  have hmem {b : StoredBuffer} (h : (run #[] appendedBlock).buffer? 0 = some b) :
      some b ∈ run #[] appendedBlock := mem_of_buffer? h
  refine ⟨htexts, _, rfl, by decide, ?_, ?_⟩
  · exact (storage_sound appendedBlock).1 _ (hmem rfl)
  · exact (storage_sound appendedBlock).2 htexts _ (hmem rfl)

end Store

end SourceScribe
