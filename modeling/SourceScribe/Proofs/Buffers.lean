import SourceScribe.Proofs.Layouts

/-!
# Buffers as pages

The page of a buffer is what remains of it when nothing is known any more of
who wrote which part. What a node does to its buffer extends the page by a
layout at the level of the buffer, and a child that is appended extends it by
the layout that the child has written. No part of a buffer is empty, so the
lines without parts are the empty rows.
-/

namespace SourceScribe

namespace Line

/-- The row of a line. -/
def row (l : Line) : Row := ⟨l.indent, String.join (l.parts.toList.map Part.text)⟩

/-- No part of the line is empty. -/
def Tidy (l : Line) : Prop := ∀ part ∈ l.parts, part.text ≠ ""

/-- A part is added to the row. -/
theorem row_push (l : Line) (part : Part) :
    (l.push part).row = ⟨l.indent, l.row.text ++ part.text⟩ := by
  simp only [row, push, Array.toList_push, List.map_append, List.map_cons, List.map_nil,
    String.join_append, String.join_cons, String.join_nil, String.append_empty]

/-- The parts of another line are added to the row. -/
theorem row_join (l other : Line) :
    (l.join other).row = ⟨l.indent, l.row.text ++ other.row.text⟩ := by
  simp only [row, join, Array.toList_append, List.map_append, String.join_append]

/-- A line without parts is an empty row. -/
theorem row_text_of_isEmpty {l : Line} (h : l.isEmpty = true) : l.row.text = "" := by
  have hparts : l.parts = #[] := by simpa only [isEmpty, Array.isEmpty_iff] using h
  simp only [row, hparts, List.map_nil, String.join_nil]

/-- A tidy line has an empty row exactly when it has no parts. -/
theorem Tidy.isEmpty_iff {l : Line} (h : l.Tidy) : l.isEmpty = true ↔ l.row.text = "" := by
  constructor
  · exact row_text_of_isEmpty
  · intro ht
    cases hp : l.parts.toList with
    | nil => simpa only [isEmpty, Array.isEmpty_iff, Array.toList_eq_nil_iff] using hp
    | cons part rest =>
      have hpart : part.text ≠ "" := h part (by rw [← Array.mem_toList_iff, hp]; simp)
      simp only [row, hp, List.map_cons, String.join_cons, String.append_eq_empty_iff] at ht
      exact absurd ht.1 hpart

/-- A tidy line is shown like its row. -/
theorem Tidy.text_eq {l : Line} (h : l.Tidy) (unit : String) : l.text unit = l.row.source unit := by
  unfold text Row.source
  by_cases he : l.isEmpty = true
  · rw [if_pos he, if_pos (h.isEmpty_iff.mp he)]
  · rw [if_neg he, if_neg (fun ht => he (h.isEmpty_iff.mpr ht))]
    rfl

/-- A line without parts is tidy. -/
theorem tidy_empty (indent : Nat) : Tidy { indent := indent } := by
  intro part hpart
  simp at hpart

/-- A part that is not empty keeps a line tidy. -/
theorem Tidy.push {l : Line} (h : l.Tidy) {part : Part} (hpart : part.text ≠ "") :
    (l.push part).Tidy := by
  intro p hp
  rcases Array.mem_push.mp hp with hp | rfl
  · exact h p hp
  · exact hpart

/-- The parts of a tidy line keep a line tidy. -/
theorem Tidy.join {l other : Line} (h : l.Tidy) (ho : other.Tidy) : (l.join other).Tidy := by
  intro p hp
  rcases Array.mem_append.mp hp with hp | hp
  · exact h p hp
  · exact ho p hp

/-- Another indentation keeps a line tidy. -/
theorem Tidy.reindent {l : Line} (h : l.Tidy) (indent : Nat) : (l.reindent indent).Tidy := by
  unfold Line.reindent
  split
  · exact h
  · exact h

end Line

namespace Buffer

/-- The page of a buffer. -/
def page (b : Buffer) : Page := ⟨b.finished.toList.map Line.row, b.current.row⟩

/-- No part of the buffer is empty. -/
def Tidy (b : Buffer) : Prop := ∀ l ∈ b.lines, l.Tidy

/-- A buffer has been extended by a layout. -/
structure Extends (b : Buffer) (l : Layout) (b' : Buffer) : Prop where
  /-- The layout has been written on its page. -/
  page : b.Tidy → b'.page = l.write b.indent b.page
  /-- The level of indentation is the same. -/
  indent : b'.indent = b.indent
  /-- The text of one level of indentation is the same. -/
  unit : b'.unit = b.unit
  /-- No empty part has been added. -/
  tidy : b.Tidy → b'.Tidy

variable {b b₁ b₂ : Buffer} {l l₁ l₂ : Layout}

section Lines

variable {Q : Line → Prop} {child : Buffer}

/-- All lines of a buffer are those in front of the last, and the last. -/
theorem forall_mem_lines :
    (∀ l ∈ b.lines, Q l) ↔ (∀ l ∈ b.finished.toList, Q l) ∧ Q b.current := by
  rw [lines, List.forall_mem_append, List.forall_mem_singleton]

/-- What lines keep when they are joined, buffers keep when one is appended. -/
theorem forall_mem_lines_append (hjoin : ∀ l other, Q l → Q other → Q (l.join other))
    (hb : ∀ l ∈ b.lines, Q l) (hchild : ∀ l ∈ child.lines, Q l) :
    ∀ l ∈ (b.append child).lines, Q l := by
  obtain ⟨hfinished, hcurrent⟩ := forall_mem_lines.mp hb
  obtain ⟨hfront, hlast⟩ := forall_mem_lines.mp hchild
  unfold append
  cases hlines : child.finished.toList with
  | nil => exact forall_mem_lines.mpr ⟨hfinished, hjoin _ _ hcurrent hlast⟩
  | cons first rest =>
    rw [hlines, List.forall_mem_cons] at hfront
    rw [forall_mem_lines]
    simp only [Array.toList_appendList, Array.toList_push, List.forall_mem_append,
      List.forall_mem_singleton]
    exact ⟨⟨⟨hfinished, hjoin _ _ hcurrent hfront.1⟩, hfront.2⟩, hlast⟩

end Lines

/-- The last line of a tidy buffer is tidy. -/
theorem Tidy.current (h : b.Tidy) : b.current.Tidy := (forall_mem_lines.mp h).2

/-- The other lines of a tidy buffer are tidy. -/
theorem Tidy.finished (h : b.Tidy) : ∀ line ∈ b.finished.toList, line.Tidy :=
  (forall_mem_lines.mp h).1

/-- A buffer with tidy lines is tidy. -/
theorem tidy_of_lines (hf : ∀ line ∈ b.finished.toList, line.Tidy) (hc : b.current.Tidy) :
    b.Tidy := forall_mem_lines.mpr ⟨hf, hc⟩

/-- The text of a tidy buffer is that of its page. -/
theorem Tidy.source_eq (h : b.Tidy) : b.source = b.page.source b.unit := by
  unfold source Page.source
  have hrows : b.page.above ++ [b.page.last] = b.lines.map Line.row := by
    simp only [page, lines, List.map_append, List.map_cons, List.map_nil]
  rw [hrows, List.map_map]
  congr 1
  apply List.map_congr_left
  intro line hl
  exact (h line hl).text_eq b.unit

/-- A new buffer is a blank page. -/
theorem page_ofNode (id : NodeId) (indent : Nat) (unit : String) :
    (ofNode id indent unit).page = Page.blank indent := rfl

/-- A new buffer is tidy. -/
theorem tidy_ofNode (id : NodeId) (indent : Nat) (unit : String) : (ofNode id indent unit).Tidy :=
  tidy_of_lines (by simp [ofNode, ofIndent]) (Line.tidy_empty indent)

/-- The lines of an appended buffer join those of the other. -/
theorem Tidy.append {child : Buffer} (hb : b.Tidy) (hc : child.Tidy) : (b.append child).Tidy :=
  forall_mem_lines_append (fun _ _ hl hother => hl.join hother) hb hc

namespace Extends

/-- Nothing extends a buffer by nothing. -/
theorem refl (b : Buffer) : b.Extends [] b := ⟨fun _ => rfl, rfl, rfl, id⟩

/-- Extensions come one after the other. -/
theorem trans (h : b.Extends l₁ b₁) (h' : b₁.Extends l₂ b₂) : b.Extends (l₁ ++ l₂) b₂ where
  page hb := by rw [h'.page (h.tidy hb), h.page hb, h.indent, Layout.write_append]
  indent := h'.indent.trans h.indent
  unit := h'.unit.trans h.unit
  tidy hb := h'.tidy (h.tidy hb)

/-- What a new buffer at the left margin has been extended by is its text. -/
theorem source_eq {id : NodeId} {unit : String} (h : (ofNode id 0 unit).Extends l b) :
    b.source = l.source unit := by
  have htidy := tidy_ofNode id 0 unit
  have hpage := h.page htidy
  rw [(h.tidy htidy).source_eq, hpage, h.unit]
  rfl

/-- Text extends a buffer by itself. -/
theorem print (b : Buffer) (value : String) : b.Extends (.str value) (b.print value) := by
  unfold Buffer.print
  by_cases hv : value.isEmpty = true
  · rw [if_pos hv, String.isEmpty_iff.mp hv]
    refine ⟨fun _ => ?_, rfl, rfl, id⟩
    simp only [Layout.str, Layout.write, List.foldl_cons, List.foldl_nil, Stroke.write,
      String.append_empty]
  · rw [if_neg hv]
    refine ⟨fun _ => ?_, rfl, rfl, ?_⟩
    · simp only [Buffer.page, Line.row_push]
      rfl
    · intro hb
      have hne : value ≠ "" := fun he => hv (String.isEmpty_iff.mpr he)
      exact tidy_of_lines hb.finished (hb.current.push hne)

/-- A line end extends a buffer by itself. -/
theorem newline (b : Buffer) : b.Extends .newline b.newline where
  page _ := by
    simp only [Buffer.newline, Buffer.page, Array.toList_push, List.map_append, List.map_cons,
      List.map_nil]
    rfl
  indent := rfl
  unit := rfl
  tidy hb := by
    refine tidy_of_lines ?_ (Line.tidy_empty b.indent)
    intro line hl
    simp only [Buffer.newline, Array.toList_push, List.mem_append, List.mem_singleton] at hl
    rcases hl with hl | rfl
    · exact hb.finished line hl
    · exact hb.current

/-- A child extends a buffer by what it has written into a buffer of its own. -/
theorem append {id : NodeId} {child : Buffer}
    (h : (Buffer.ofNode id b.indent b.unit).Extends l child) : b.Extends l (b.append child) := by
  have htidy : child.Tidy := h.tidy (tidy_ofNode id b.indent b.unit)
  have hpage : (b.append child).page = b.page.append child.page := by
    unfold Buffer.append Page.append Buffer.page
    cases child.finished.toList with
    | nil =>
      simp only [List.map_nil, Line.row_join]
      rfl
    | cons first rest =>
      simp only [Array.toList_appendList, Array.toList_push, List.map_append, List.map_cons,
        Line.row_join, List.append_assoc, List.cons_append, List.nil_append]
      rfl
  refine ⟨fun _ => ?_, ?_, ?_, ?_⟩
  · rw [hpage, h.page (tidy_ofNode id b.indent b.unit), page_ofNode, Page.append_write,
      Page.append_blank]
    rfl
  · unfold Buffer.append
    split <;> rfl
  · unfold Buffer.append
    split <;> rfl
  · exact fun hb => hb.append htidy

end Extends

/-- A line end behind which a buffer goes one level in. -/
theorem page_println_deeper (hb : b.Tidy) (value : String) :
    (b.println value).deeper.page =
      Layout.write b.indent (.str value ++ Layout.nest 1 .newline) b.page := by
  have hp := (Extends.print b value).page hb
  have hi := (Extends.print b value).indent
  rw [Layout.write_append, ← hp]
  simp only [println, newline, deeper, hi, page, Array.toList_push, List.map_append, List.map_cons,
    List.map_nil]
  rfl

/-- A tidy buffer that goes one level out on an empty row takes it along. -/
theorem page_shallower (hb : b.Tidy) (hempty : b.page.last.text = "") :
    b.shallower.page = ⟨b.page.above, ⟨b.indent - 1, ""⟩⟩ := by
  have hparts : b.current.isEmpty = true := hb.current.isEmpty_iff.mpr hempty
  have hrow : (b.current.reindent (b.indent - 1)).row = ⟨b.indent - 1, b.current.row.text⟩ := by
    rw [Line.reindent, if_pos hparts]
    rfl
  change Page.mk (b.finished.toList.map Line.row) (b.current.reindent (b.indent - 1)).row = _
  rw [hrow]
  exact congrArg (fun text => Page.mk b.page.above ⟨b.indent - 1, text⟩) hempty

/-- Another level of indentation keeps a buffer tidy. -/
theorem Tidy.reindent (hb : b.Tidy) (indent : Nat) :
    Tidy { b with indent := indent, current := b.current.reindent indent } :=
  tidy_of_lines hb.finished (hb.current.reindent indent)

/-- Rows between braces are written one level further in, and the closing brace
at the level of the opening one. -/
theorem Extends.braces {ls : List Layout}
    (h : (b.println "\x7b").deeper.Extends (Layout.rows ls) b₁) :
    b.Extends (Layout.braces ls) (b₁.shallower.print "\x7d") := by
  have hopen : b.Extends (.str "\x7b" ++ .newline) (b.println "\x7b") :=
    (Extends.print b "\x7b").trans (Extends.newline (b.print "\x7b"))
  have hdeeper : (b.println "\x7b").deeper.indent = b.indent + 1 := by
    rw [← hopen.indent]
    rfl
  have hindent : b₁.shallower.indent = b.indent := by
    change b₁.indent - 1 = b.indent
    rw [h.indent, hdeeper, Nat.add_sub_cancel]
  have hclose : b₁.shallower.Extends (.str "\x7d") (b₁.shallower.print "\x7d") :=
    Extends.print b₁.shallower "\x7d"
  have htidy : b.Tidy → b₁.Tidy := fun hb => h.tidy ((hopen.tidy hb).reindent _)
  refine ⟨?_, hclose.indent.trans hindent, ?_, fun hb => hclose.tidy ((htidy hb).reindent _)⟩
  · intro hb
    -- the page up to the last row
    let members : Page := Layout.write b.indent
      (.str "\x7b" ++ ls.flatMap fun l => Layout.nest 1 (.newline ++ l)) b.page
    have hrows : b₁.page = Layout.write b.indent (Layout.nest 1 .newline) members := by
      rw [h.page ((hopen.tidy hb).reindent _), hdeeper, ← Layout.write_nest, page_println_deeper hb,
        ← Layout.write_append, ← Layout.write_append, List.append_assoc, ← Layout.nest_append,
        Layout.nest_rows, List.append_assoc]
    have hempty : b₁.page.last.text = "" := by
      rw [hrows]
      rfl
    have hlast : b₁.shallower.page = Layout.write b.indent .newline members := by
      rw [page_shallower (htidy hb) hempty, h.indent, hdeeper, hrows]
      rfl
    rw [hclose.page ((htidy hb).reindent _), hindent, hlast, ← Layout.write_append,
      ← Layout.write_append, Layout.braces, List.append_assoc, List.append_assoc, List.append_assoc]
  · rw [hclose.unit]
    exact h.unit.trans hopen.unit

end Buffer

end SourceScribe
