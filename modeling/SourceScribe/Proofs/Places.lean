import Mathlib.Algebra.GroupWithZero.Nat
import SourceScribe.Proofs.Building
import SourceScribe.Proofs.Recordings

/-!
# Where the parts of a buffer stand

A part of a buffer stands in a line, behind the indentation of the line and the
parts in front of it. The spots of a buffer are the parts whose nodes were read
somewhere, with the line and the column at which they begin. The main result is
that a map can be made of every buffer that operations have built, as long as the
columns of its lines can be counted in words, and that it takes down the spots in
order, except for those that were read where the spot in front of them was read.
-/

namespace SourceScribe

/-- A part of a buffer whose node was read somewhere. -/
structure Spot where
  /-- The number of the line in the buffer. -/
  line : Nat
  /-- The column at which the part begins, in bytes. -/
  column : Nat
  /-- Where the node was read. -/
  position : SourcePosition
deriving DecidableEq, Repr

namespace Spot

/-- The spots that were read elsewhere than the one in front of them. -/
def changes : Option SourcePosition → List Spot → List Spot
  | _, [] => []
  | last, s :: rest =>
    (if last = some s.position then [] else [s]) ++ changes (some s.position) rest

/-- Where the last spot was read, if there is one. -/
def lastPosition (last : Option SourcePosition) (spots : List Spot) : Option SourcePosition :=
  spots.foldl (fun _ s => some s.position) last

/-- The segment of a spot, in a file of the given name. -/
def segment (url : String) (s : Spot) : Segment :=
  ⟨s.column, some ⟨url, s.position.line, s.position.column⟩⟩

/-- What has changed behind some spots depends on the last of them. -/
theorem changes_append (last : Option SourcePosition) (spots more : List Spot) :
    changes last (spots ++ more) =
      changes last spots ++ changes (lastPosition last spots) more := by
  induction spots generalizing last with
  | nil => rfl
  | cons s spots ih =>
    rw [List.cons_append, changes, changes, ih, List.append_assoc]
    rfl

end Spot

namespace Line

/-- Parts with the columns at which they begin, the first of them at a given
one. -/
def columnsFrom : Nat → List Part → List (Nat × Part)
  | _, [] => []
  | column, p :: rest => (column, p) :: columnsFrom (column + p.text.utf8ByteSize) rest

/-- The parts of a line with the columns at which they begin. -/
def columns (unit : String) (l : Line) : List (Nat × Part) :=
  columnsFrom (l.indent * unit.utf8ByteSize) l.parts.toList

end Line

/-- Where the node of a part was read. -/
def Part.position? (ast : Ast) (p : Part) : Option SourcePosition := p.origin.bind ast.position?

/-- The spot of a part that begins at a column of a line. -/
def Spot.ofPart? (ast : Ast) (line : Nat) (p : Nat × Part) : Option Spot :=
  (p.2.position? ast).map fun position => ⟨line, p.1, position⟩

/-- The spots of a buffer, in order. -/
def Buffer.spots (b : Buffer) (ast : Ast) : List Spot :=
  b.lines.zipIdx.flatMap fun (l, number) => (l.columns b.unit).filterMap (Spot.ofPart? ast number)

namespace SourceMap

/-- The segments of lines, each with the number of its line, when the first line
has a given number. -/
def numberedFrom (number : Nat) (lines : List (List Segment)) : List (Nat × Segment) :=
  (lines.zipIdx number).flatMap fun (segments, number) => segments.map fun s => (number, s)

/-- The segments of lines, each with the number of its line. -/
def numbered (lines : List (List Segment)) : List (Nat × Segment) := numberedFrom 0 lines

/-- The columns of each line increase. -/
def Rising (lines : List (List Segment)) : Prop :=
  ∀ segments ∈ lines, (segments.map Segment.column).Pairwise (· < ·)

/-- The last line has the last number. -/
theorem numbered_concat (lines : List (List Segment)) (segments : List Segment) :
    numbered (lines ++ [segments]) = numbered lines ++ segments.map fun s => (lines.length, s) := by
  simp [numbered, numberedFrom, List.zipIdx_append]

/-- Columns increase in all lines and in the last one. -/
theorem rising_concat {lines : List (List Segment)} {segments : List Segment} :
    Rising (lines ++ [segments]) ↔
      Rising lines ∧ (segments.map Segment.column).Pairwise (· < ·) := by
  simp [Rising, or_imp, forall_and]

namespace Recorder

variable {r : Recorder}

/-- The lines of a recorder that has a last one. -/
theorem lines_of_current {segments : Array Segment} (h : r.current = some segments) :
    r.lines = r.finished.toList.map Array.toList ++ [segments.toList] := by
  rw [lines, h]
  simp

/-- A new line is the last. -/
theorem lines_addLine (r : Recorder) : r.addLine.lines = r.lines ++ [[]] := by
  unfold addLine lines
  cases r.current <;> simp

/-- A source changes no line, and is known afterwards. -/
theorem addSource_spec (r : Recorder) (url : String) (content : Option String) :
    (r.addSource url content).finished = r.finished ∧
      (r.addSource url content).current = r.current ∧
      (r.addSource url content).lastColumn = r.lastColumn ∧
      ((r.addSource url content).sources.lookup url).isSome = true := by
  unfold addSource
  split
  next h => exact ⟨rfl, rfl, rfl, h⟩
  next => exact ⟨rfl, rfl, rfl, lookup_isSome_iff.mpr (by simp)⟩

/-- A source adds no other. -/
theorem of_mem_sources_addSource {url : String} {content : Option String}
    {source : String × Option String} (h : source ∈ (r.addSource url content).sources) :
    source ∈ r.sources ∨ source.1 = url := by
  unfold addSource at h
  split at h
  · exact .inl h
  · rcases List.mem_append.mp h with h | h
    · exact .inl h
    · exact .inr (List.mem_singleton.mp h ▸ rfl)

/-- A segment with a place in a new source is accepted unless it lies in front of
the last one. -/
theorem addMapping_addSource {segments : Array Segment} (h : r.current = some segments)
    {column : Nat} (hc : r.lastColumn ≤ column) (file : SourceFile) (position : SourcePosition) :
    (r.addSource file.url file.content).addMapping column (some file.url) (some position.line)
        (some position.column) =
      .ok ((r.addSource file.url file.content).pushed segments
        ⟨column, some ⟨file.url, position.line, position.column⟩⟩) := by
  obtain ⟨_, hcurrent, hlast, hknown⟩ := r.addSource_spec file.url file.content
  rw [addMapping_of_le (hcurrent.trans h) (hlast ▸ hc), origin, if_pos hknown]
  rfl

/-- The segment that is accepted is the last of the last line. -/
theorem lines_addSource_pushed {segments : Array Segment} (file : SourceFile) (s : Segment) :
    ((r.addSource file.url file.content).pushed segments s).lines =
      r.finished.toList.map Array.toList ++ [segments.toList ++ [s]] := by
  obtain ⟨hfinished, _, _, _⟩ := r.addSource_spec file.url file.content
  have hpushed : ((r.addSource file.url file.content).pushed segments s).current =
      some (segments.push s) := rfl
  rw [lines_of_current hpushed, Array.toList_push]
  change (r.addSource file.url file.content).finished.toList.map Array.toList ++ _ = _
  rw [hfinished]

end Recorder

end SourceMap

namespace Tracking

open SourceMap

/-- A recorder that is ready for a part at a column of the line of a number. -/
structure Ready (t : Tracking) (number column : Nat) : Prop where
  /-- The recorder is one that calls have made. -/
  keeps : ∃ l, t.recorder.Keeps l
  /-- The segments of the last line lie in front of the column. -/
  current : ∃ segments, t.recorder.current = some segments ∧
    ∀ s ∈ segments.toList, s.column < column
  /-- The last line has the number. -/
  length : t.recorder.lines.length = number + 1
  /-- The columns of each line increase. -/
  rising : Rising t.recorder.lines

/-- Spots have been taken down behind what there was, with some lines in front of
those of the buffer. -/
structure Adds (t : Tracking) (url : String) (before : Nat) (spots : List Spot) (t' : Tracking) :
    Prop where
  /-- The last place is that of the last spot. -/
  last : t'.last = Spot.lastPosition t.last spots
  /-- The changes among the spots are the new segments. -/
  numbered : numbered t'.recorder.lines = numbered t.recorder.lines ++
    (Spot.changes t.last spots).map fun s => (before + s.line, s.segment url)
  /-- No other source was added. -/
  sources : ∀ source ∈ t'.recorder.sources, source ∈ t.recorder.sources ∨ source.1 = url

variable {t t₁ t₂ : Tracking} {url : String} {before number column : Nat} {ast : Ast}
  {file : SourceFile}

/-- Without spots nothing is taken down. -/
theorem Adds.refl (t : Tracking) : t.Adds url before [] t :=
  ⟨rfl, (List.append_nil _).symm, fun _ => .inl⟩

/-- Spots are taken down one after the other. -/
theorem Adds.trans {spots more : List Spot} (h : t.Adds url before spots t₁)
    (h' : t₁.Adds url before more t₂) : t.Adds url before (spots ++ more) t₂ where
  last := by rw [h'.last, h.last, Spot.lastPosition, Spot.lastPosition, Spot.lastPosition,
    List.foldl_append]
  numbered := by rw [h'.numbered, h.numbered, h.last, Spot.changes_append, List.map_append,
    List.append_assoc]
  sources source hs := (h'.sources source hs).elim (h.sources source) .inr

/-- A recorder that is ready for a part is ready for a later one. -/
theorem Ready.mono (h : t.Ready number column) {column' : Nat} (hle : column ≤ column') :
    t.Ready number column' := by
  obtain ⟨segments, hcurrent, hbelow⟩ := h.current
  exact { h with current := ⟨segments, hcurrent, fun s hs => Nat.lt_of_lt_of_le (hbelow s hs) hle⟩ }

/-- A recorder that is ready takes down a spot in a known file. -/
theorem Ready.take (h : t.Ready (before + number) column) (file : SourceFile)
    (position : SourcePosition) (hlast : t.last ≠ some position) {next : Nat}
    (hnext : column < next) :
    ∃ r, (t.recorder.addSource file.url file.content).addMapping column (some file.url)
        (some position.line) (some position.column) = .ok r ∧
      Ready ⟨r, some position⟩ (before + number) next ∧
      t.Adds file.url before [⟨number, column, position⟩] ⟨r, some position⟩ := by
  obtain ⟨l, hkeeps⟩ := h.keeps
  obtain ⟨segments, hcurrent, hbelow⟩ := h.current
  have hcolumn : t.recorder.lastColumn ≤ column :=
    (hkeeps.column segments hcurrent column).mp fun s hs => Nat.le_of_lt (hbelow s hs)
  have haccepted := Recorder.addMapping_addSource hcurrent hcolumn file position
  have hperformed := (hkeeps.addSource file.url file.content).perform
    (.mapping column (some file.url) (some position.line) (some position.column))
  rw [Recorder.perform, haccepted] at hperformed
  have holdlines := Recorder.lines_of_current hcurrent
  have hlength := h.length
  have hrising := h.rising
  rw [holdlines, rising_concat] at hrising
  rw [holdlines, List.length_append, List.length_singleton, Nat.add_right_cancel_iff] at hlength
  refine ⟨_, haccepted, ⟨⟨_, hperformed⟩, ⟨_, rfl, ?_⟩, ?_, ?_⟩, rfl, ?_,
    fun source hs => Recorder.of_mem_sources_addSource hs⟩
  · intro s hs
    rw [Array.toList_push, List.mem_append, List.mem_singleton] at hs
    rcases hs with hs | rfl
    · exact Nat.lt_trans (hbelow s hs) hnext
    · exact hnext
  · rw [Recorder.lines_addSource_pushed, List.length_append, List.length_singleton, hlength]
  · rw [Recorder.lines_addSource_pushed, rising_concat, List.map_append, List.pairwise_append]
    refine ⟨hrising.1, hrising.2, List.pairwise_singleton _ _, ?_⟩
    intro a ha b hb
    obtain ⟨s, hs, rfl⟩ := List.mem_map.mp ha
    rw [List.mem_singleton.mp hb]
    exact hbelow s hs
  · rw [Recorder.lines_addSource_pushed, holdlines, numbered_concat, numbered_concat,
      List.map_append, ← List.append_assoc, hlength]
    simp only [Spot.changes, if_neg hlast, List.append_nil]
    rfl

/-- A column that fits into a word is counted right. -/
theorem counted_of_lt (h : column < 2 ^ 64) : counted column = column := Nat.mod_eq_of_lt h

/-- A column that has been counted is counted on. -/
theorem counted_add (column more : Nat) :
    counted (counted column + more) = counted (column + more) :=
  Nat.mod_add_mod _ _ _

/-- A part that is not empty is taken down if it is a spot whose column can be counted. -/
theorem Ready.part (h : t.Ready (before + number) column) (hfile : ast.file = some file)
    {p : Part} (hp : p.text ≠ "")
    (hcounted : ∀ s ∈ Spot.ofPart? ast number (column, p), s.column < 2 ^ 64) :
    ∃ t', t.part ast (counted column) p = .ok t' ∧
      t'.Ready (before + number) (column + p.text.utf8ByteSize) ∧
      t.Adds file.url before (Spot.ofPart? ast number (column, p)).toList t' := by
  have hsize : p.text.utf8ByteSize ≠ 0 := fun hzero => hp (String.utf8ByteSize_eq_zero_iff.mp hzero)
  have hnext : column < column + p.text.utf8ByteSize := by omega
  unfold Tracking.part Spot.ofPart? Part.position?
  rw [hfile]
  cases hposition : p.origin.bind ast.position? with
  | none => exact ⟨t, rfl, h.mono (Nat.le_of_lt hnext), .refl t⟩
  | some position =>
    have hcolumn : column < 2 ^ 64 := hcounted ⟨number, column, position⟩ (by
      simp [Spot.ofPart?, Part.position?, hposition])
    rw [counted_of_lt hcolumn]
    by_cases hlast : t.last = some position
    · refine ⟨t, if_pos hlast, h.mono (Nat.le_of_lt hnext), hlast, ?_, fun _ => .inl⟩
      simp [Spot.changes, hlast]
    · obtain ⟨r, hr, hready, hadds⟩ := h.take file position hlast hnext
      refine ⟨⟨r, some position⟩, ?_, hready, hadds⟩
      simp only [if_neg hlast, hr]
      rfl

/-- The parts of a line are taken down where they are spots. -/
theorem Ready.parts (hfile : ast.file = some file) {parts : List Part}
    (htidy : ∀ p ∈ parts, p.text ≠ "") (h : t.Ready (before + number) column)
    (hcounted : ∀ s ∈ (Line.columnsFrom column parts).filterMap (Spot.ofPart? ast number),
      s.column < 2 ^ 64) :
    ∃ t' next, t.parts ast (counted column) parts = .ok t' ∧ t'.Ready (before + number) next ∧
      t.Adds file.url before
        ((Line.columnsFrom column parts).filterMap (Spot.ofPart? ast number)) t' := by
  induction parts generalizing t column with
  | nil => exact ⟨t, column, rfl, h, .refl t⟩
  | cons p parts ih =>
    have hfirst : ∀ s ∈ Spot.ofPart? ast number (column, p), s.column < 2 ^ 64 := fun s hs =>
      hcounted s (List.mem_filterMap.mpr ⟨_, List.mem_cons_self, hs⟩)
    obtain ⟨t₁, hpart, hready₁, hadds₁⟩ := h.part hfile (htidy p List.mem_cons_self) hfirst
    obtain ⟨t₂, next, hparts, hready₂, hadds₂⟩ :=
      ih (fun p hp => htidy p (List.mem_cons_of_mem _ hp)) hready₁ fun s hs => by
        obtain ⟨q, hq, hspot⟩ := List.mem_filterMap.mp hs
        exact hcounted s (List.mem_filterMap.mpr ⟨q, List.mem_cons_of_mem _ hq, hspot⟩)
    refine ⟨t₂, next, ?_, hready₂, ?_⟩
    · rw [Tracking.parts, hpart, counted_add]
      exact hparts
    · have hspots := hadds₁.trans hadds₂
      cases hspot : Spot.ofPart? ast number (column, p) <;>
        simpa only [Line.columnsFrom, List.filterMap_cons, hspot, Option.toList, List.nil_append,
          List.cons_append] using hspots

/-- A recorder is ready behind the line that it begins. -/
theorem ready_addLine {r : SourceMap.Recorder} {l : Log} (hkeeps : r.Keeps l)
    (hrising : Rising r.lines) (hlength : r.lines.length = number) (last : Option SourcePosition)
    (column : Nat) : Ready ⟨r.addLine, last⟩ number column where
  keeps := ⟨_, hkeeps.addLine⟩
  current := ⟨#[], rfl, fun s hs => by cases hs⟩
  length := by
    rw [Recorder.lines_addLine, List.length_append, List.length_singleton, hlength]
  rising := by
    rw [Recorder.lines_addLine, rising_concat]
    exact ⟨hrising, List.Pairwise.nil⟩

/-- A line that is begun holds nothing yet. -/
theorem adds_addLine (t : Tracking) :
    t.Adds url before [] { t with recorder := t.recorder.addLine } where
  last := rfl
  numbered := by
    rw [Recorder.lines_addLine, numbered_concat]
    rfl
  sources _ := .inl

/-- The lines of a tidy buffer are taken down where their parts are spots. -/
theorem lines_adds (hfile : ast.file = some file) {unit : String} {lines : List Line}
    (htidy : ∀ l ∈ lines, l.Tidy) {l : Log} (hkeeps : t.recorder.Keeps l)
    (hrising : Rising t.recorder.lines) (hlength : t.recorder.lines.length = before + number)
    (hcounted : ∀ s ∈ (lines.zipIdx number).flatMap fun (l, number) =>
      (l.columns unit).filterMap (Spot.ofPart? ast number), s.column < 2 ^ 64) :
    ∃ t', t.lines ast unit lines = .ok t' ∧ (∃ l, t'.recorder.Keeps l) ∧
      Rising t'.recorder.lines ∧
      t.Adds file.url before ((lines.zipIdx number).flatMap fun (l, number) =>
        (l.columns unit).filterMap (Spot.ofPart? ast number)) t' := by
  induction lines generalizing t number l with
  | nil => exact ⟨t, rfl, ⟨l, hkeeps⟩, hrising, .refl t⟩
  | cons line lines ih =>
    have hline : line.Tidy := htidy line List.mem_cons_self
    have hparts : ∀ p ∈ line.parts.toList, p.text ≠ "" :=
      fun p hp => hline p (Array.mem_toList_iff.mp hp)
    have hbegun := ready_addLine hkeeps hrising hlength t.last (line.indent * unit.utf8ByteSize)
    rw [List.zipIdx_cons, List.flatMap_cons, List.forall_mem_append] at hcounted
    obtain ⟨t₁, next, hparts, hready, hadds⟩ := hbegun.parts hfile hparts hcounted.1
    obtain ⟨l₁, hkeeps₁⟩ := hready.keeps
    have hlength₁ : t₁.recorder.lines.length = before + (number + 1) := hready.length
    obtain ⟨t₂, hlines, hkeeps₂, hrising₂, hadds₂⟩ :=
      ih (fun l hl => htidy l (List.mem_cons_of_mem _ hl)) hkeeps₁ hready.rising hlength₁
        hcounted.2
    refine ⟨t₂, ?_, hkeeps₂, hrising₂, ((adds_addLine t).trans hadds).trans hadds₂⟩
    rw [Tracking.lines]
    simp only [hparts]
    exact hlines

/-- Without a file the parts of a line leave nothing. -/
theorem parts_of_no_file (hfile : ast.file = none) (t : Tracking) (column : Nat)
    (parts : List Part) : t.parts ast column parts = .ok t := by
  induction parts generalizing column with
  | nil => rfl
  | cons p parts ih =>
    have hpart : t.part ast column p = .ok t := by
      unfold Tracking.part
      rw [hfile]
    rw [Tracking.parts, hpart]
    exact ih _

/-- Without a file only the lines are taken down. -/
theorem lines_of_no_file (hfile : ast.file = none) (unit : String) (t : Tracking)
    (lines : List Line) :
    t.lines ast unit lines = .ok { t with recorder := t.recorder.addLines lines.length } := by
  induction lines generalizing t with
  | nil => rfl
  | cons line lines ih =>
    rw [Tracking.lines]
    simp only [parts_of_no_file hfile]
    exact ih _

end Tracking

namespace SourceMap.Recorder

/-- Lines that are begun one after the other hold nothing. -/
theorem lines_addLines (r : Recorder) (n : Nat) :
    (r.addLines n).lines = r.lines ++ List.replicate n [] := by
  induction n generalizing r with
  | zero => exact (List.append_nil _).symm
  | succ n ih =>
    rw [addLines, ih, lines_addLine, List.append_assoc]
    rfl

/-- Lines that are begun add no source. -/
theorem sources_addLines (r : Recorder) (n : Nat) : (r.addLines n).sources = r.sources := by
  induction n generalizing r with
  | zero => rfl
  | succ n ih => exact ih r.addLine

/-- A recorder that begins lines is one that calls have made. -/
theorem Keeps.addLines {r : Recorder} {l : Log} (h : r.Keeps l) (n : Nat) :
    ∃ l', (r.addLines n).Keeps l' := by
  induction n generalizing r l with
  | zero => exact ⟨l, h⟩
  | succ n ih => exact ih h.addLine

end SourceMap.Recorder

namespace SourceMap

/-- Lines without segments have none. -/
theorem numbered_replicate (n : Nat) : numbered (List.replicate n []) = [] := by
  induction n with
  | zero => rfl
  | succ n ih => rw [List.replicate_succ', numbered_concat, ih, List.map_nil, List.append_nil]

/-- Lines without segments have no columns that could decrease. -/
theorem rising_replicate (n : Nat) : Rising (List.replicate n []) := by
  intro segments hmem
  rw [List.eq_of_mem_replicate hmem]
  exact List.Pairwise.nil

end SourceMap

namespace Buffer

open SourceMap

/-- The empty last line that a map leaves out has no spots. -/
theorem spots_eq (b : Buffer) (ast : Ast) :
    b.spots ast = b.mappedLines.zipIdx.flatMap fun (l, number) =>
      (l.columns b.unit).filterMap (Spot.ofPart? ast number) := by
  unfold spots mappedLines
  split
  next hempty =>
    have hparts : b.current.parts.toList = [] := by
      simpa only [Line.isEmpty, Array.isEmpty_iff, ← Array.toList_eq_nil_iff] using hempty
    have hcolumns : b.current.columns b.unit = [] := by
      rw [Line.columns, hparts]
      rfl
    rw [lines, List.zipIdx_append, List.flatMap_append]
    simp [hcolumns]
  next => rfl

/-- All lines that a map describes are lines of the buffer. -/
theorem mem_lines_of_mem_mappedLines {b : Buffer} {l : Line} (h : l ∈ b.mappedLines) :
    l ∈ b.lines := by
  unfold mappedLines at h
  split at h
  · exact List.mem_append_left _ h
  · exact h

/-- The segments that a map of a buffer ought to have, in order and with the
numbers of their lines, when the buffer follows on some lines. -/
def changesIn (b : Buffer) (ast : Ast) (before : Nat) : List (Nat × Segment) :=
  match ast.file with
  | none => []
  | some file =>
    (Spot.changes none (b.spots ast)).map fun s => (before + s.line, s.segment file.url)

/-- A table that has no other name than the given one has at most one row. -/
theorem length_le_one_of_nodup {sources : List (String × Option String)} {url : String}
    (h : (sources.map Prod.fst).Nodup) (hurl : ∀ source ∈ sources, source.1 = url) :
    sources.length ≤ 1 := by
  match sources with
  | [] => exact Nat.zero_le 1
  | [_] => exact Nat.le_refl 1
  | first :: second :: rest =>
    have hfirst : first.1 = url := hurl first (by simp)
    have hsecond : second.1 = url := hurl second (by simp)
    simp [hfirst, hsecond] at h

/-- A recorder without lines, for a file of the given name. -/
private def blank (file : String) : Recorder := { file := some file }

/-- What is taken down of the lines of a buffer is taken down of the buffer. -/
theorem track_of_lines {b : Buffer} {ast : Ast} {file : String} {before : Nat} {t : Tracking}
    (h : Tracking.lines ast b.unit ⟨(blank file).addLines before, none⟩ b.mappedLines = .ok t) :
    b.track ast file before = .ok t.recorder := by
  change (Tracking.lines ast b.unit ⟨(blank file).addLines before, none⟩ b.mappedLines >>= _) = _
  rw [h]
  rfl

/-- A tidy buffer is taken down by calls that are all accepted, if the columns of its spots
can be counted. -/
theorem Tidy.track {b : Buffer} (h : b.Tidy) {ast : Ast}
    (hcounted : ∀ s ∈ b.spots ast, s.column < 2 ^ 64) (file : String) (before : Nat) :
    ∃ r, b.track ast file before = .ok r ∧ (∃ l, r.Keeps l) ∧
      numbered r.lines = b.changesIn ast before ∧ Rising r.lines ∧ r.sources.length ≤ 1 := by
  have hstart : ((blank file).addLines before).lines = List.replicate before [] :=
    (blank file).lines_addLines before
  obtain ⟨l, hkeeps⟩ := (Recorder.keeps_start (some file)).addLines before
  unfold changesIn
  cases hfile : ast.file with
  | none =>
    have hlines : (((blank file).addLines before).addLines b.mappedLines.length).lines =
        List.replicate (before + b.mappedLines.length) [] := by
      rw [Recorder.lines_addLines, hstart, List.replicate_append_replicate]
    refine ⟨_, track_of_lines (Tracking.lines_of_no_file hfile _ _ _), hkeeps.addLines _, ?_, ?_⟩
    · exact hlines ▸ numbered_replicate _
    · refine ⟨hlines ▸ rising_replicate _, ?_⟩
      rw [Recorder.sources_addLines, Recorder.sources_addLines]
      exact Nat.zero_le 1
  | some source =>
    have htidy : ∀ l ∈ b.mappedLines, l.Tidy := fun l hl => h l (mem_lines_of_mem_mappedLines hl)
    have hlength : ((blank file).addLines before).lines.length = before + 0 := by
      rw [hstart, List.length_replicate, Nat.add_zero]
    obtain ⟨t, ht, hkeeps', hrising, hadds⟩ :
        ∃ t, Tracking.lines ast b.unit ⟨(blank file).addLines before, none⟩ b.mappedLines = .ok t ∧
          (∃ l, t.recorder.Keeps l) ∧ Rising t.recorder.lines ∧
          Tracking.Adds ⟨(blank file).addLines before, none⟩ source.url before
            (b.mappedLines.zipIdx.flatMap fun (l, number) =>
              (l.columns b.unit).filterMap (Spot.ofPart? ast number)) t :=
      Tracking.lines_adds hfile htidy hkeeps (hstart ▸ rising_replicate before) hlength
        (b.spots_eq ast ▸ hcounted)
    have hnumbered := hadds.numbered
    rw [hstart, numbered_replicate, List.nil_append, ← b.spots_eq ast] at hnumbered
    obtain ⟨l', hl'⟩ := hkeeps'
    refine ⟨t.recorder, track_of_lines ht, ⟨l', hl'⟩, hnumbered, hrising, ?_⟩
    apply length_le_one_of_nodup hl'.nodup
    intro added hadded
    rcases hadds.sources added hadded with hold | hurl
    · rw [Recorder.sources_addLines] at hold
      cases hold
    · exact hurl

end Buffer

namespace Line

variable {unit : String} {column c : Nat} {p : Part}

/-- A spot of parts stands in their line, at the column of a part. -/
theorem spot_of_mem {ast : Ast} {number : Nat} {parts : List (Nat × Part)} {s : Spot}
    (h : s ∈ parts.filterMap (Spot.ofPart? ast number)) :
    s.line = number ∧ ∃ p, (s.column, p) ∈ parts := by
  obtain ⟨⟨column, p⟩, hp, hspot⟩ := List.mem_filterMap.mp h
  obtain ⟨position, _, rfl⟩ := Option.map_eq_some_iff.mp hspot
  exact ⟨rfl, p, hp⟩

/-- The number of bytes of the line, with its indentation. -/
def breadth (unit : String) (l : Line) : Nat :=
  l.indent * unit.utf8ByteSize + (l.parts.toList.map fun p => p.text.utf8ByteSize).sum

/-- No part begins behind the last of them. -/
theorem column_le_of_mem_columnsFrom {parts : List Part} (h : (c, p) ∈ columnsFrom column parts) :
    c ≤ column + (parts.map fun p => p.text.utf8ByteSize).sum := by
  induction parts generalizing column with
  | nil => cases h
  | cons first parts ih =>
    rw [List.map_cons, List.sum_cons]
    rcases List.mem_cons.mp h with heq | h
    · cases heq
      exact Nat.le_add_right _ _
    · have hle := ih h
      omega

end Line

/-- All lines that a map describes are so narrow that their bytes can be counted. -/
def Buffer.Narrow (b : Buffer) : Prop := ∀ l ∈ b.mappedLines, l.breadth b.unit < 2 ^ 64

instance (b : Buffer) : Decidable b.Narrow :=
  inferInstanceAs (Decidable (∀ l ∈ b.mappedLines, l.breadth b.unit < 2 ^ 64))

/-- In narrow lines the columns of all spots can be counted. -/
theorem Buffer.Narrow.counted {b : Buffer} (h : b.Narrow) (ast : Ast) :
    ∀ s ∈ b.spots ast, s.column < 2 ^ 64 := by
  intro s hs
  rw [b.spots_eq] at hs
  obtain ⟨⟨l, number⟩, hl, hs⟩ := List.mem_flatMap.mp hs
  obtain ⟨_, p, hp⟩ := Line.spot_of_mem hs
  have hline : l ∈ b.mappedLines := List.fst_mem_of_mem_zipIdx hl
  exact Nat.lt_of_le_of_lt (Line.column_le_of_mem_columnsFrom hp) (h l hline)

namespace Generator

/-- What is written for the root of a tree has narrow lines only. -/
def WritesNarrow (g : Generator) (ast : Ast) : Prop :=
  ∀ root b, ast.root = some root → g.render ast root = .ok b → b.Narrow

instance (g : Generator) (ast : Ast) : Decidable (g.WritesNarrow ast) :=
  decidable_of_iff (∀ b ∈ (ast.root.bind fun root => (g.render ast root).toOption), b.Narrow) (by
    constructor
    · intro h root b hroot hb
      exact h b (by rw [hroot, Option.bind_some, hb]; rfl)
    · intro h b hmem
      obtain ⟨root, hroot, hb⟩ := Option.bind_eq_some_iff.mp hmem
      refine h root b hroot ?_
      cases hrender : g.render ast root with
      | ok written =>
        rw [hrender] at hb
        cases hb
        rfl
      | error e =>
        rw [hrender] at hb
        cases hb)

/-- A generated text comes from a buffer of the root, and its map from what was
taken down of that buffer. -/
theorem generateWithMap_eq {g : Generator} {ast : Ast} {root : NodeId}
    (hroot : ast.root = some root) (file : String) :
    (∃ e, g.render ast root = .error e ∧ g.generateWithMap ast file = .error e) ∨
      ∃ b, g.render ast root = .ok b ∧ b.Built ∧
        ((∃ r, b.track ast file 0 = .ok r ∧
            g.generateWithMap ast file = .ok ⟨b.source, r.finish⟩) ∨
          ∃ refusal, b.track ast file 0 = .error refusal ∧
            g.generateWithMap ast file = .error (.sourceMap refusal)) := by
  unfold generateWithMap rootOf
  rw [hroot]
  cases hb : g.render ast root with
  | error e =>
    refine .inl ⟨e, rfl, ?_⟩
    simp only [bind, Except.bind, hb]
  | ok b =>
    refine .inr ⟨b, rfl, render_built hb, ?_⟩
    cases hr : b.track ast file 0 with
    | ok r =>
      refine .inl ⟨r, rfl, ?_⟩
      simp only [bind, Except.bind, hb, hr]
      rfl
    | error refusal =>
      refine .inr ⟨refusal, rfl, ?_⟩
      simp only [bind, Except.bind, hb, hr]
      rfl

/-- With a map nothing fails that does not fail without it, but for a map that is
refused. -/
theorem generateWithMap_eq_error {g : Generator} {ast : Ast} {root : NodeId} {file : String}
    {e : GenerateError} (hroot : ast.root = some root) (h : g.generateWithMap ast file = .error e) :
    g.render ast root = .error e ∨ ∃ refusal, e = .sourceMap refusal := by
  rcases g.generateWithMap_eq hroot file with
    ⟨e', he', hg⟩ | ⟨b, _, _, ⟨r, _, hg⟩ | ⟨refusal, _, hg⟩⟩
  · rw [hg] at h
    cases h
    exact .inl he'
  · rw [hg] at h
    cases h
  · rw [hg] at h
    cases h
    exact .inr ⟨refusal, rfl⟩

/-- A text without a map is never refused as a map is. -/
theorem generate_ne_sourceMap (g : Generator) (ast : Ast) (refusal : MappingError) :
    g.generate ast ≠ .error (.sourceMap refusal) := by
  intro h
  cases hroot : ast.root with
  | none => simp [generate, rootOf, hroot, bind, Except.bind] at h
  | some root =>
    refine g.render_ne_sourceMap ast root refusal ?_
    cases hb : g.render ast root with
    | ok b => simp [generate, generateNode, rootOf, hroot, hb, bind, Except.bind, pure,
        Except.pure] at h
    | error e => simpa [generate, generateNode, rootOf, hroot, hb, bind, Except.bind] using h

/-- A map of a generated text is refused for no other reason than that a line is not
narrow. -/
theorem WritesNarrow.ne_sourceMap {g : Generator} {ast : Ast} (h : g.WritesNarrow ast)
    (file : String) (refusal : MappingError) :
    g.generateWithMap ast file ≠ .error (.sourceMap refusal) := by
  cases hroot : ast.root with
  | none =>
    unfold generateWithMap rootOf
    rw [hroot]
    rintro ⟨⟩
  | some root =>
    rcases g.generateWithMap_eq hroot file with
      ⟨e, he, hg⟩ | ⟨b, hb, hbuilt, ⟨r, _, hg⟩ | ⟨refused, hrefused, _⟩⟩
    · rw [hg]
      rintro ⟨⟩
      exact g.render_ne_sourceMap ast root refusal he
    · rw [hg]
      rintro ⟨⟩
    · obtain ⟨r, hr, _⟩ := hbuilt.tidy.track ((h root b hroot hb).counted ast) file 0
      rw [hr] at hrefused
      cases hrefused

end Generator

namespace Buffer

open SourceMap

/-- A map can be made of every buffer that operations have built, behind any
number of lines, as long as the lines are narrow: its segments are those of the
spots that were read elsewhere than the one in front of them, in order, and the
columns of each line increase. So a generator that writes narrow lines never fails
because a map was refused. -/
theorem track_records_changes :
    (∀ b : Buffer, b.Built → b.Narrow → ∀ (ast : Ast) (file : String) (before : Nat),
      ∃ r, b.track ast file before = .ok r ∧ numbered r.lines = b.changesIn ast before ∧
        ∀ segments ∈ r.lines, (segments.map Segment.column).Pairwise (· < ·)) ∧
      ∀ (g : Generator) (ast : Ast), g.WritesNarrow ast → ∀ (file : String)
        (refusal : MappingError), g.generateWithMap ast file ≠ .error (.sourceMap refusal) := by
  constructor
  · intro b hb hnarrow ast file before
    obtain ⟨r, hr, _, hnumbered, hrising, _⟩ := hb.tidy.track (hnarrow.counted ast) file before
    exact ⟨r, hr, hnumbered, hrising⟩
  · exact fun g ast hnarrow => hnarrow.ne_sourceMap

/-- A loop whose condition and body were written by other nodes. -/
def shortLoop : Buffer :=
  ((((((ofNode ⟨0⟩ 1 "\t").print "while (").append ((ofNode ⟨1⟩ 1 "\t").print "ä")).print
    ") \x7b").newline.deeper.append ((ofNode ⟨2⟩ 2 "\t").print "next;")).newline.shallower.print
      "\x7d").newline

/-- A tree for the nodes of the loop; the condition was not read anywhere. -/
def shortLoopTree : Ast where
  nodes := #[
    { construct := .whileStatement, position := some ⟨3, 4⟩ },
    { construct := .breakStatement },
    { construct := .breakStatement, position := some ⟨4, 8⟩ }]
  root := some ⟨2⟩
  file := some ⟨"loop", none⟩

/-- The parts of the loop are taken down where they stand, and a map can be made of the
statement in it. -/
theorem track_records_changes_shortLoop :
    (∃ r, shortLoop.track shortLoopTree "out" 2 = .ok r ∧
      numbered r.lines = [(2, ⟨1, some ⟨"loop", 3, 4⟩⟩), (3, ⟨2, some ⟨"loop", 4, 8⟩⟩),
        (4, ⟨1, some ⟨"loop", 3, 4⟩⟩)]) ∧
      Generator.WritesNarrow {} shortLoopTree ∧
      Generator.generateWithMap {} shortLoopTree "out" ≠ .error (.sourceMap .noLine) := by
  have hbuilt : shortLoop.Built :=
    .newline (.print _ (.shallower (.newline (.append (.deeper (.newline (.print _ (.append
      (.print _ (.ofNode _ _ _)) (.print _ (.ofNode _ _ _)))))) (.print _ (.ofNode _ _ _))))))
  have hnarrow : shortLoop.Narrow := by decide +kernel
  obtain ⟨r, hr, hnumbered, _⟩ :=
    track_records_changes.1 shortLoop hbuilt hnarrow shortLoopTree "out" 2
  have hchanges : shortLoop.changesIn shortLoopTree 2 =
      [(2, ⟨1, some ⟨"loop", 3, 4⟩⟩), (3, ⟨2, some ⟨"loop", 4, 8⟩⟩),
        (4, ⟨1, some ⟨"loop", 3, 4⟩⟩)] := by decide +kernel
  have hwrites : Generator.WritesNarrow {} shortLoopTree := by decide +kernel
  exact ⟨⟨r, hr, hnumbered.trans hchanges⟩, hwrites,
    track_records_changes.2 {} shortLoopTree hwrites "out" .noLine⟩

/-- Two statements in a line that is indented as far as levels can be counted. -/
def outermostLine : Buffer :=
  ((ofNode ⟨1⟩ (2 ^ 64 - 1) "    ").print "next").append
    ((ofNode ⟨2⟩ (2 ^ 64 - 1) "    ").print "\x7d")

/-- A tree for the nodes of that line. -/
def outermostTree : Ast where
  nodes := #[
    { construct := .blockStatement },
    { construct := .breakStatement, position := some ⟨0, 0⟩ },
    { construct := .breakStatement, position := some ⟨1, 0⟩ }]
  file := some ⟨"loop", none⟩

/-- Behind the first statement the columns of the line begin again at zero, so that the
second is refused as lying in front of it. -/
theorem track_refuses_outermostLine :
    outermostLine.Built ∧ outermostLine.track outermostTree "out" 0 =
      .error (.outOfOrder 0 (2 ^ 64 - 4)) := by
  refine ⟨.append (.print _ (.ofNode _ _ _)) (.print _ (.ofNode _ _ _)), by rfl⟩

end Buffer

end SourceScribe
