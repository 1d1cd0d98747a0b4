import SourceScribe.Proofs.Places

/-!
# Where parts begin in the text

The text of a buffer is joined from its lines, and a place in the text is
counted from its line ends. As long as no part holds a line end itself, the
lines of the text are those of the buffer, so that every part begins in the text
where it stands in the buffer.
-/

namespace SourceScribe

/-- A place in a text. -/
structure Caret where
  /-- The number of line ends in front of it. -/
  line : Nat
  /-- The number of bytes behind the last line end. -/
  column : Nat
deriving DecidableEq, Repr

namespace Caret

/-- The place behind a character. -/
def step (c : Caret) (char : Char) : Caret :=
  if char = '\n' then ⟨c.line + 1, 0⟩ else ⟨c.line, c.column + char.utf8Size⟩

/-- The place behind a text. -/
def behind (text : String) : Caret := text.toList.foldl step ⟨0, 0⟩

/-- Characters without a line end move on in the line. -/
theorem foldl_step {chars : List Char} (h : '\n' ∉ chars) (c : Caret) :
    chars.foldl step c = ⟨c.line, c.column + (String.ofList chars).utf8ByteSize⟩ := by
  induction chars generalizing c with
  | nil => rfl
  | cons char chars ih =>
    obtain ⟨hchar, hchars⟩ := not_or.mp (mt List.mem_cons.mpr h)
    have hsize : (String.ofList (char :: chars)).utf8ByteSize =
        char.utf8Size + (String.ofList chars).utf8ByteSize := by
      rw [String.ofList_cons, String.utf8ByteSize_append, String.utf8ByteSize_singleton]
    rw [List.foldl_cons, step, if_neg (Ne.symm hchar), ih hchars, hsize, ← Nat.add_assoc]

/-- Text without a line end moves on in the line. -/
theorem behind_append {before text : String} (h : '\n' ∉ text.toList) :
    behind (before ++ text) =
      ⟨(behind before).line, (behind before).column + text.utf8ByteSize⟩ := by
  unfold behind
  rw [String.toList_append, List.foldl_append, foldl_step h, String.ofList_toList]

/-- A line end begins the next line. -/
theorem behind_newline (before : String) : behind (before ++ "\n") = ⟨(behind before).line + 1, 0⟩ := by
  unfold behind
  rw [String.toList_append, List.foldl_append]
  rfl

end Caret

namespace Line

/-- Parts with the text in front of them, the first of them behind a given one. -/
def startsFrom : String → List Part → List (String × Part)
  | _, [] => []
  | before, p :: rest => (before, p) :: startsFrom (before ++ p.text) rest

/-- The parts of lines with the text in front of them, where a text stands in
front of the first line and a line end behind each. -/
def startsOf (unit : String) : String → List Line → List (String × Part)
  | _, [] => []
  | before, l :: rest =>
    startsFrom (before ++ indentation unit l.indent) l.parts.toList ++
      startsOf unit (before ++ l.text unit ++ "\n") rest

end Line

/-- The parts of a buffer, each with the text in front of it. -/
def Buffer.starts (b : Buffer) : List (String × Part) := Line.startsOf b.unit "" b.lines

/-- The spot of a part that begins behind a text. -/
def Spot.ofStart? (ast : Ast) (start : String × Part) : Option Spot :=
  (start.2.position? ast).map fun position =>
    ⟨(Caret.behind start.1).line, (Caret.behind start.1).column, position⟩

/-- The spots of a buffer where they begin in its text. -/
def Buffer.textSpots (b : Buffer) (ast : Ast) : List Spot := b.starts.filterMap (Spot.ofStart? ast)

namespace Line

/-- A part stands behind the text in front of it. -/
theorem text_of_mem_startsFrom {before text : String} {p : Part} {parts : List Part}
    (h : (text, p) ∈ startsFrom before parts) :
    ∃ rest, before ++ String.join (parts.map Part.text) = text ++ p.text ++ rest := by
  induction parts generalizing before with
  | nil => cases h
  | cons first parts ih =>
    rw [List.map_cons, String.join_cons]
    rcases List.mem_cons.mp h with heq | h
    · cases heq
      exact ⟨String.join (parts.map Part.text), String.append_assoc.symm⟩
    · obtain ⟨rest, hrest⟩ := ih h
      exact ⟨rest, String.append_assoc.symm.trans hrest⟩

/-- A line whose parts are not left out is shown with them. -/
theorem text_of_ne_nil {l : Line} {unit : String} (h : l.parts.toList ≠ []) :
    l.text unit = indentation unit l.indent ++ String.join (l.parts.toList.map Part.text) := by
  unfold text
  rw [if_neg]
  simpa only [isEmpty, Array.isEmpty_iff, ← Array.toList_eq_nil_iff] using h

/-- A part of lines stands behind the text in front of it. -/
theorem text_of_mem_startsOf {unit before text : String} {p : Part} {lines : List Line}
    (h : (text, p) ∈ startsOf unit before lines) :
    ∃ rest, before ++ String.intercalate "\n" (lines.map (Line.text unit)) =
      text ++ p.text ++ rest := by
  induction lines generalizing before with
  | nil => cases h
  | cons l lines ih =>
    rcases List.mem_append.mp h with h | h
    · have hne : l.parts.toList ≠ [] := by
        rintro hnil
        rw [hnil] at h
        cases h
      obtain ⟨rest, hrest⟩ := text_of_mem_startsFrom h
      rw [String.append_assoc, ← text_of_ne_nil hne] at hrest
      cases lines with
      | nil => exact ⟨rest, by simpa using hrest⟩
      | cons next lines =>
        refine ⟨rest ++ ("\n" ++ String.intercalate "\n" ((next :: lines).map (Line.text unit))), ?_⟩
        rw [List.map_cons, List.map_cons, String.intercalate_cons_cons, ← String.append_assoc,
          ← String.append_assoc, hrest]
        simp only [String.append_assoc]
    · cases lines with
      | nil => cases h
      | cons next lines =>
        obtain ⟨rest, hrest⟩ := ih h
        refine ⟨rest, ?_⟩
        rw [← hrest]
        simp only [List.map_cons, String.intercalate_cons_cons, String.append_assoc]

end Line

/-- Every part of a buffer stands in its text behind the text in front of it. -/
theorem Buffer.source_of_mem_starts {b : Buffer} {text : String} {p : Part}
    (h : (text, p) ∈ b.starts) : ∃ rest, b.source = text ++ p.text ++ rest := by
  obtain ⟨rest, hrest⟩ := Line.text_of_mem_startsOf h
  exact ⟨rest, by simpa [Buffer.source] using hrest⟩

/-- A spot of a buffer stands in its text where a part begins that was read there. -/
theorem Buffer.source_of_mem_textSpots {b : Buffer} {ast : Ast} {s : Spot}
    (h : s ∈ b.textSpots ast) :
    ∃ (before : String) (p : Part) (rest : String), b.source = before ++ p.text ++ rest ∧
      Caret.behind before = ⟨s.line, s.column⟩ ∧ p.position? ast = some s.position := by
  obtain ⟨⟨before, p⟩, hstart, hspot⟩ := List.mem_filterMap.mp h
  obtain ⟨position, hposition, rfl⟩ := Option.map_eq_some_iff.mp hspot
  obtain ⟨rest, hrest⟩ := source_of_mem_starts hstart
  exact ⟨before, p, rest, hrest, rfl, hposition⟩

/-- No part of the line holds a line end. -/
def Line.Straight (l : Line) : Prop := ∀ p ∈ l.parts.toList, '\n' ∉ p.text.toList

/-- Only the lines of the buffer end lines of its text. -/
structure Buffer.Straight (b : Buffer) : Prop where
  /-- No part holds a line end. -/
  lines : ∀ l ∈ b.lines, l.Straight
  /-- The indentation holds no line end. -/
  unit : '\n' ∉ b.unit.toList

instance (l : Line) : Decidable l.Straight :=
  inferInstanceAs (Decidable (∀ p ∈ l.parts.toList, '\n' ∉ p.text.toList))

instance (b : Buffer) : Decidable b.Straight :=
  decidable_of_iff ((∀ l ∈ b.lines, l.Straight) ∧ '\n' ∉ b.unit.toList)
    ⟨fun h => ⟨h.1, h.2⟩, fun h => ⟨h.lines, h.unit⟩⟩

/-- A level of indentation is as long as its unit. -/
theorem utf8ByteSize_indentation (unit : String) (levels : Nat) :
    (indentation unit levels).utf8ByteSize = levels * unit.utf8ByteSize := by
  rw [indentation_eq]
  induction levels with
  | zero => simp
  | succ n ih => rw [List.replicate_succ, String.join_cons, String.utf8ByteSize_append, ih,
      Nat.succ_mul, Nat.add_comm]

/-- Texts without line ends are joined to one without. -/
theorem newline_not_mem_join {texts : List String} (h : ∀ text ∈ texts, '\n' ∉ text.toList) :
    '\n' ∉ (String.join texts).toList := by
  induction texts with
  | nil => simp
  | cons text texts ih =>
    rw [String.join_cons, String.toList_append, List.mem_append, not_or]
    exact ⟨h text List.mem_cons_self, ih fun t ht => h t (List.mem_cons_of_mem _ ht)⟩

/-- Indentation without line ends has none. -/
theorem newline_not_mem_indentation {unit : String} (h : '\n' ∉ unit.toList) (levels : Nat) :
    '\n' ∉ (indentation unit levels).toList := by
  rw [indentation_eq]
  apply newline_not_mem_join
  intro text htext
  rw [List.eq_of_mem_replicate htext]
  exact h

namespace Line

variable {l : Line} {unit before : String} {ast : Ast} {number column : Nat}

/-- The text of a straight line holds no line end. -/
theorem Straight.newline_not_mem (h : l.Straight) (hunit : '\n' ∉ unit.toList) :
    '\n' ∉ (l.text unit).toList := by
  unfold text
  split
  · simp
  · rw [String.toList_append, List.mem_append, not_or]
    refine ⟨newline_not_mem_indentation hunit l.indent, newline_not_mem_join ?_⟩
    intro text htext
    obtain ⟨p, hp, rfl⟩ := List.mem_map.mp htext
    exact h p hp

/-- Parts without line ends begin where they stand. -/
theorem filterMap_startsFrom {parts : List Part} (h : ∀ p ∈ parts, '\n' ∉ p.text.toList)
    (hbefore : Caret.behind before = ⟨number, column⟩) :
    (startsFrom before parts).filterMap (Spot.ofStart? ast) =
      (columnsFrom column parts).filterMap (Spot.ofPart? ast number) := by
  induction parts generalizing before column with
  | nil => rfl
  | cons p parts ih =>
    have hp : '\n' ∉ p.text.toList := h p List.mem_cons_self
    have hnext : Caret.behind (before ++ p.text) = ⟨number, column + p.text.utf8ByteSize⟩ := by
      rw [Caret.behind_append hp, hbefore]
    have hspot : Spot.ofStart? ast (before, p) = Spot.ofPart? ast number (column, p) := by
      simp only [Spot.ofStart?, Spot.ofPart?, hbefore]
    rw [startsFrom, columnsFrom, List.filterMap_cons, List.filterMap_cons, hspot,
      ih (fun p hp => h p (List.mem_cons_of_mem _ hp)) hnext]

/-- The parts of straight lines begin where they stand. -/
theorem filterMap_startsOf {lines : List Line} (h : ∀ l ∈ lines, l.Straight)
    (hunit : '\n' ∉ unit.toList) (hbefore : Caret.behind before = ⟨number, 0⟩) :
    (startsOf unit before lines).filterMap (Spot.ofStart? ast) =
      (lines.zipIdx number).flatMap fun (l, number) =>
        (l.columns unit).filterMap (Spot.ofPart? ast number) := by
  induction lines generalizing before number with
  | nil => rfl
  | cons l lines ih =>
    have hl : l.Straight := h l List.mem_cons_self
    have hindent : Caret.behind (before ++ indentation unit l.indent) =
        ⟨number, l.indent * unit.utf8ByteSize⟩ := by
      rw [Caret.behind_append (newline_not_mem_indentation hunit l.indent), hbefore,
        utf8ByteSize_indentation, Nat.zero_add]
    have hnext : Caret.behind (before ++ l.text unit ++ "\n") = ⟨number + 1, 0⟩ := by
      rw [Caret.behind_newline, Caret.behind_append (hl.newline_not_mem hunit), hbefore]
    rw [startsOf, List.filterMap_append, filterMap_startsFrom hl hindent,
      ih (fun l hl => h l (List.mem_cons_of_mem _ hl)) hnext]
    rfl

end Line

/-- The spots of a straight buffer begin in its text where they stand. -/
theorem Buffer.Straight.textSpots_eq {b : Buffer} (h : b.Straight) (ast : Ast) :
    b.textSpots ast = b.spots ast :=
  Line.filterMap_startsOf h.lines h.unit rfl

end SourceScribe
