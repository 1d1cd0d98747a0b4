import SourceScribe.Proofs.Quantities
import SourceScribe.SourceMap

/-!
# Segments are read back

The mappings of a map are read by the rules of version 3: semicolons separate
the lines and commas the segments of a line, a segment is one quantity or four,
the column of the generated text starts again at zero in every line, and the
three numbers of a place run on over the whole map. The names that the sources
are listed by turn numbers of sources into names. What a recorder writes is
read back as the segments that it has taken down, as long as all their numbers
leave room for the sign of their differences.
-/

namespace SourceScribe

/-- The numbers of a segment leave room for a sign, and its source is among the
names. -/
structure Segment.Fits (names : List String) (s : Segment) : Prop where
  /-- The column is small enough. -/
  column : s.column < 2 ^ 62
  /-- The source of the place has a name. -/
  named : ∀ o ∈ s.origin, o.url ∈ names
  /-- The place is small enough. -/
  place : ∀ o ∈ s.origin, o.line < 2 ^ 62 ∧ o.column < 2 ^ 62

namespace SourceMap

/-- Where the numbers of a place stand. -/
structure Standpoint where
  /-- The number of a source. -/
  source : Int
  /-- A line of the source. -/
  line : Int
  /-- A column of the source. -/
  column : Int

/-- A segment by its numbers. -/
structure Entry where
  /-- The column of the generated text. -/
  column : Int
  /-- The place that it stems from. -/
  place : Option Standpoint

/-- Reads a segment behind one that starts at a column, when the numbers of the
last place are known. -/
def readEntry? (column : Int) (last : Standpoint) (text : List Char) :
    Option (Entry × Standpoint) :=
  match Text.Vlq.read? text with
  | some [across] => some (⟨column + across, none⟩, last)
  | some [across, source, line, sourceColumn] =>
    let next : Standpoint :=
      ⟨last.source + source, last.line + line, last.column + sourceColumn⟩
    some (⟨column + across, some next⟩, next)
  | _ => none

/-- Reads segments of one line, one behind the other. -/
def readEntries? : Int → Standpoint → List (List Char) → Option (List Entry × Standpoint)
  | _, last, [] => some ([], last)
  | column, last, text :: rest => do
    let (entry, last) ← readEntry? column last text
    let (entries, last) ← readEntries? entry.column last rest
    return (entry :: entries, last)

/-- Reads a line; one without text has no segments. -/
def readLine? (last : Standpoint) (text : List Char) : Option (List Entry × Standpoint) :=
  if text.isEmpty then some ([], last) else readEntries? 0 last (text.splitOn ',')

/-- Reads lines, one behind the other. -/
def readLines? : Standpoint → List (List Char) → Option (List (List Entry))
  | _, [] => some []
  | last, text :: rest => do
    let (entries, last) ← readLine? last text
    return entries :: (← readLines? last rest)

/-- The place that numbers name, if there is such a source. -/
def Standpoint.origin? (names : List String) (s : Standpoint) : Option Origin := do
  let url ← names[(← s.source.toNat?)]?
  return ⟨url, ← s.line.toNat?, ← s.column.toNat?⟩

/-- The segment that numbers name. -/
def Entry.segment? (names : List String) (e : Entry) : Option Segment := do
  let column ← e.column.toNat?
  match e.place with
  | none => return ⟨column, none⟩
  | some place => return ⟨column, some (← place.origin? names)⟩

/-- The segments of the lines of a map. -/
def read? (m : SourceMap) : Option (List (List Segment)) := do
  let lines ← readLines? ⟨0, 0, 0⟩ (m.mappings.toList.splitOn ';')
  lines.mapM fun entries => entries.mapM (Entry.segment? m.sources)

/-- The numbers of a segment whose source is among the names. -/
def Entry.ofSegment (names : List String) (s : Segment) : Entry :=
  ⟨s.column, s.origin.map fun o => ⟨names.idxOf o.url, o.line, o.column⟩⟩

/-- The numbers of the last place behind a segment. -/
def Standpoint.behind (names : List String) (s : Segment) (last : Standpoint) : Standpoint :=
  (Entry.ofSegment names s).place.getD last

/-- The numbers of the last place behind the segments of a line. -/
def Standpoint.behindAll (names : List String) (segments : List Segment) (last : Standpoint) :
    Standpoint := segments.foldl (fun last s => last.behind names s) last

/-- The numbers of a segment name it. -/
theorem segment?_ofSegment {names : List String} {s : Segment} (h : s.Fits names) :
    (Entry.ofSegment names s).segment? names = some s := by
  have hnat (n : Nat) : (n : Int).toNat? = some n := Int.mem_toNat?.mpr rfl
  obtain ⟨column, origin⟩ := s
  cases origin with
  | none => simp [Entry.ofSegment, Entry.segment?, hnat]
  | some o =>
    have hlt : names.idxOf o.url < names.length := List.idxOf_lt_length_of_mem (h.named o rfl)
    have hname : names[names.idxOf o.url]? = some o.url := by
      rw [List.getElem?_eq_getElem hlt, List.getElem_idxOf hlt]
    simp [Entry.ofSegment, Entry.segment?, Standpoint.origin?, hnat, hname]

namespace Recorder

/-- A number that leaves room for the sign of a difference. -/
def Small (n : Int) : Prop := 0 ≤ n ∧ n < 2 ^ 62

/-- A natural number below the bound leaves room for a sign. -/
theorem small_natCast {n : Nat} (h : n < 2 ^ 62) : Small n := ⟨Int.natCast_nonneg n, by omega⟩

/-- The difference of two numbers that leave room for a sign. -/
theorem toInt_ofNat_sub {n : Nat} {w : Int64} {m : Int} (hn : n < 2 ^ 62) (hw : w.toInt = m)
    (hm : Small m) : (Int64.ofNat n - w).toInt = n - m := by
  obtain ⟨hl, hu⟩ := hm
  rw [Int64.toInt_sub, Int64.toInt_ofNat_of_lt (by omega), hw,
    Int.bmod_eq_of_le (by omega) (by omega)]

/-- The difference is small enough to be read back. -/
theorem room_of_sub {n : Nat} {w : Int64} {m : Int} (hn : n < 2 ^ 62) (hw : w.toInt = m)
    (hm : Small m) :
    -2 ^ 62 < (Int64.ofNat n - w).toInt ∧ (Int64.ofNat n - w).toInt < 2 ^ 62 := by
  rw [toInt_ofNat_sub hn hw hm]
  obtain ⟨hl, hu⟩ := hm
  omega

/-- The numbers to which differences refer are those of the last place, and leave
room for a sign. -/
structure Reference.Tracks (r : Reference) (last : Standpoint) : Prop where
  /-- The number of the source is the same. -/
  source : r.source.toInt = last.source
  /-- The line is the same. -/
  line : r.line.toInt = last.line
  /-- The column is the same. -/
  column : r.column.toInt = last.column
  /-- The number of the source is small enough. -/
  source_small : Small last.source
  /-- The line is small enough. -/
  line_small : Small last.line
  /-- The column is small enough. -/
  column_small : Small last.column

/-- In front of all segments the numbers are zero. -/
theorem Reference.tracks_start : Reference.Tracks {} ⟨0, 0, 0⟩ :=
  ⟨Int64.toInt_zero, Int64.toInt_zero, Int64.toInt_zero, small_natCast (by decide : 0 < 2 ^ 62),
    small_natCast (by decide : 0 < 2 ^ 62), small_natCast (by decide : 0 < 2 ^ 62)⟩

variable {names : List String} {r : Reference} {last : Standpoint} {lastColumn : Int64}
  {column : Int} {s : Segment}

/-- Behind a segment the numbers to which differences refer are again those of the
last place. -/
theorem Reference.Tracks.behind (hr : r.Tracks last) (hs : s.Fits names)
    (hnames : names.length ≤ 2 ^ 62) :
    (encodeSegment names lastColumn r s).2.Tracks (last.behind names s) := by
  obtain ⟨generated, origin⟩ := s
  cases origin with
  | none => exact hr
  | some o =>
    have hindex : names.idxOf o.url < 2 ^ 62 :=
      Nat.lt_of_lt_of_le (List.idxOf_lt_length_of_mem (hs.named o rfl)) hnames
    obtain ⟨hline, hcolumn⟩ := hs.place o rfl
    have htoInt {n : Nat} (hn : n < 2 ^ 62) : (Int64.ofNat n).toInt = n :=
      Int64.toInt_ofNat_of_lt (by omega)
    exact ⟨htoInt hindex, htoInt hline, htoInt hcolumn, small_natCast hindex,
      small_natCast hline, small_natCast hcolumn⟩

/-- A segment is read back behind another. -/
theorem readEntry?_encodeSegment (hr : r.Tracks last) (hs : s.Fits names)
    (hnames : names.length ≤ 2 ^ 62) (hc : lastColumn.toInt = column) (hsmall : Small column) :
    readEntry? column last (encodeSegment names lastColumn r s).1 =
      some (.ofSegment names s, last.behind names s) := by
  obtain ⟨generated, origin⟩ := s
  have hback (m n : Int) : m + (n - m) = n := by omega
  have hgenerated : generated < 2 ^ 62 := hs.column
  have hacross := toInt_ofNat_sub hgenerated hc hsmall
  cases origin with
  | none =>
    have hroom : ∀ v ∈ [.ofNat generated - lastColumn], -2 ^ 62 < v.toInt ∧ v.toInt < 2 ^ 62 := by
      simpa only [List.mem_singleton, forall_eq] using room_of_sub hgenerated hc hsmall
    have hread := Text.Vlq.read?_flatMap_encode hroom
    simp only [List.flatMap_singleton, List.map_cons, List.map_nil, hacross] at hread
    simp [encodeSegment, readEntry?, hread, hback, Entry.ofSegment, Standpoint.behind]
  | some o =>
    have hindex : names.idxOf o.url < 2 ^ 62 :=
      Nat.lt_of_lt_of_le (List.idxOf_lt_length_of_mem (hs.named o rfl)) hnames
    obtain ⟨holine, hocolumn⟩ := hs.place o rfl
    have hsource := toInt_ofNat_sub hindex hr.source hr.source_small
    have hline := toInt_ofNat_sub holine hr.line hr.line_small
    have hcolumn := toInt_ofNat_sub hocolumn hr.column hr.column_small
    have hroom : ∀ v ∈ [.ofNat generated - lastColumn, .ofNat (names.idxOf o.url) - r.source,
        .ofNat o.line - r.line, .ofNat o.column - r.column],
        -2 ^ 62 < v.toInt ∧ v.toInt < 2 ^ 62 := by
      simp only [List.mem_cons, List.not_mem_nil, or_false, forall_eq_or_imp, forall_eq]
      exact ⟨room_of_sub hgenerated hc hsmall, room_of_sub hindex hr.source hr.source_small,
        room_of_sub holine hr.line hr.line_small,
        room_of_sub hocolumn hr.column hr.column_small⟩
    have hread := Text.Vlq.read?_flatMap_encode hroom
    simp only [List.flatMap_cons, List.flatMap_nil, List.append_nil, List.map_cons, List.map_nil,
      hacross, hsource, hline, hcolumn] at hread
    simp [encodeSegment, readEntry?, hread, hback, Entry.ofSegment, Standpoint.behind]

/-- The text of a segment is not empty and contains no separators. -/
theorem encodeSegment_text (s : Segment) :
    (encodeSegment names lastColumn r s).1 ≠ [] ∧
      ∀ c ∈ (encodeSegment names lastColumn r s).1, c ≠ ',' ∧ c ≠ ';' := by
  unfold encodeSegment
  split
  · exact ⟨Text.Vlq.encode_ne_nil _, fun c hc => Text.Vlq.ne_separator_of_mem_encode hc⟩
  · refine ⟨by simp [Text.Vlq.encode_ne_nil], fun c hc => ?_⟩
    simp only [List.mem_append] at hc
    rcases hc with ((hc | hc) | hc) | hc <;> exact Text.Vlq.ne_separator_of_mem_encode hc

/-- The texts of the segments of a line. -/
def segmentTexts (names : List String) : Int64 → Reference → List Segment → List (List Char)
  | _, _, [] => []
  | lastColumn, r, s :: rest =>
    let (text, r) := encodeSegment names lastColumn r s
    text :: segmentTexts names (.ofNat s.column) r rest

/-- The segments of a line are read back. -/
theorem readEntries?_segmentTexts {segments : List Segment} (hr : r.Tracks last)
    (hs : ∀ s ∈ segments, s.Fits names) (hnames : names.length ≤ 2 ^ 62)
    (hc : lastColumn.toInt = column) (hsmall : Small column) :
    readEntries? column last (segmentTexts names lastColumn r segments) =
      some (segments.map (.ofSegment names), last.behindAll names segments) := by
  induction segments generalizing r last lastColumn column with
  | nil => rfl
  | cons s rest ih =>
    have hfits : s.Fits names := hs s List.mem_cons_self
    have hbehind : (encodeSegment names lastColumn r s).2.Tracks (last.behind names s) :=
      hr.behind hfits hnames
    have hrest := ih hbehind (fun s h => hs s (List.mem_cons_of_mem _ h))
      (Int64.toInt_ofNat_of_lt (Nat.lt_trans hfits.column (by decide)))
      (small_natCast hfits.column)
    have hcolumn : (Entry.ofSegment names s).column = s.column := rfl
    simp only [segmentTexts, readEntries?, readEntry?_encodeSegment hr hfits hnames hc hsmall,
      hcolumn, hrest, Option.bind_eq_bind, Option.bind_some]
    rfl

/-- Behind a line the numbers to which differences refer are again those of the
last place. -/
theorem tracks_encodeLine {segments : List Segment} (first : Bool) (hr : r.Tracks last)
    (hs : ∀ s ∈ segments, s.Fits names) (hnames : names.length ≤ 2 ^ 62) :
    (encodeLine names first lastColumn r segments).2.Tracks (last.behindAll names segments) := by
  induction segments generalizing first r last lastColumn with
  | nil => exact hr
  | cons s rest ih =>
    exact ih false (hr.behind (hs s List.mem_cons_self) hnames)
      fun s h => hs s (List.mem_cons_of_mem _ h)

/-- Texts with a separator between them, the first of which is known. -/
theorem intercalate_cons (c : Char) (text : List Char) (texts : List (List Char)) :
    [c].intercalate (text :: texts) = text ++ texts.flatMap (c :: ·) := by
  induction texts generalizing text with
  | nil => simp [List.intercalate]
  | cons next texts ih =>
    have hnext := ih next
    simp only [List.intercalate, List.intersperse_cons_cons, List.flatten_cons] at hnext ⊢
    rw [hnext]
    rfl

/-- The text of a line is that of its segments with commas between them. -/
theorem encodeLine_text (first : Bool) (segments : List Segment) :
    (encodeLine names first lastColumn r segments).1 =
      if first then [','].intercalate (segmentTexts names lastColumn r segments)
      else (segmentTexts names lastColumn r segments).flatMap (',' :: ·) := by
  induction segments generalizing first r lastColumn with
  | nil => cases first <;> rfl
  | cons s rest ih =>
    simp only [encodeLine, ih, segmentTexts, intercalate_cons]
    cases first <;> simp

/-- The texts of the segments of a line are not empty and contain no separators. -/
theorem of_mem_segmentTexts {segments : List Segment} {text : List Char}
    (h : text ∈ segmentTexts names lastColumn r segments) :
    text ≠ [] ∧ ∀ c ∈ text, c ≠ ',' ∧ c ≠ ';' := by
  induction segments generalizing r lastColumn with
  | nil => cases h
  | cons s rest ih =>
    rcases List.mem_cons.mp h with rfl | h
    · exact encodeSegment_text s
    · exact ih h

/-- A line is read back. -/
theorem readLine?_encodeLine {segments : List Segment} (hr : r.Tracks last)
    (hs : ∀ s ∈ segments, s.Fits names) (hnames : names.length ≤ 2 ^ 62) :
    readLine? last (encodeLine names true 0 r segments).1 =
      some (segments.map (.ofSegment names), last.behindAll names segments) := by
  rw [encodeLine_text, if_pos rfl, readLine?]
  cases segments with
  | nil => rfl
  | cons s rest =>
    have hne : segmentTexts names 0 r (s :: rest) ≠ [] := by simp [segmentTexts]
    have hcommas : ∀ text ∈ segmentTexts names 0 r (s :: rest), ',' ∉ text :=
      fun text h hc => ((of_mem_segmentTexts h).2 ',' hc).1 rfl
    have htext : [','].intercalate (segmentTexts names 0 r (s :: rest)) ≠ [] := by
      simp [segmentTexts, intercalate_cons, (encodeSegment_text s).1]
    rw [if_neg (by simpa using htext), List.splitOn_intercalate ',' hcommas hne]
    exact readEntries?_segmentTexts hr hs hnames Int64.toInt_zero
      (small_natCast (by decide : 0 < 2 ^ 62))

/-- The texts of lines. -/
def lineTexts (names : List String) : Reference → List (List Segment) → List (List Char)
  | _, [] => []
  | r, line :: rest =>
    let (text, r) := encodeLine names true 0 r line
    text :: lineTexts names r rest

/-- The text of lines is that of each with semicolons between them. -/
theorem encodeLines_text (first : Bool) (lines : List (List Segment)) :
    encodeLines names first r lines =
      if first then [';'].intercalate (lineTexts names r lines)
      else (lineTexts names r lines).flatMap (';' :: ·) := by
  induction lines generalizing first r with
  | nil => cases first <;> rfl
  | cons line rest ih =>
    simp only [encodeLines, ih, lineTexts, intercalate_cons]
    cases first <;> simp

/-- The texts of lines contain no semicolons. -/
theorem semicolon_of_mem_lineTexts {lines : List (List Segment)} {text : List Char}
    (h : text ∈ lineTexts names r lines) : ';' ∉ text := by
  induction lines generalizing r with
  | nil => cases h
  | cons line rest ih =>
    rcases List.mem_cons.mp h with rfl | h
    · intro hc
      rw [encodeLine_text, if_pos rfl] at hc
      cases line with
      | nil => cases hc
      | cons s rest =>
        simp only [segmentTexts, intercalate_cons, List.mem_append, List.mem_flatMap,
          List.mem_cons] at hc
        rcases hc with hc | ⟨text, htext, hc | hc⟩
        · exact ((encodeSegment_text s).2 ';' hc).2 rfl
        · cases hc
        · exact ((of_mem_segmentTexts htext).2 ';' hc).2 rfl
    · exact ih h

/-- Lines are read back. -/
theorem readLines?_lineTexts {lines : List (List Segment)} (hr : r.Tracks last)
    (hs : ∀ line ∈ lines, ∀ s ∈ line, s.Fits names) (hnames : names.length ≤ 2 ^ 62) :
    readLines? last (lineTexts names r lines) =
      some (lines.map fun line => line.map (.ofSegment names)) := by
  induction lines generalizing r last with
  | nil => rfl
  | cons line rest ih =>
    have hline : ∀ s ∈ line, s.Fits names := hs line List.mem_cons_self
    have hbehind : (encodeLine names true 0 r line).2.Tracks (last.behindAll names line) :=
      tracks_encodeLine true hr hline hnames
    have hrest := ih hbehind fun line h => hs line (List.mem_cons_of_mem _ h)
    simp only [lineTexts, readLines?, readLine?_encodeLine hr hline hnames, hrest,
      Option.bind_eq_bind, Option.bind_some]
    rfl

end Recorder

/-- What is read back one by one is read back as a whole. -/
theorem mapM_map_eq_some {α β : Type} {write : α → β} {read : β → Option α} {as : List α}
    (h : ∀ a ∈ as, read (write a) = some a) : (as.map write).mapM read = some as := by
  induction as with
  | nil => rfl
  | cons a as ih =>
    rw [List.map_cons, List.mapM_cons, h a List.mem_cons_self,
      ih fun a ha => h a (List.mem_cons_of_mem _ ha)]
    rfl

/-- A map in which lines are encoded gives them back. -/
theorem read?_encodeLines {m : SourceMap} {lines : List (List Segment)} (hne : lines ≠ [])
    (hm : m.mappings.toList = Recorder.encodeLines m.sources true {} lines)
    (hs : ∀ line ∈ lines, ∀ s ∈ line, s.Fits m.sources) (hnames : m.sources.length ≤ 2 ^ 62) :
    m.read? = some lines := by
  have htexts : Recorder.lineTexts m.sources {} lines ≠ [] := by
    cases lines with
    | nil => exact absurd rfl hne
    | cons line rest => simp [Recorder.lineTexts]
  have hsplit : m.mappings.toList.splitOn ';' = Recorder.lineTexts m.sources {} lines := by
    rw [hm, Recorder.encodeLines_text, if_pos rfl]
    exact List.splitOn_intercalate ';' (fun _ h => Recorder.semicolon_of_mem_lineTexts h) htexts
  have hread := Recorder.readLines?_lineTexts Recorder.Reference.tracks_start hs hnames
  rw [read?, hsplit, hread, Option.bind_eq_bind, Option.bind_some]
  exact mapM_map_eq_some fun line hline =>
    mapM_map_eq_some fun s h => segment?_ofSegment (hs line hline s h)

example : read? ⟨3, none, "", ["a", "b"], [none, none], "AAAA,IAAM;;ACCN,C"⟩ =
    some [[⟨0, some ⟨"a", 0, 0⟩⟩, ⟨4, some ⟨"a", 0, 6⟩⟩], [],
      [⟨0, some ⟨"b", 1, 0⟩⟩, ⟨1, none⟩]] := by decide +kernel

end SourceMap

end SourceScribe
