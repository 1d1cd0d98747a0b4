import SourceScribe.Proofs.Segments

/-!
# What a recorder takes down

A recorder is told about sources, lines and segments in any order. The log of
the calls says what they ought to leave, without the column, the flag and the
table of sources that a recorder keeps: a segment is taken down if there is a
line, no segment of that line lies behind it, and its place names a source that
was added. The main result is that the finished map of a recorder, read by the
rules of version 3, is the log, and that there is no map exactly when no segment
was taken down.
-/

namespace SourceScribe.SourceMap

/-- A call of a recorder. -/
inductive Call where
  /-- Adds a source. -/
  | source (url : String) (content : Option String)
  /-- Begins a line. -/
  | line
  /-- Adds a segment to the last line. -/
  | mapping (column : Nat) (url : Option String) (sourceLine sourceColumn : Option Nat)
deriving DecidableEq, Repr

/-- The source that a call adds. -/
def Call.added? : Call → Option (String × Option String)
  | .source url content => some (url, content)
  | _ => none

/-- What calls ought to leave. -/
structure Log where
  /-- The sources that were added, in order, each as often as it was added. -/
  sources : List (String × Option String) := []
  /-- The lines with the segments that were taken down. -/
  lines : List (List Segment) := []
deriving DecidableEq, Repr

namespace Log

/-- The place of a segment, if it is given one that can be. -/
def place? (l : Log) : Option String → Option Nat → Option Nat → Option (Option Origin)
  | none, _, _ => some none
  | some url, some line, some column =>
    if url ∈ l.sources.map Prod.fst then some (some ⟨url, line, column⟩) else none
  | some _, _, _ => none

/-- The log behind a call. -/
def enter (l : Log) : Call → Log
  | .source url content => { l with sources := l.sources ++ [(url, content)] }
  | .line => { l with lines := l.lines ++ [[]] }
  | .mapping column url sourceLine sourceColumn =>
    match l.lines.getLast?, l.place? url sourceLine sourceColumn with
    | some last, some place =>
      if ∀ s ∈ last, s.column ≤ column then
        { l with lines := l.lines.dropLast ++ [last ++ [⟨column, place⟩]] }
      else l
    | _, _ => l

/-- The log of calls. -/
def ofCalls (calls : List Call) : Log := calls.foldl enter {}

/-- The segments that were taken down, in order. -/
def segments (l : Log) : List Segment := l.lines.flatten

/-- Every number of a segment leaves room for the sign of a difference. -/
def Small (l : Log) : Prop :=
  ∀ s ∈ l.segments, s.column < 2 ^ 62 ∧ ∀ o ∈ s.origin, o.line < 2 ^ 62 ∧ o.column < 2 ^ 62

end Log

namespace Recorder

/-- The recorder behind a call; one that is refused changes nothing. -/
def perform (r : Recorder) : Call → Recorder
  | .source url content => r.addSource url content
  | .line => r.addLine
  | .mapping column url sourceLine sourceColumn =>
    match r.addMapping column url sourceLine sourceColumn with
    | .ok r => r
    | .error _ => r

/-- A new recorder behind calls. -/
def afterCalls (file : Option String) (calls : List Call) : Recorder :=
  calls.foldl perform { file := file }

/-- What a recorder keeps is what the log says. -/
structure Keeps (r : Recorder) (l : Log) : Prop where
  /-- The lines are the same. -/
  lines : r.lines = l.lines
  /-- Where there is no last line there is no other. -/
  finished : r.current = none → r.finished = #[]
  /-- A source has the text that was added first. -/
  sources : ∀ url, r.sources.lookup url = l.sources.lookup url
  /-- No source is kept twice. -/
  nodup : (r.sources.map Prod.fst).Nodup
  /-- No segment of the last line lies behind the column that is kept, and the
  column is that of one of them or zero. -/
  column : ∀ segments, r.current = some segments → ∀ n,
    (∀ s ∈ segments.toList, s.column ≤ n) ↔ r.lastColumn ≤ n
  /-- The flag says whether there is a segment. -/
  flag : r.hasMappings = true ↔ l.segments ≠ []
  /-- The sources of all segments were added. -/
  named : ∀ s ∈ l.segments, ∀ o ∈ s.origin, o.url ∈ r.sources.map Prod.fst

variable {r : Recorder} {l : Log}

/-- The names that can be looked up are those of the sources. -/
theorem lookup_isSome_iff {sources : List (String × Option String)} {url : String} :
    (sources.lookup url).isSome = true ↔ url ∈ sources.map Prod.fst := by
  simp [List.lookup_isSome_iff]

/-- A recorder and the log name the same sources. -/
theorem Keeps.mem_sources_iff (h : r.Keeps l) {url : String} :
    url ∈ r.sources.map Prod.fst ↔ url ∈ l.sources.map Prod.fst := by
  rw [← lookup_isSome_iff, ← lookup_isSome_iff, h.sources]

/-- A recorder and the log accept the same places. -/
theorem Keeps.origin_eq (h : r.Keeps l) (url : Option String) (line column : Option Nat) :
    (r.origin url line column).toOption = l.place? url line column := by
  unfold origin Log.place?
  cases url with
  | none => rfl
  | some url =>
    cases line with
    | none => rfl
    | some line =>
      cases column with
      | none => rfl
      | some column =>
        simp only [lookup_isSome_iff, h.mem_sources_iff]
        split <;> rfl

/-- A new recorder has taken down nothing. -/
theorem keeps_start (file : Option String) : Keeps { file := file } {} where
  lines := rfl
  finished _ := rfl
  sources _ := rfl
  nodup := List.nodup_nil
  column _ h := by cases h
  flag := by simp [Log.segments]
  named _ h := by simp [Log.segments] at h

/-- A source that is added again changes nothing but the log. -/
theorem Keeps.addSource (h : r.Keeps l) (url : String) (content : Option String) :
    (r.addSource url content).Keeps (l.enter (.source url content)) := by
  unfold Recorder.addSource
  by_cases hknown : (r.sources.lookup url).isSome = true
  · rw [if_pos hknown]
    refine { h with sources := fun other => ?_ }
    rw [h.sources, Log.enter, List.lookup_append]
    by_cases hother : other = url
    · rw [hother, Option.or_of_isSome (h.sources url ▸ hknown)]
    · have hnone : [(url, content)].lookup other = none := by simp [hother]
      rw [hnone, Option.or_none]
  · rw [if_neg hknown]
    have hnew : url ∉ r.sources.map Prod.fst := fun hmem => hknown (lookup_isSome_iff.mpr hmem)
    refine { h with sources := fun other => ?_, nodup := ?_, named := fun s hs o ho => ?_ }
    · simp only [Log.enter, List.lookup_append, h.sources]
    · rw [List.map_append, List.nodup_append]
      refine ⟨h.nodup, by simp, ?_⟩
      rintro other hother _ hurl rfl
      have heq : other = url := List.mem_singleton.mp hurl
      exact hnew (heq ▸ hother)
    · exact List.map_append ▸ List.mem_append_left _ (h.named s hs o ho)

/-- A line is begun. -/
theorem Keeps.addLine (h : r.Keeps l) : r.addLine.Keeps (l.enter .line) where
  lines := by
    have hlines : r.addLine.lines = r.lines ++ [[]] := by
      unfold Recorder.addLine Recorder.lines
      cases r.current <;> simp
    rw [hlines, h.lines, Log.enter]
  finished hnone := by cases hnone
  sources := h.sources
  nodup := h.nodup
  column segments hsegments n := by
    cases hsegments
    simp [Recorder.addLine]
  flag := by simpa [Log.enter, Log.segments, Recorder.addLine] using h.flag
  named := by simpa [Log.enter, Log.segments, Recorder.addLine] using h.named

/-- Without a line no segment is accepted. -/
theorem addMapping_of_none (hr : r.current = none) (column : Nat) (url : Option String)
    (line sourceColumn : Option Nat) :
    r.addMapping column url line sourceColumn = .error .noLine := by
  unfold addMapping
  rw [hr]

/-- A segment in front of the last one is not accepted. -/
theorem addMapping_of_lt {segments : Array Segment} (hr : r.current = some segments) {column : Nat}
    (hc : column < r.lastColumn) (url : Option String) (line sourceColumn : Option Nat) :
    r.addMapping column url line sourceColumn = .error (.outOfOrder column r.lastColumn) := by
  unfold addMapping
  simp only [hr, if_pos hc]

/-- The recorder behind a segment of its last line. -/
def pushed (r : Recorder) (segments : Array Segment) (s : Segment) : Recorder :=
  { r with current := some (segments.push s), lastColumn := s.column, hasMappings := true }

/-- Any other segment is accepted if its place is. -/
theorem addMapping_of_le {segments : Array Segment} (hr : r.current = some segments) {column : Nat}
    (hc : r.lastColumn ≤ column) (url : Option String) (line sourceColumn : Option Nat) :
    r.addMapping column url line sourceColumn =
      (r.origin url line sourceColumn).map fun place => r.pushed segments ⟨column, place⟩ := by
  unfold addMapping
  simp only [hr, if_neg (Nat.not_lt_of_le hc)]
  cases r.origin url line sourceColumn <;> rfl

/-- The last line of the log is the one to which a recorder adds. -/
theorem Keeps.lines_eq (h : r.Keeps l) {segments : Array Segment} (hs : r.current = some segments) :
    l.lines = r.finished.toList.map Array.toList ++ [segments.toList] := by
  rw [← h.lines, Recorder.lines, hs]
  simp

/-- A segment is taken down behind the others of the last line. -/
theorem Keeps.push (h : r.Keeps l) {segments : Array Segment} (hr : r.current = some segments)
    {s : Segment} (hc : r.lastColumn ≤ s.column)
    (hnamed : ∀ o ∈ s.origin, o.url ∈ r.sources.map Prod.fst) :
    (r.pushed segments s).Keeps
      { l with lines := r.finished.toList.map Array.toList ++ [segments.toList ++ [s]] } where
  lines := by simp [Recorder.lines, pushed]
  finished hnone := by cases hnone
  sources := h.sources
  nodup := h.nodup
  column added hadded n := by
    cases hadded
    have hbefore := (h.column segments hr s.column).mpr hc
    simp only [Array.toList_push, List.mem_append, List.mem_singleton, or_imp, forall_and, forall_eq]
    exact ⟨fun hall => hall.2, fun hle => ⟨fun s hs => Nat.le_trans (hbefore s hs) hle, hle⟩⟩
  flag := by simp [Log.segments, pushed]
  named other hother o ho := by
    have hold := h.named
    simp only [Log.segments, h.lines_eq hr, List.flatten_append, List.flatten_singleton,
      List.mem_append, List.mem_singleton] at hold hother
    rcases hother with hother | hother | rfl
    · exact hold other (.inl hother) o ho
    · exact hold other (.inr hother) o ho
    · exact hnamed o ho

/-- The source of a place that is accepted was added. -/
theorem mem_sources_of_origin {url : Option String} {line column : Option Nat}
    {place : Option Origin} (h : r.origin url line column = .ok place) :
    ∀ o ∈ place, o.url ∈ r.sources.map Prod.fst := by
  unfold origin at h
  split at h
  · cases h
    exact fun o ho => by cases ho
  · split at h
    next hknown =>
      cases h
      rintro o ⟨⟩
      exact lookup_isSome_iff.mp hknown
    next => cases h
  · cases h

/-- A segment is taken down by the recorder exactly when the log takes it down. -/
theorem Keeps.addMapping (h : r.Keeps l) (column : Nat) (url : Option String)
    (line sourceColumn : Option Nat) :
    (r.perform (.mapping column url line sourceColumn)).Keeps
      (l.enter (.mapping column url line sourceColumn)) := by
  have horigin := h.origin_eq url line sourceColumn
  simp only [Recorder.perform, Log.enter]
  cases hr : r.current with
  | none =>
    have hlines : l.lines = [] := by
      rw [← h.lines, Recorder.lines, hr, h.finished hr]
      rfl
    simp only [addMapping_of_none hr, hlines, List.getLast?_nil]
    exact h
  | some segments =>
    have hlast : l.lines.getLast? = some segments.toList := by
      rw [h.lines_eq hr, List.getLast?_concat]
    by_cases hc : r.lastColumn ≤ column
    · have hbehind := (h.column segments hr column).mpr hc
      rw [addMapping_of_le hr hc]
      cases hplace : r.origin url line sourceColumn with
      | error e =>
        rw [hplace] at horigin
        simp only [hlast, ← horigin, Except.toOption, Except.map]
        exact h
      | ok place =>
        rw [hplace] at horigin
        simp only [hlast, ← horigin, Except.toOption, Except.map, if_pos hbehind]
        rw [h.lines_eq hr, List.dropLast_concat]
        exact h.push hr hc (mem_sources_of_origin hplace)
    · have hbehind : ¬ ∀ s ∈ segments.toList, s.column ≤ column :=
        fun hall => hc ((h.column segments hr column).mp hall)
      simp only [addMapping_of_lt hr (Nat.lt_of_not_le hc), hlast]
      cases l.place? url line sourceColumn with
      | none => exact h
      | some place =>
        simp only [if_neg hbehind]
        exact h

/-- A call keeps a recorder and the log together. -/
theorem Keeps.perform (h : r.Keeps l) (c : Call) : (r.perform c).Keeps (l.enter c) := by
  cases c with
  | source url content => exact h.addSource url content
  | line => exact h.addLine
  | mapping column url line sourceColumn => exact h.addMapping column url line sourceColumn

/-- Calls keep a recorder and the log together. -/
theorem keeps_afterCalls (file : Option String) (calls : List Call) :
    (afterCalls file calls).Keeps (Log.ofCalls calls) := by
  have hrun : ∀ (calls : List Call) (r : Recorder) (l : Log), r.Keeps l →
      (calls.foldl Recorder.perform r).Keeps (calls.foldl Log.enter l) := by
    intro calls
    induction calls with
    | nil => exact fun r l h => h
    | cons c calls ih => exact fun r l h => ih (r.perform c) (l.enter c) (h.perform c)
  exact hrun calls _ _ (keeps_start file)

/-- The sources of a finished map are in strict order. -/
theorem Keeps.pairwise_sorted (h : r.Keeps l) : (r.sorted.map Prod.fst).Pairwise (· < ·) := by
  have htrans : ∀ a b c : String × Option String, decide (a.1 ≤ b.1) = true →
      decide (b.1 ≤ c.1) = true → decide (a.1 ≤ c.1) = true := by
    simp only [decide_eq_true_eq]
    exact fun a b c => String.le_trans
  have htotal : ∀ a b : String × Option String,
      (decide (a.1 ≤ b.1) || decide (b.1 ≤ a.1)) = true := by
    simp only [Bool.or_eq_true, decide_eq_true_eq]
    exact fun a b => String.le_total a.1 b.1
  have hsorted : r.sorted.Pairwise fun a b => decide (a.1 ≤ b.1) = true :=
    List.pairwise_mergeSort htrans htotal r.sources
  have hnodup : (r.sorted.map Prod.fst).Nodup :=
    ((List.mergeSort_perm r.sources _).map Prod.fst).nodup_iff.mpr h.nodup
  have hle : r.sorted.Pairwise fun a b => a.1 ≤ b.1 := hsorted.imp fun h => of_decide_eq_true h
  have hne : r.sorted.Pairwise fun a b => a.1 ≠ b.1 := List.pairwise_map.mp hnodup
  have hlt : ∀ a b : String × Option String, a.1 ≤ b.1 ∧ a.1 ≠ b.1 → a.1 < b.1 :=
    fun a b h => String.not_le.mp fun hge => h.2 (String.le_antisymm h.1 hge)
  rw [List.pairwise_map]
  exact (hle.and hne).imp (hlt _ _)

/-- A finished map lists the sources of the log. -/
theorem mem_sorted_iff {url : String} :
    url ∈ r.sorted.map Prod.fst ↔ url ∈ r.sources.map Prod.fst :=
  ((List.mergeSort_perm r.sources _).map Prod.fst).mem_iff

/-- A name that stands in a table only once is looked up where it stands. -/
theorem lookup_of_mem {sources : List (String × Option String)}
    (h : (sources.map Prod.fst).Nodup) {url : String} {content : Option String}
    (hmem : (url, content) ∈ sources) : sources.lookup url = some content := by
  induction sources with
  | nil => cases hmem
  | cons source rest ih =>
    obtain ⟨hnew, hrest⟩ := List.nodup_cons.mp h
    rcases List.mem_cons.mp hmem with rfl | hmem
    · exact List.lookup_cons_self
    · have hne : url ≠ source.1 := fun heq => hnew (heq ▸ List.mem_map_of_mem hmem)
      rw [List.lookup_cons, beq_false_of_ne hne]
      exact ih hrest hmem

/-- A finished map lists beside each source the text that is kept for it. -/
theorem contents_eq (h : (r.sources.map Prod.fst).Nodup) :
    r.sorted.map Prod.snd = (r.sorted.map Prod.fst).map fun url => (r.sources.lookup url).join := by
  rw [List.map_map]
  apply List.map_congr_left
  rintro ⟨url, content⟩ hmem
  have hsource : (url, content) ∈ r.sources := (List.mergeSort_perm r.sources _).mem_iff.mp hmem
  rw [Function.comp_apply, lookup_of_mem h hsource]
  rfl

/-- A finished map lists beside each source the text that was added first. -/
theorem Keeps.contents_sorted (h : r.Keeps l) :
    r.sorted.map Prod.snd = (r.sorted.map Prod.fst).map fun url => (l.sources.lookup url).join := by
  simp only [contents_eq h.nodup, h.sources]

/-- The sources of the log are those that calls add. -/
theorem sources_ofCalls (calls : List Call) :
    (Log.ofCalls calls).sources = calls.filterMap Call.added? := by
  have hrun : ∀ (calls : List Call) (l : Log),
      (calls.foldl Log.enter l).sources = l.sources ++ calls.filterMap Call.added? := by
    intro calls
    induction calls with
    | nil => exact fun l => (List.append_nil _).symm
    | cons c calls ih =>
      intro l
      have hstep : (l.enter c).sources = l.sources ++ [c].filterMap Call.added? := by
        cases c with
        | source url content => rfl
        | line => exact (List.append_nil _).symm
        | mapping column url line sourceColumn =>
          rw [show [Call.mapping column url line sourceColumn].filterMap Call.added? = [] from rfl,
            List.append_nil, Log.enter]
          split
          · split <;> rfl
          · rfl
      rw [List.foldl_cons, ih, hstep, List.append_assoc, ← List.filterMap_append]
      rfl
  exact hrun calls {}

/-- A source is listed exactly if a call adds it. -/
theorem mem_added_iff {calls : List Call} {url : String} :
    url ∈ (calls.filterMap Call.added?).map Prod.fst ↔ ∃ content, .source url content ∈ calls := by
  simp only [List.mem_map, List.mem_filterMap, Prod.exists, exists_and_right, exists_eq_right]
  constructor
  · rintro ⟨content, c, hc, hadded⟩
    cases c with
    | source url' content' =>
      cases hadded
      exact ⟨content, hc⟩
    | line => cases hadded
    | mapping => cases hadded
  · rintro ⟨content, hc⟩
    exact ⟨content, _, hc, rfl⟩

/-- A recorder keeps the name of its file. -/
theorem file_afterCalls (file : Option String) (calls : List Call) :
    (afterCalls file calls).file = file := by
  have hstep : ∀ (r : Recorder) (c : Call), (r.perform c).file = r.file := by
    intro r c
    cases c with
    | source url content =>
      simp only [Recorder.perform, addSource]
      split <;> rfl
    | line => rfl
    | mapping column url line sourceColumn =>
      simp only [Recorder.perform]
      cases hr : r.current with
      | none => rw [addMapping_of_none hr]
      | some segments =>
        by_cases hc : r.lastColumn ≤ column
        · rw [addMapping_of_le hr hc]
          cases r.origin url line sourceColumn <;> rfl
        · rw [addMapping_of_lt hr (Nat.lt_of_not_le hc)]
  have hrun : ∀ (calls : List Call) (r : Recorder),
      (calls.foldl Recorder.perform r).file = r.file := by
    intro calls
    induction calls with
    | nil => exact fun r => rfl
    | cons c calls ih => exact fun r => (ih (r.perform c)).trans (hstep r c)
  exact hrun calls { file := file }

/-- What the log says fits into a finished map. -/
theorem Keeps.fits (h : r.Keeps l) (hsmall : l.Small) :
    ∀ line ∈ r.lines, ∀ s ∈ line, s.Fits (r.sorted.map Prod.fst) := by
  rw [h.lines]
  intro line hline s hs
  have hmem : s ∈ l.segments := List.mem_flatten.mpr ⟨line, hline, hs⟩
  obtain ⟨hcolumn, hplace⟩ := hsmall s hmem
  exact ⟨hcolumn, fun o ho => mem_sorted_iff.mpr (h.named s hmem o ho), hplace⟩

/-- There is no map exactly when no segment was taken down. -/
theorem Keeps.finish_eq_none_iff (h : r.Keeps l) : r.finish = none ↔ l.segments = [] := by
  unfold finish
  by_cases hflag : r.hasMappings = true
  · simp only [if_pos hflag, reduceCtorEq, h.flag.mp hflag]
  · have hsegments : l.segments = [] :=
      Classical.byContradiction fun hne => hflag (h.flag.mpr hne)
    simp only [if_neg hflag, hsegments]

/-- The parts of a finished map. -/
theorem finish_eq_some {m : SourceMap} (h : r.finish = some m) :
    m.file = r.file ∧ m.sources = r.sorted.map Prod.fst ∧ m.contents = r.sorted.map Prod.snd ∧
      m.mappings.toList = encodeLines m.sources true {} r.lines := by
  unfold finish at h
  split at h
  · cases h
    exact ⟨rfl, rfl, rfl, String.toList_ofList⟩
  · cases h

/-- A finished map is read as the lines of its recorder. -/
theorem Keeps.read?_finish (h : r.Keeps l) (hsmall : l.Small) (hlength : r.sources.length ≤ 2 ^ 62)
    {m : SourceMap} (hm : r.finish = some m) : m.read? = some r.lines := by
  obtain ⟨_, hsources, _, hmappings⟩ := finish_eq_some hm
  have hsegments : l.segments ≠ [] := by
    intro hnil
    rw [h.finish_eq_none_iff.mpr hnil] at hm
    cases hm
  have hne : r.lines ≠ [] := by
    intro hnil
    rw [Log.segments, ← h.lines, hnil] at hsegments
    exact hsegments rfl
  have hnames : m.sources.length ≤ 2 ^ 62 := by
    rwa [hsources, List.length_map, sorted, List.length_mergeSort]
  exact read?_encodeLines hne hmappings (hsources ▸ h.fits hsmall) hnames

/-- The finished map of a recorder, whatever calls were made and which of them were
refused. There is none exactly when no segment was taken down. Otherwise it is
read as the lines and segments of the log; it lists the sources that were added
in strict order, and beside each the text with which it was added first. The
numbers of the segments have to leave room for the sign of a difference, and so
has the number of sources, which is more than a machine can hold. -/
theorem finish_reads_back (file : Option String) (calls : List Call)
    (hsmall : (Log.ofCalls calls).Small)
    (hsources : (afterCalls file calls).sources.length ≤ 2 ^ 62) :
    ((afterCalls file calls).finish = none ↔ (Log.ofCalls calls).segments = []) ∧
      ∀ m, (afterCalls file calls).finish = some m →
        m.read? = some (Log.ofCalls calls).lines ∧
        m.file = file ∧
        m.sources.Pairwise (· < ·) ∧
        (∀ url, url ∈ m.sources ↔ ∃ content, .source url content ∈ calls) ∧
        m.contents = m.sources.map fun url => ((calls.filterMap Call.added?).lookup url).join := by
  have h := keeps_afterCalls file calls
  refine ⟨h.finish_eq_none_iff, fun m hm => ?_⟩
  obtain ⟨hfile, hnames, hcontents, _⟩ := finish_eq_some hm
  refine ⟨?_, hfile.trans (file_afterCalls file calls), ?_, fun url => ?_, ?_⟩
  · rw [h.read?_finish hsmall hsources hm, h.lines]
  · rw [hnames]
    exact h.pairwise_sorted
  · rw [hnames, mem_sorted_iff, h.mem_sources_iff, sources_ofCalls, mem_added_iff]
  · rw [hcontents, hnames, h.contents_sorted, sources_ofCalls]

/-- Calls with an unknown source, a segment that lies in front of another, a line
without segments, a source that is added twice and one that is not used. -/
def shortCalls : List Call :=
  [.mapping 0 none none none, .source "b" (some "text"), .source "a" none, .source "b" none,
    .source "c" none, .line, .mapping 2 (some "b") (some 7) (some 1),
    .mapping 1 (some "b") (some 8) (some 0), .mapping 5 (some "d") (some 0) (some 0), .line, .line,
    .mapping 0 (some "a") (some 3) (some 20), .mapping 0 none (some 1) none]

/-- The map of a recorder behind a few calls is read back. -/
theorem finish_reads_back_shortCalls :
    ∃ m, (afterCalls none shortCalls).finish = some m ∧
      m.read? = some [[⟨2, some ⟨"b", 7, 1⟩⟩], [], [⟨0, some ⟨"a", 3, 20⟩⟩, ⟨0, none⟩]] ∧
      m.sources.Pairwise (· < ·) ∧ m.contents = m.sources.map fun url =>
        ((shortCalls.filterMap Call.added?).lookup url).join := by
  have hsmall : (Log.ofCalls shortCalls).Small := by
    unfold Log.Small
    decide +kernel
  have hsources : (afterCalls none shortCalls).sources.length ≤ 2 ^ 62 := by decide +kernel
  obtain ⟨hnone, hsome⟩ := finish_reads_back none shortCalls hsmall hsources
  have hlines : (Log.ofCalls shortCalls).lines =
      [[⟨2, some ⟨"b", 7, 1⟩⟩], [], [⟨0, some ⟨"a", 3, 20⟩⟩, ⟨0, none⟩]] := by decide +kernel
  have hsegments : (Log.ofCalls shortCalls).segments ≠ [] := by decide +kernel
  obtain ⟨m, hm⟩ := Option.ne_none_iff_exists'.mp (mt hnone.mp hsegments)
  obtain ⟨hread, _, hsorted, _, hcontents⟩ := hsome m hm
  exact ⟨m, hm, hlines ▸ hread, hsorted, hcontents⟩

end Recorder

end SourceScribe.SourceMap
