import SourceScribe.Proofs.Recordings
import SourceScribe.Recording

/-!
# Refused calls leave no trace

A recording is changed in place, and a segment is refused for four different reasons, the
last of them behind the check of its column. All of them are looked at before anything is
changed, so a refusal leaves the recording as it was, whatever it holds. What the calls
keep, one after the other, is that the lines are in order, that the column and the flag
say what the lines hold, and that every segment has a source that was added. So the number
that a map has for other sources is never written, and the recording is at every moment
the recorder behind the same calls.
-/

namespace SourceScribe.SourceMap.Recording

variable {r next : Recording}

section Programs

variable {α β : Type}

/-- A program goes on behind a part that has ended. -/
theorem bind_of_ok {first : Program α} {a : α} (h : first r = .ok a next)
    (rest : α → Program β) : (first >>= rest) r = rest a next := by
  change EStateM.bind first rest r = _
  rw [EStateM.bind, h]

/-- A program stops with its first part. -/
theorem bind_of_error {first : Program α} {e : MappingError} (h : first r = .error e next)
    (rest : α → Program β) : (first >>= rest) r = .error e next := by
  change EStateM.bind first rest r = _
  rw [EStateM.bind, h]

/-- A program begins with the recording as it is. -/
theorem get_bind (r : Recording) (rest : Recording → Program β) :
    (get >>= rest) r = rest r r := bind_of_ok rfl rest

end Programs

/-- The recorder of a recording, with the last line apart. -/
def recorder (r : Recording) : Recorder where
  file := r.file
  sources := r.sources
  finished := r.lines.pop
  current := r.lines.back?
  lastColumn := r.lastColumn
  hasMappings := r.hasMappings

/-- The recording behind a segment of its last line. -/
def taken (r : Recording) (above : Array (Array Segment)) (last : Array Segment) (s : Segment) :
    Recording :=
  { r with lines := above.push (last.push s), lastColumn := s.column, hasMappings := true }

/-- A place is looked at without changing anything. -/
theorem place_eq (r : Recording) (url : Option String) (line column : Option Nat) :
    place url line column r = match r.recorder.origin url line column with
      | .ok origin => .ok origin r
      | .error e => .error e r := by
  cases url with
  | none => rfl
  | some url =>
    cases line with
    | none => rfl
    | some line =>
      cases column with
      | none => rfl
      | some column =>
        have hknows : (r.recorder.sources.lookup url).isSome = r.knows url := rfl
        rw [place, get_bind, Recorder.origin, hknows]
        cases r.knows url <;> rfl

section Mapping

variable (column : Nat) (url : Option String) (line sourceColumn : Option Nat)

/-- Without a line no segment is accepted. -/
theorem addMapping_of_empty (h : r.lines = #[]) :
    addMapping column url line sourceColumn r = .error .noLine r := by
  rw [addMapping, get_bind, h]
  rfl

/-- A segment in front of the last one is not accepted. -/
theorem addMapping_of_lt (hl : r.lines.isEmpty = false) (h : column < r.lastColumn) :
    addMapping column url line sourceColumn r =
      .error (.outOfOrder column r.lastColumn) r := by
  rw [addMapping, get_bind, hl]
  change ((get : Program Recording) >>= _) r = _
  rw [get_bind, if_pos h]
  rfl

/-- Any other segment is accepted if its place is. -/
theorem addMapping_of_le {above : Array (Array Segment)} {last : Array Segment}
    (hl : r.lines = above.push last) (h : r.lastColumn ≤ column) :
    addMapping column url line sourceColumn r =
      match r.recorder.origin url line sourceColumn with
      | .ok origin => .ok () (r.taken above last ⟨column, origin⟩)
      | .error e => .error e r := by
  have hempty : r.lines.isEmpty = false := by simp [hl]
  rw [addMapping, get_bind, hempty]
  change ((get : Program Recording) >>= _) r = _
  rw [get_bind, if_neg (Nat.not_lt.mpr h)]
  change (place url line sourceColumn >>= _) r = _
  have hplace := place_eq r url line sourceColumn
  cases horigin : r.recorder.origin url line sourceColumn with
  | error e =>
    rw [horigin] at hplace
    rw [bind_of_error hplace]
  | ok origin =>
    rw [horigin] at hplace
    rw [bind_of_ok hplace]
    have hlines : r.lines.modify (r.lines.size - 1) (fun l => l.push ⟨column, origin⟩) =
        above.push (last.push ⟨column, origin⟩) := by
      rw [hl, ← Array.toList_inj, Array.toList_modify, List.modify_eq_take_cons_drop (by simp)]
      simp
    change EStateM.Result.ok () { r with
      lines := r.lines.modify (r.lines.size - 1) (fun l => l.push ⟨column, origin⟩),
      lastColumn := column, hasMappings := true } = _
    rw [hlines]
    rfl

/-- A segment is refused by the recording as it is by the recorder, and then the recording
is as it was; or both take it down behind the others of the last line. -/
theorem addMapping_cases (r : Recording) :
    (∃ e, addMapping column url line sourceColumn r = .error e r ∧
        r.recorder.addMapping column url line sourceColumn = .error e) ∨
      ∃ above last origin, r.lines = above.push last ∧ r.lastColumn ≤ column ∧
        (∀ o ∈ origin, r.knows o.url = true) ∧
        addMapping column url line sourceColumn r =
          .ok () (r.taken above last ⟨column, origin⟩) ∧
        r.recorder.addMapping column url line sourceColumn =
          .ok (r.taken above last ⟨column, origin⟩).recorder := by
  by_cases hempty : r.lines = #[]
  · have hnone : r.recorder.current = none := by simp [recorder, hempty]
    exact .inl ⟨_, addMapping_of_empty column url line sourceColumn hempty,
      Recorder.addMapping_of_none hnone column url line sourceColumn⟩
  · obtain ⟨above, last, hl⟩ := Array.exists_push_of_ne_empty hempty
    have hcurrent : r.recorder.current = some last := by simp [recorder, hl]
    rcases Nat.lt_or_ge column r.lastColumn with hlt | hle
    · exact .inl ⟨_, addMapping_of_lt column url line sourceColumn (by simp [hl]) hlt,
        Recorder.addMapping_of_lt hcurrent hlt url line sourceColumn⟩
    · have hrecording := addMapping_of_le column url line sourceColumn hl hle
      have hrecorder := Recorder.addMapping_of_le hcurrent hle url line sourceColumn
      cases horigin : r.recorder.origin url line sourceColumn with
      | error e =>
        rw [horigin] at hrecording hrecorder
        exact .inl ⟨e, hrecording, hrecorder⟩
      | ok origin =>
        rw [horigin] at hrecording hrecorder
        refine .inr ⟨above, last, origin, hl, hle, fun o ho => ?_, hrecording, ?_⟩
        · have hmem := Recorder.mem_sources_of_origin horigin o ho
          exact Recorder.lookup_isSome_iff.mpr hmem
        · rw [hrecorder]
          simp [Except.map, Recorder.pushed, recorder, taken, hl]

end Mapping

/-- The program of a call. -/
def call : Call → Program Unit
  | .source url content => addSource url content
  | .line => addLine
  | .mapping column url sourceLine sourceColumn => addMapping column url sourceLine sourceColumn

/-- The recording behind a call, whether it is refused or not. -/
def perform (r : Recording) (c : Call) : Recording :=
  match call c r with
  | .ok _ next => next
  | .error _ next => next

/-- A new recording behind calls. -/
def afterCalls (file : Option String) (calls : List Call) : Recording :=
  calls.foldl perform { file := file }

/-- The calls that are not refused, when all of them are made one after the other. -/
def accepted (r : Recording) : List Call → List Call
  | [] => []
  | c :: rest =>
    match call c r with
    | .ok _ next => c :: next.accepted rest
    | .error _ next => next.accepted rest

/-- A call that is refused leaves the recording as it was. -/
theorem call_error {c : Call} {e : MappingError} (h : call c r = .error e next) : next = r := by
  cases c with
  | source url content => cases h
  | line => cases h
  | mapping column url line sourceColumn =>
    rcases addMapping_cases column url line sourceColumn r with
      ⟨e', hrefused, _⟩ | ⟨above, last, origin, _, _, _, haccepted, _⟩
    · rw [call, hrefused] at h
      cases h
      rfl
    · rw [call, haccepted] at h
      cases h

/-- Without the calls that are refused the recording is the same. -/
theorem foldl_accepted (r : Recording) (calls : List Call) :
    (r.accepted calls).foldl perform r = calls.foldl perform r := by
  induction calls generalizing r with
  | nil => rfl
  | cons c rest ih =>
    rw [accepted, List.foldl_cons, perform]
    cases h : call c r with
    | ok _ next =>
      have hnext : r.perform c = next := by rw [perform, h]
      dsimp only
      rw [List.foldl_cons, hnext, ih]
    | error e next =>
      dsimp only
      rw [call_error h, ih]

/-- The column at which the last line ends so far. -/
def endColumn (r : Recording) : Nat :=
  ((r.lines.back?.bind Array.back?).map Segment.column).getD 0

/-- What every recording keeps. -/
structure Sound (r : Recording) : Prop where
  /-- The segments of a line are in order. -/
  ordered : ∀ line ∈ r.lines, (line.toList.map Segment.column).Pairwise (· ≤ ·)
  /-- The column that is kept is that of the last segment of the last line, or zero. -/
  column : r.lastColumn = r.endColumn
  /-- The flag says whether a line has a segment. -/
  flag : r.hasMappings = true ↔ ∃ line ∈ r.lines, ∃ s, s ∈ line
  /-- The sources of all segments were added. -/
  named : ∀ line ∈ r.lines, ∀ s ∈ line, ∀ o ∈ s.origin, r.knows o.url = true
  /-- No source is kept twice. -/
  once : (r.sources.map Prod.fst).Nodup

/-- A new recording is sound. -/
theorem sound_start (file : Option String) : Sound { file := file } where
  ordered := by simp
  column := rfl
  flag := by simp
  named := by simp
  once := List.nodup_nil

/-- Another source keeps a recording sound. -/
theorem Sound.addSource (h : r.Sound) (url : String) (content : Option String) :
    (r.perform (.source url content)).Sound := by
  change (if r.knows url then r else { r with sources := r.sources ++ [(url, content)] }).Sound
  split
  next => exact h
  next hnew =>
    refine { h with named := fun line hl s hs o ho => ?_, once := ?_ }
    · have hold : (r.sources.lookup o.url).isSome = true := h.named line hl s hs o ho
      simp [knows, List.lookup_append, hold]
    · have hfresh : url ∉ r.sources.map Prod.fst := fun hmem =>
        hnew (Recorder.lookup_isSome_iff.mpr hmem)
      rw [List.map_append, List.perm_append_comm.nodup_iff]
      exact List.nodup_cons.mpr ⟨hfresh, h.once⟩

/-- Another line keeps a recording sound. -/
theorem Sound.addLine (h : r.Sound) : (r.perform .line).Sound := by
  change Sound { r with lines := r.lines.push #[], lastColumn := 0 }
  refine { h with ordered := ?_, column := ?_, flag := ?_, named := ?_ }
  · intro line hl
    rcases Array.mem_push.mp hl with hl | rfl
    · exact h.ordered line hl
    · exact List.Pairwise.nil
  · simp [endColumn]
  · rw [h.flag]
    simp [or_and_right, exists_or]
  · intro line hl
    rcases Array.mem_push.mp hl with hl | rfl
    · exact h.named line hl
    · simp

/-- No segment of the last line lies behind the column that is kept. -/
theorem Sound.le_lastColumn (h : r.Sound) {above : Array (Array Segment)} {last : Array Segment}
    (hl : r.lines = above.push last) {s : Segment} (hs : s ∈ last) : s.column ≤ r.lastColumn := by
  obtain ⟨front, t, rfl⟩ := Array.exists_push_of_ne_empty (Array.ne_empty_of_mem hs)
  have hend : r.lastColumn = t.column := by simp [h.column, endColumn, hl]
  have hordered := h.ordered (front.push t) (by simp [hl])
  rw [Array.toList_push, List.map_append, List.pairwise_append] at hordered
  rw [hend]
  rcases Array.mem_push.mp hs with hfront | rfl
  · exact hordered.2.2 s.column (List.mem_map_of_mem hfront.val) t.column (by simp)
  · exact Nat.le_refl _

/-- Another segment keeps a recording sound. -/
theorem Sound.taken (h : r.Sound) {above : Array (Array Segment)} {last : Array Segment}
    (hl : r.lines = above.push last) {s : Segment} (hc : r.lastColumn ≤ s.column)
    (hn : ∀ o ∈ s.origin, r.knows o.url = true) : (r.taken above last s).Sound := by
  have habove : ∀ line ∈ above, line ∈ r.lines := by simp +contextual [hl]
  have hlast : last ∈ r.lines := by simp [hl]
  refine ⟨?_, by simp [Recording.taken, endColumn], ?_, ?_, h.once⟩
  · intro line hline
    rcases Array.mem_push.mp hline with hline | rfl
    · exact h.ordered line (habove line hline)
    · rw [Array.toList_push, List.map_append, List.pairwise_append]
      refine ⟨h.ordered last hlast, List.pairwise_singleton _ _, ?_⟩
      intro column hcolumn _ hs
      obtain ⟨t, ht, rfl⟩ := List.mem_map.mp hcolumn
      rw [List.mem_singleton.mp hs]
      exact Nat.le_trans (h.le_lastColumn hl (Array.mem_toList_iff.mp ht)) hc
  · exact iff_of_true rfl ⟨last.push s, Array.mem_push_self, s, Array.mem_push_self⟩
  · intro line hline t ht
    rcases Array.mem_push.mp hline with hline | rfl
    · exact h.named line (habove line hline) t ht
    · rcases Array.mem_push.mp ht with ht | rfl
      · exact h.named last hlast t ht
      · exact hn

/-- Every call keeps a recording sound. -/
theorem Sound.perform (h : r.Sound) (c : Call) : (r.perform c).Sound := by
  cases c with
  | source url content => exact h.addSource url content
  | line => exact h.addLine
  | mapping column url line sourceColumn =>
    rcases addMapping_cases column url line sourceColumn r with
      ⟨e, hrefused, _⟩ | ⟨above, last, origin, hl, hc, hn, haccepted, _⟩
    · rw [Recording.perform, call, hrefused]
      exact h
    · rw [Recording.perform, call, haccepted]
      exact h.taken hl hc hn

/-- Whatever calls are made, the recording is sound. -/
theorem sound_afterCalls (file : Option String) (calls : List Call) :
    (afterCalls file calls).Sound :=
  List.foldlRecOn calls Recording.perform (sound_start file) fun _ h c _ => h.perform c

section Finish

variable {names : List String} {number : String → Nat}

/-- A name that is listed has the number of its place, whatever the others get. -/
theorem number_of_mem {url : String} (h : url ∈ names) (unknown : Nat) :
    (names.idxOf? url).getD unknown = names.idxOf url := by
  obtain ⟨i, hi⟩ := Option.isSome_iff_exists.mp (List.isSome_idxOf?.mpr h)
  rw [hi]
  exact (List.findIdx?_eq_some_iff_findIdx_eq.mp hi).2.symm

/-- Writing goes on behind a part with what the part has left. -/
theorem run_bind_of_run {α β : Type} {first : StateM Tally α} {t next : Tally} {a : α}
    (h : first.run t = (a, next)) (rest : α → StateM Tally β) :
    (first >>= rest).run t = (rest a).run next := by
  rw [StateT.run_bind, h]
  rfl

/-- A segment is written as the recorder writes it. -/
theorem writeSegment_run {s : Segment} (h : ∀ o ∈ s.origin, number o.url = names.idxOf o.url)
    (t : Tally) : (writeSegment number s).run t =
      ((Recorder.encodeSegment names t.column t.place s).1,
        ⟨.ofNat s.column, (Recorder.encodeSegment names t.column t.place s).2⟩) := by
  obtain ⟨column, origin⟩ := s
  cases origin with
  | none => rfl
  | some o =>
    have hnumber : number o.url = names.idxOf o.url := h o rfl
    simp only [Recorder.encodeSegment, ← hnumber]
    rfl

/-- The segments of a line are written as the recorder writes them. -/
theorem mapM_writeSegment_run {segments : List Segment}
    (h : ∀ s ∈ segments, ∀ o ∈ s.origin, number o.url = names.idxOf o.url) (first : Bool)
    (t : Tally) : ∃ column, (segments.mapM (writeSegment number)).run t =
      (Recorder.segmentTexts names t.column t.place segments,
        ⟨column, (Recorder.encodeLine names first t.column t.place segments).2⟩) := by
  induction segments generalizing first t with
  | nil => exact ⟨t.column, rfl⟩
  | cons s rest ih =>
    obtain ⟨hs, hrest⟩ := List.forall_mem_cons.mp h
    obtain ⟨column, hrun⟩ := ih hrest false
      ⟨.ofNat s.column, (Recorder.encodeSegment names t.column t.place s).2⟩
    refine ⟨column, ?_⟩
    rw [List.mapM_cons, run_bind_of_run (writeSegment_run hs t), run_bind_of_run hrun]
    rfl

/-- A line is written as the recorder writes it. -/
theorem writeLine_run {line : Array Segment}
    (h : ∀ s ∈ line, ∀ o ∈ s.origin, number o.url = names.idxOf o.url) (t : Tally) :
    ∃ column, (writeLine number line).run t =
      ((Recorder.encodeLine names true 0 t.place line.toList).1,
        ⟨column, (Recorder.encodeLine names true 0 t.place line.toList).2⟩) := by
  have hnumbers : ∀ s ∈ line.toList, ∀ o ∈ s.origin, number o.url = names.idxOf o.url :=
    fun s hs => h s (Array.mem_toList_iff.mp hs)
  obtain ⟨column, hrun⟩ := mapM_writeSegment_run hnumbers true { t with column := 0 }
  have hzero : (modify fun t => { t with column := 0 } : StateM Tally Unit).run t =
      ((), { t with column := 0 }) := rfl
  refine ⟨column, ?_⟩
  rw [writeLine, run_bind_of_run hzero, run_bind_of_run hrun, Recorder.encodeLine_text]
  rfl

/-- Lines are written as the recorder writes them. -/
theorem mapM_writeLine_run {lines : List (Array Segment)}
    (h : ∀ line ∈ lines, ∀ s ∈ line, ∀ o ∈ s.origin, number o.url = names.idxOf o.url)
    (t : Tally) : ((lines.mapM (writeLine number)).run t).1 =
      Recorder.lineTexts names t.place (lines.map Array.toList) := by
  induction lines generalizing t with
  | nil => rfl
  | cons line rest ih =>
    obtain ⟨hline, hrest⟩ := List.forall_mem_cons.mp h
    obtain ⟨column, hrun⟩ := writeLine_run hline t
    have hmore := ih hrest ⟨column, (Recorder.encodeLine names true 0 t.place line.toList).2⟩
    rw [List.mapM_cons, run_bind_of_run hrun, StateT.run_bind]
    exact congrArg _ hmore

/-- The lines of a recording are those of its recorder. -/
theorem lines_recorder (r : Recording) : r.recorder.lines = r.lines.toList.map Array.toList := by
  by_cases hempty : r.lines = #[]
  · simp [recorder, Recorder.lines, hempty]
  · obtain ⟨above, last, hl⟩ := Array.exists_push_of_ne_empty hempty
    simp [recorder, Recorder.lines, hl]

/-- The map of a sound recording is that of its recorder, whatever number is kept for
sources that were not added. -/
theorem Sound.finishWith_eq (h : r.Sound) (unknown : Nat) :
    r.finishWith unknown = r.recorder.finish := by
  have hnames : (r.sources.map Prod.fst).mergeSort (fun a b => decide (a ≤ b)) =
      r.recorder.sorted.map Prod.fst := by
    rw [Recorder.sorted, List.map_mergeSort (s := fun a b => decide (a ≤ b)) fun _ _ _ _ => rfl]
    rfl
  have hcontents : r.recorder.sorted.map Prod.snd =
      (r.recorder.sorted.map Prod.fst).map fun url => (r.sources.lookup url).join :=
    Recorder.contents_eq h.once
  let number : String → Nat := fun url =>
    ((r.recorder.sorted.map Prod.fst).idxOf? url).getD unknown
  have hnumbers : ∀ line ∈ r.lines.toList, ∀ s ∈ line, ∀ o ∈ s.origin,
      number o.url = (r.recorder.sorted.map Prod.fst).idxOf o.url := by
    intro line hline s hs o ho
    have hknown : (r.recorder.sources.lookup o.url).isSome = true :=
      h.named line (Array.mem_toList_iff.mp hline) s hs o ho
    exact number_of_mem (Recorder.mem_sorted_iff.mpr (Recorder.lookup_isSome_iff.mp hknown)) unknown
  have hmappings : ((writeLines number r.lines).run {}).1 =
      Recorder.encodeLines (r.recorder.sorted.map Prod.fst) true {} r.recorder.lines := by
    rw [Recorder.encodeLines_text, lines_recorder, if_pos rfl, ← mapM_writeLine_run hnumbers {}]
    rfl
  rw [finishWith, Recorder.finish]
  dsimp only
  rw [hnames, ← hcontents, hmappings]
  rfl

end Finish

/-- The recorder does what a recording does. -/
theorem recorder_perform (r : Recording) (c : Call) :
    (r.perform c).recorder = r.recorder.perform c := by
  cases c with
  | source url content =>
    change (if r.knows url then r else { r with sources := r.sources ++ [(url, content)] }).recorder
      = if r.knows url then r.recorder else _
    split <;> rfl
  | line =>
    change Recording.recorder { r with lines := r.lines.push #[], lastColumn := 0 } = _
    by_cases hempty : r.lines = #[]
    · simp [recorder, Recorder.perform, Recorder.addLine, hempty]
    · obtain ⟨above, last, hl⟩ := Array.exists_push_of_ne_empty hempty
      simp [recorder, Recorder.perform, Recorder.addLine, hl]
  | mapping column url line sourceColumn =>
    rcases addMapping_cases column url line sourceColumn r with
      ⟨e, hrefused, hrecorder⟩ | ⟨above, last, origin, _, _, _, haccepted, hrecorder⟩
    · rw [perform, call, hrefused, Recorder.perform, hrecorder]
    · rw [perform, call, haccepted, Recorder.perform, hrecorder]

/-- Behind the same calls the recorder of a recording is the one behind the calls. -/
theorem recorder_afterCalls (file : Option String) (calls : List Call) :
    (afterCalls file calls).recorder = Recorder.afterCalls file calls :=
  (List.foldl_hom recorder fun r c => (recorder_perform r c).symm).symm

/-- **Refused calls leave no trace.** Whatever calls are made, the segments of every line
are in order, the column that is kept is that of the last segment of the last line or zero,
the flag says whether there is a segment, and the sources of all segments were added, so
that the map does not depend on the number that is kept for other sources; it is the map of
the recorder behind the calls. A call that is refused leaves any recording exactly as it
was, and the calls that are not refused lead to the same recording without the others. -/
theorem refused_calls_leave_no_trace (file : Option String) (calls : List Call) :
    (afterCalls file calls).Sound ∧
      (∀ unknown, (afterCalls file calls).finishWith unknown = (afterCalls file calls).finish) ∧
      (afterCalls file calls).finish = (Recorder.afterCalls file calls).finish ∧
      (∀ (r next : Recording) (c : Call) (e : MappingError), call c r = .error e next → next = r) ∧
      afterCalls file (accepted { file := file } calls) = afterCalls file calls := by
  have hsound := sound_afterCalls file calls
  refine ⟨hsound, fun unknown => ?_, ?_, fun r next c e h => call_error h, ?_⟩
  · rw [finish, hsound.finishWith_eq, hsound.finishWith_eq]
  · rw [finish, hsound.finishWith_eq, recorder_afterCalls]
  · exact foldl_accepted { file := file } calls

/-- Of a few calls three are refused, each for a reason of its own, and those that are
left lead to the same map. -/
theorem refused_calls_leave_no_trace_shortCalls :
    (accepted { file := none } Recorder.shortCalls).length + 3 = Recorder.shortCalls.length ∧
      call (.mapping 5 (some "d") (some 0) (some 0))
          (afterCalls none (Recorder.shortCalls.take 8)) =
        .error (.unknownSource "d") (afterCalls none (Recorder.shortCalls.take 8)) ∧
      (afterCalls none (accepted { file := none } Recorder.shortCalls)).finish =
        (Recorder.afterCalls none Recorder.shortCalls).finish := by
  obtain ⟨_, _, hfinish, hrefused, haccepted⟩ :=
    refused_calls_leave_no_trace none Recorder.shortCalls
  rw [haccepted]
  refine ⟨by decide +kernel, ?_, hfinish⟩
  have herror : (match call (.mapping 5 (some "d") (some 0) (some 0))
      (afterCalls none (Recorder.shortCalls.take 8)) with
    | .ok _ _ => none
    | .error e _ => some e) = some (.unknownSource "d") := by decide +kernel
  cases h : call (.mapping 5 (some "d") (some 0) (some 0))
      (afterCalls none (Recorder.shortCalls.take 8)) with
  | ok _ next =>
    rw [h] at herror
    cases herror
  | error e next =>
    rw [h] at herror
    rw [hrefused _ _ _ _ h, Option.some.inj herror]

end SourceScribe.SourceMap.Recording
