import Mathlib.Data.List.Chain
import SourceScribe.Proofs.Alignment

/-!
# Looking up a place of the text in the map

A map is asked for a place of the generated text by the rule of version 3: the
last segment of the same line that does not lie behind the place answers. A map
leaves out a spot that was read where the spot in front of it was read. If that
one stands in the same line its segment answers for both, and if it stands in
another line there may be no answer. The main result is that no answer is wrong,
and that every spot has one exactly if neighbouring spots that were read at the
same place stand in the same line.
-/

namespace SourceScribe

namespace SourceMap

/-- The last segment of a line that does not lie behind a column. -/
def segmentAt? (lines : List (List Segment)) (line column : Nat) : Option Segment := do
  let segments ← lines[line]?
  (segments.filter fun s => s.column ≤ column).getLast?

/-- What a place of the generated text stems from. -/
def resolve? (m : SourceMap) (line column : Nat) : Option Origin := do
  let lines ← m.read?
  (← segmentAt? lines line column).origin

end SourceMap

/-- What a place of a generated text stems from; without a map nothing is known. -/
def Generated.resolve? (g : Generated) (line column : Nat) : Option Origin := do
  (← g.map).resolve? line column

/-- What a spot stems from, in a file of the given name. -/
def Spot.origin (url : String) (s : Spot) : Origin := ⟨url, s.position.line, s.position.column⟩

namespace SourceMap

/-- The number of a line is at least that of the first. -/
theorem le_of_mem_numberedFrom {number : Nat} {lines : List (List Segment)} {s : Nat × Segment}
    (h : s ∈ numberedFrom number lines) : number ≤ s.1 := by
  obtain ⟨⟨segments, n⟩, hfound, hs⟩ := List.mem_flatMap.mp h
  obtain ⟨_, _, rfl⟩ := List.mem_map.mp hs
  exact List.le_snd_of_mem_zipIdx hfound

/-- The first line comes first. -/
theorem numberedFrom_cons (number : Nat) (segments : List Segment) (lines : List (List Segment)) :
    numberedFrom number (segments :: lines) =
      (segments.map fun s => (number, s)) ++ numberedFrom (number + 1) lines := rfl

/-- The segments of a line are those with its number. -/
theorem filter_numberedFrom (number : Nat) (lines : List (List Segment)) (i : Nat) :
    ((numberedFrom number lines).filter fun s => s.1 = number + i).map Prod.snd =
      lines[i]?.getD [] := by
  induction lines generalizing number i with
  | nil => rfl
  | cons segments lines ih =>
    rw [numberedFrom_cons, List.filter_append, List.map_append]
    cases i with
    | zero =>
      have hhead : ((segments.map fun s => (number, s)).filter fun s => s.1 = number + 0).map
          Prod.snd = segments := by
        rw [List.filter_eq_self.mpr (by simp), List.map_map]
        exact List.map_id segments
      have htail : ((numberedFrom (number + 1) lines).filter fun s => s.1 = number + 0) = [] := by
        rw [List.filter_eq_nil_iff]
        intro s hs
        have hle := le_of_mem_numberedFrom hs
        simp only [decide_eq_true_eq]
        omega
      rw [hhead, htail, List.map_nil, List.append_nil]
      rfl
    | succ i =>
      have hhead : (segments.map fun s => (number, s)).filter
          (fun s => s.1 = number + (i + 1)) = [] := by
        simp [List.filter_eq_nil_iff]
      have hnumber : number + (i + 1) = number + 1 + i := by omega
      rw [hhead, List.map_nil, List.nil_append, hnumber, ih (number + 1) i]
      rfl

/-- The answer of lines is the last of the segments that may answer. -/
theorem segmentAt?_eq (lines : List (List Segment)) (line column : Nat) :
    segmentAt? lines line column = (((numbered lines).filter fun s =>
      s.1 = line ∧ s.2.column ≤ column).getLast?).map Prod.snd := by
  have hfilter : ((numbered lines).filter fun s => s.1 = line ∧ s.2.column ≤ column).map Prod.snd =
      (lines[line]?.getD []).filter fun s => s.column ≤ column := by
    rw [← filter_numberedFrom 0 lines line, List.filter_map, List.filter_filter]
    congr 2
    funext s
    simp [Bool.and_comm]
  rw [← List.getLast?_map, hfilter, segmentAt?]
  cases lines[line]? <;> rfl

end SourceMap

namespace Spot

/-- A spot stands in front of another. -/
def Before (s s' : Spot) : Prop := s.line < s'.line ∨ s.line = s'.line ∧ s.column < s'.column

/-- Where the last of some spots was read that stand in a line, but not behind a
column. -/
def lookup? (spots : List Spot) (line column : Nat) : Option SourcePosition :=
  ((spots.filter fun s => s.line = line ∧ s.column ≤ column).getLast?).map Spot.position

/-- Only spots are among the changes. -/
theorem mem_of_mem_changes {last : Option SourcePosition} {spots : List Spot} {s : Spot}
    (h : s ∈ changes last spots) : s ∈ spots := by
  induction spots generalizing last with
  | nil => exact h
  | cons first spots ih =>
    rcases List.mem_append.mp h with h | h
    · split at h
      · cases h
      · exact List.mem_singleton.mp h ▸ List.mem_cons_self
    · exact List.mem_cons_of_mem _ (ih h)

/-- Spots behind a place do not answer for it. -/
theorem lookup?_append_of_behind {spots more : List Spot} {s : Spot}
    (h : ∀ s' ∈ more, s.Before s') :
    lookup? (spots ++ more) s.line s.column = lookup? spots s.line s.column := by
  have hnone : (more.filter fun s' => s'.line = s.line ∧ s'.column ≤ s.column) = [] := by
    rw [List.filter_eq_nil_iff]
    intro s' hs'
    rcases h s' hs' with hline | ⟨_, hcolumn⟩
    · simp only [decide_eq_true_eq]
      omega
    · simp only [decide_eq_true_eq]
      omega
  rw [lookup?, List.filter_append, hnone, List.append_nil]
  rfl

/-- The last spot answers for itself. -/
theorem lookup?_concat (spots : List Spot) (s : Spot) :
    lookup? (spots ++ [s]) s.line s.column = some s.position := by
  rw [lookup?, List.filter_append, List.filter_cons_of_pos (by simp), List.filter_nil,
    List.getLast?_concat]
  rfl

/-- A spot in the same line behind the others has the answer of the last of
them. -/
theorem lookup?_of_behind {spots : List Spot} {s s' : Spot} (hline : s'.line = s.line)
    (hcolumn : s'.column ≤ s.column) (h : ∀ s₁ ∈ spots, s₁ = s' ∨ s₁.Before s') :
    lookup? spots s.line s.column = lookup? spots s'.line s'.column := by
  unfold lookup?
  congr 2
  apply List.filter_congr
  intro s₁ hs₁
  have hbefore := h s₁ hs₁
  rw [decide_eq_decide]
  rcases hbefore with rfl | hlt | ⟨_, hlt⟩
  · omega
  · omega
  · omega

/-- There is no answer in a line that has not begun. -/
theorem lookup?_eq_none {spots : List Spot} {line column : Nat} (h : ∀ s ∈ spots, s.line < line) :
    lookup? spots line column = none := by
  have hnone : (spots.filter fun s => s.line = line ∧ s.column ≤ column) = [] := by
    rw [List.filter_eq_nil_iff]
    intro s hs
    have hlt := h s hs
    simp only [decide_eq_true_eq]
    omega
  rw [lookup?, hnone]
  rfl

/-- Where the last spot was read. -/
theorem lastPosition_concat (last : Option SourcePosition) (spots : List Spot) (s : Spot) :
    lastPosition last (spots ++ [s]) = some s.position := by
  rw [lastPosition, List.foldl_append]
  rfl

/-- The last spot is among the changes unless it was read where the one in front
of it was read. -/
theorem changes_concat (spots : List Spot) (s : Spot) :
    changes none (spots ++ [s]) = changes none spots ++
      if lastPosition none spots = some s.position then [] else [s] := by
  rw [changes_append, changes, changes, List.append_nil]

/-- What the changes among spots answer for the last of them. -/
def answer? (spots : List Spot) (s : Spot) : Option SourcePosition :=
  lookup? (changes none (spots ++ [s])) s.line s.column

/-- The first of all spots answers for itself. -/
theorem answer?_nil (s : Spot) : answer? [] s = some s.position := lookup?_concat [] s

/-- A spot that was read elsewhere than the one in front of it answers for
itself. -/
theorem answer?_concat_of_ne {spots : List Spot} {s' s : Spot} (h : s'.position ≠ s.position) :
    answer? (spots ++ [s']) s = some s.position := by
  have hnew : lastPosition none (spots ++ [s']) ≠ some s.position := by
    rw [lastPosition_concat]
    exact fun heq => h (Option.some.inj heq)
  rw [answer?, changes_concat, if_neg hnew]
  exact lookup?_concat _ s

/-- Otherwise the spots in front of it answer. -/
theorem answer?_concat_of_eq {spots : List Spot} {s' s : Spot} (h : s'.position = s.position) :
    answer? (spots ++ [s']) s = lookup? (changes none (spots ++ [s'])) s.line s.column := by
  have hold : lastPosition none (spots ++ [s']) = some s.position := by
    rw [lastPosition_concat, h]
  rw [answer?, changes_concat, if_pos hold, List.append_nil]

/-- Spots in order stand in front of the last of them. -/
theorem before_of_pairwise {spots : List Spot} {s' s : Spot}
    (h : (spots ++ [s'] ++ [s]).Pairwise Before) :
    (∀ s₁ ∈ spots ++ [s'], s₁ = s' ∨ s₁.Before s') ∧ s'.Before s ∧
      ∀ s₁ ∈ spots ++ [s'], s₁.line ≤ s'.line := by
  obtain ⟨hinit, _, hlast⟩ := List.pairwise_append.mp h
  obtain ⟨_, _, hprevious⟩ := List.pairwise_append.mp hinit
  have hbefore : ∀ s₁ ∈ spots ++ [s'], s₁ = s' ∨ s₁.Before s' := by
    intro s₁ hs₁
    rcases List.mem_append.mp hs₁ with hs₁ | hs₁
    · exact .inr (hprevious s₁ hs₁ s' (List.mem_singleton_self s'))
    · exact .inl (List.mem_singleton.mp hs₁)
  refine ⟨hbefore, hlast s' (by simp) s (List.mem_singleton_self s), fun s₁ hs₁ => ?_⟩
  rcases hbefore s₁ hs₁ with rfl | hlt | ⟨heq, _⟩
  · exact Nat.le_refl _
  · exact Nat.le_of_lt hlt
  · exact Nat.le_of_eq heq

/-- A spot that was read where the one in front of it in the same line was read
has its answer. -/
theorem answer?_of_same_line {spots : List Spot} {s' s : Spot}
    (h : (spots ++ [s'] ++ [s]).Pairwise Before) (hposition : s'.position = s.position)
    (hline : s'.line = s.line) : answer? (spots ++ [s']) s = answer? spots s' := by
  obtain ⟨hbefore, hlast, _⟩ := before_of_pairwise h
  have hcolumn : s'.column ≤ s.column := by
    rcases hlast with hlt | ⟨_, hlt⟩
    · omega
    · exact Nat.le_of_lt hlt
  rw [answer?_concat_of_eq hposition]
  exact lookup?_of_behind hline hcolumn fun s₁ hs₁ => hbefore s₁ (mem_of_mem_changes hs₁)

/-- A spot that was read where the one in front of it in another line was read
has no answer. -/
theorem answer?_of_other_line {spots : List Spot} {s' s : Spot}
    (h : (spots ++ [s'] ++ [s]).Pairwise Before) (hposition : s'.position = s.position)
    (hline : s'.line ≠ s.line) : answer? (spots ++ [s']) s = none := by
  obtain ⟨_, hlast, hlines⟩ := before_of_pairwise h
  have hlt : s'.line < s.line := by
    rcases hlast with hlt | ⟨heq, _⟩
    · exact hlt
    · exact absurd heq hline
  rw [answer?_concat_of_eq hposition]
  exact lookup?_eq_none fun s₁ hs₁ => Nat.lt_of_le_of_lt (hlines s₁ (mem_of_mem_changes hs₁)) hlt

/-- No answer is wrong. -/
theorem answer?_sound {spots : List Spot} {s : Spot} (h : (spots ++ [s]).Pairwise Before) :
    answer? spots s = some s.position ∨ answer? spots s = none := by
  induction spots using List.reverseRecOn generalizing s with
  | nil => exact .inl (answer?_nil s)
  | append_singleton spots s' ih =>
    by_cases hposition : s'.position = s.position
    · by_cases hline : s'.line = s.line
      · rw [answer?_of_same_line h hposition hline, ← hposition]
        exact ih (List.pairwise_append.mp h).1
      · exact .inr (answer?_of_other_line h hposition hline)
    · exact .inl (answer?_concat_of_ne hposition)

/-- Neighbouring spots that were read at the same place stand in the same line. -/
def Abreast (spots : List Spot) : Prop :=
  spots.IsChain fun s s' => s.position = s'.position → s.line = s'.line

instance (spots : List Spot) : Decidable (Abreast spots) :=
  inferInstanceAs (Decidable (List.IsChain _ spots))

/-- There is an answer where neighbours that were read at the same place stand in
the same line. -/
theorem Abreast.answer? {spots : List Spot} {s : Spot} (habreast : Abreast (spots ++ [s]))
    (h : (spots ++ [s]).Pairwise Before) : answer? spots s = some s.position := by
  induction spots using List.reverseRecOn generalizing s with
  | nil => exact answer?_nil s
  | append_singleton spots s' ih =>
    by_cases hposition : s'.position = s.position
    · have hpair : (spots ++ s' :: s :: []).IsChain fun s s' =>
          s.position = s'.position → s.line = s'.line := by
        simpa [Abreast] using habreast
      have hline : s'.line = s.line := (List.isChain_append_cons_cons.mp hpair).2.1 hposition
      rw [answer?_of_same_line h hposition hline, ← hposition]
      exact ih habreast.left_of_append (List.pairwise_append.mp h).1
    · exact answer?_concat_of_ne hposition

/-- What all changes answer for a spot is what those up to the spot answer. -/
theorem lookup?_changes {spots more : List Spot} {s : Spot}
    (h : (spots ++ s :: more).Pairwise Before) :
    lookup? (changes none (spots ++ s :: more)) s.line s.column = answer? spots s := by
  have hbehind : ∀ s' ∈ more, s.Before s' :=
    (List.pairwise_cons.mp (List.pairwise_append.mp h).2.1).1
  rw [List.append_cons, changes_append]
  exact lookup?_append_of_behind fun s' hs' => hbehind s' (mem_of_mem_changes hs')

/-- No answer of the changes among spots is wrong, and every spot has one exactly
if neighbours that were read at the same place stand in the same line. -/
theorem lookup?_changes_iff {spots : List Spot} (h : spots.Pairwise Before) :
    (∀ s ∈ spots, lookup? (changes none spots) s.line s.column = some s.position ∨
        lookup? (changes none spots) s.line s.column = none) ∧
      ((∀ s ∈ spots, lookup? (changes none spots) s.line s.column = some s.position) ↔
        Abreast spots) := by
  have hinit : ∀ {init : List Spot} {s : Spot} {more : List Spot}, spots = init ++ s :: more →
      (init ++ [s]).Pairwise Before := by
    rintro init s more rfl
    rw [List.append_cons] at h
    exact (List.pairwise_append.mp h).1
  refine ⟨fun s hs => ?_, fun hall => ?_, fun habreast s hs => ?_⟩
  · obtain ⟨init, more, rfl⟩ := List.append_of_mem hs
    rw [lookup?_changes h]
    exact answer?_sound (hinit rfl)
  · refine List.isChain_iff_forall_rel_of_append_cons_cons.mpr ?_
    intro s' s init more heq hposition
    subst heq
    refine Classical.byContradiction fun hline => ?_
    have hshape : init ++ s' :: s :: more = init ++ [s'] ++ s :: more := by simp
    have hanswer := hall s (by simp)
    rw [hshape, lookup?_changes (hshape ▸ h),
      answer?_of_other_line (hinit hshape) hposition hline] at hanswer
    cases hanswer
  · obtain ⟨init, more, rfl⟩ := List.append_of_mem hs
    rw [lookup?_changes h]
    rw [List.append_cons] at habreast
    exact Abreast.answer? habreast.left_of_append (hinit rfl)

end Spot

namespace Line

variable {l : Line} {unit : String} {ast : Ast} {number column : Nat}

/-- Parts begin at the first column or behind it. -/
theorem le_of_mem_columnsFrom {parts : List Part} {c : Nat} {p : Part}
    (h : (c, p) ∈ columnsFrom column parts) : column ≤ c := by
  induction parts generalizing column with
  | nil => cases h
  | cons first parts ih =>
    rcases List.mem_cons.mp h with heq | h
    · cases heq
      exact Nat.le_refl _
    · exact Nat.le_trans (Nat.le_add_right _ _) (ih h)

/-- The spots of parts that are not empty stand in order. -/
theorem pairwise_columnsFrom {parts : List Part} (h : ∀ p ∈ parts, p.text ≠ "") :
    ((columnsFrom column parts).filterMap (Spot.ofPart? ast number)).Pairwise Spot.Before := by
  induction parts generalizing column with
  | nil => exact List.Pairwise.nil
  | cons first parts ih =>
    have hsize : first.text.utf8ByteSize ≠ 0 := fun hzero =>
      h first List.mem_cons_self (String.utf8ByteSize_eq_zero_iff.mp hzero)
    have hrest : ((columnsFrom (column + first.text.utf8ByteSize) parts).filterMap
        (Spot.ofPart? ast number)).Pairwise Spot.Before :=
      ih fun p hp => h p (List.mem_cons_of_mem _ hp)
    rw [columnsFrom, List.filterMap_cons]
    cases hspot : Spot.ofPart? ast number (column, first) with
    | none => exact hrest
    | some s =>
      refine List.pairwise_cons.mpr ⟨fun s' hs' => ?_, hrest⟩
      obtain ⟨position, _, rfl⟩ := Option.map_eq_some_iff.mp hspot
      obtain ⟨hline, p, hp⟩ := spot_of_mem hs'
      have hle := le_of_mem_columnsFrom hp
      exact .inr ⟨hline.symm, Nat.lt_of_lt_of_le (by dsimp only; omega) hle⟩

/-- The spots of tidy lines stand in order. -/
theorem pairwise_lines {lines : List Line} (h : ∀ l ∈ lines, l.Tidy) :
    ((lines.zipIdx number).flatMap fun (l, number) =>
      (l.columns unit).filterMap (Spot.ofPart? ast number)).Pairwise Spot.Before := by
  induction lines generalizing number with
  | nil => exact List.Pairwise.nil
  | cons l lines ih =>
    rw [List.zipIdx_cons, List.flatMap_cons, List.pairwise_append]
    refine ⟨?_, ih fun l hl => h l (List.mem_cons_of_mem _ hl), fun s hs s' hs' => .inl ?_⟩
    · exact pairwise_columnsFrom fun p hp =>
        h l List.mem_cons_self p (Array.mem_toList_iff.mp hp)
    · obtain ⟨⟨l', number'⟩, hl', hs'⟩ := List.mem_flatMap.mp hs'
      have hnumber : number + 1 ≤ number' := List.le_snd_of_mem_zipIdx hl'
      rw [(spot_of_mem hs).1, (spot_of_mem hs').1]
      exact hnumber

end Line

/-- The spots of a tidy buffer stand in order. -/
theorem Buffer.Tidy.pairwise_spots {b : Buffer} (h : b.Tidy) (ast : Ast) :
    (b.spots ast).Pairwise Spot.Before := Line.pairwise_lines h

namespace SourceMap

/-- The segments of lines are those with the numbers of the lines. -/
theorem map_snd_numberedFrom (number : Nat) (lines : List (List Segment)) :
    (numberedFrom number lines).map Prod.snd = lines.flatten := by
  induction lines generalizing number with
  | nil => rfl
  | cons segments lines ih =>
    rw [numberedFrom_cons, List.map_append, ih, List.map_map, List.flatten_cons]
    exact congrArg (· ++ lines.flatten) (List.map_id segments)

/-- Lines in which spots were taken down answer as the spots do. -/
theorem segmentAt?_of_spots {lines : List (List Segment)} {spots : List Spot} {url : String}
    (h : numbered lines = spots.map fun s => (s.line, s.segment url)) (line column : Nat) :
    (segmentAt? lines line column).bind Segment.origin =
      (Spot.lookup? spots line column).map fun p => ⟨url, p.line, p.column⟩ := by
  rw [segmentAt?_eq, h, List.filter_map, List.getLast?_map, Spot.lookup?]
  have hsame : ((fun s : Nat × Segment => decide (s.1 = line ∧ s.2.column ≤ column)) ∘
      fun s : Spot => (s.line, s.segment url)) =
        fun s => decide (s.line = line ∧ s.column ≤ column) := rfl
  rw [hsame]
  cases (spots.filter fun s => s.line = line ∧ s.column ≤ column).getLast? <;> rfl

end SourceMap

/-- Every number of a spot leaves room for the sign of a difference. -/
def Spot.Small (s : Spot) : Prop :=
  s.column < 2 ^ 62 ∧ s.position.line < 2 ^ 62 ∧ s.position.column < 2 ^ 62

instance (s : Spot) : Decidable s.Small := inferInstanceAs (Decidable (_ ∧ _ ∧ _))

namespace Buffer

open SourceMap

/-- The map of a buffer answers for a place as the changes among its spots do. -/
theorem Tidy.resolve?_eq {b : Buffer} (h : b.Tidy) {ast : Ast} {source : SourceFile}
    (hfile : ast.file = some source) (hsmall : ∀ s ∈ b.spots ast, s.Small) {file : String}
    {r : Recorder} (hr : b.track ast file 0 = .ok r) (line column : Nat) :
    (Generated.mk b.source r.finish).resolve? line column =
      (Spot.lookup? (Spot.changes none (b.spots ast)) line column).map
        fun p => ⟨source.url, p.line, p.column⟩ := by
  have hcounted : ∀ s ∈ b.spots ast, s.column < 2 ^ 64 := fun s hs =>
    Nat.lt_trans (hsmall s hs).1 (by decide)
  obtain ⟨r', hr', ⟨l, hkeeps⟩, hnumbered, _, hlength⟩ := h.track hcounted file 0
  obtain rfl : r = r' := Except.ok.inj (hr.symm.trans hr')
  simp only [changesIn, hfile, Nat.zero_add] at hnumbered
  have hsegments : l.segments =
      (Spot.changes none (b.spots ast)).map fun s => s.segment source.url := by
    rw [Log.segments, ← hkeeps.lines, ← map_snd_numberedFrom 0, ← numbered, hnumbered, List.map_map]
    rfl
  rw [← segmentAt?_of_spots hnumbered]
  cases hm : r.finish with
  | none =>
    -- without a map nothing was taken down, so that no line answers either
    have hnone : numbered r.lines = [] := by
      rw [hkeeps.finish_eq_none_iff, hsegments, List.map_eq_nil_iff] at hm
      rw [hnumbered, hm, List.map_nil]
    rw [segmentAt?_eq, hnone]
    rfl
  | some m =>
    have hlog : l.Small := by
      rw [Log.Small, hsegments]
      intro segment hsegment
      obtain ⟨s, hs, rfl⟩ := List.mem_map.mp hsegment
      obtain ⟨hcolumn, hplace⟩ := hsmall s (Spot.mem_of_mem_changes hs)
      refine ⟨hcolumn, ?_⟩
      rintro o ⟨⟩
      exact hplace
    have hread : m.read? = some r.lines :=
      hkeeps.read?_finish hlog (Nat.le_trans hlength (by decide)) hm
    simp only [Generated.resolve?, SourceMap.resolve?, bind, Option.bind_some, hread]

end Buffer

namespace Generator

/-- A generated text and its map come from the buffer of the root. -/
theorem of_generateWithMap {g : Generator} {ast : Ast} {root : NodeId} {file : String}
    {generated : Generated} {b : Buffer} (hroot : ast.root = some root)
    (hb : g.render ast root = .ok b) (hgenerated : g.generateWithMap ast file = .ok generated) :
    b.Built ∧ ∃ r, b.track ast file 0 = .ok r ∧ generated = ⟨b.source, r.finish⟩ := by
  rcases g.generateWithMap_eq hroot file with
    ⟨e, _, hg⟩ | ⟨b', hb', hbuilt, ⟨r, hr, hg⟩ | ⟨refusal, _, hg⟩⟩
  · cases hg.symm.trans hgenerated
  · obtain rfl : b = b' := Except.ok.inj (hb.symm.trans hb')
    exact ⟨hbuilt, r, hr, Except.ok.inj (hgenerated.symm.trans hg)⟩
  · cases hg.symm.trans hgenerated

/-- What a map of a generated text answers where a part begins whose node was read
somewhere: the places are those in the text behind which the text of such a part
follows. Where only lines of the buffer end lines of the text and all numbers
leave room for the sign of a difference, no answer is wrong, and all such parts
have an answer exactly if neighbours among them that were read at the same place
stand in the same line. -/
theorem generateWithMap_resolves {g : Generator} {ast : Ast} {source : SourceFile} {root : NodeId}
    {file : String} {generated : Generated} {b : Buffer} (hfile : ast.file = some source)
    (hroot : ast.root = some root) (hb : g.render ast root = .ok b)
    (hgenerated : g.generateWithMap ast file = .ok generated) (hstraight : b.Straight)
    (hsmall : ∀ s ∈ b.textSpots ast, s.Small) :
    (∀ s ∈ b.textSpots ast, ∃ (before : String) (p : Part) (rest : String),
        generated.source = before ++ p.text ++ rest ∧
          Caret.behind before = ⟨s.line, s.column⟩ ∧ p.position? ast = some s.position) ∧
      (∀ s ∈ b.textSpots ast,
        generated.resolve? s.line s.column = some (s.origin source.url) ∨
          generated.resolve? s.line s.column = none) ∧
      ((∀ s ∈ b.textSpots ast,
          generated.resolve? s.line s.column = some (s.origin source.url)) ↔
        Spot.Abreast (b.textSpots ast)) := by
  obtain ⟨hbuilt, r, hr, rfl⟩ := of_generateWithMap hroot hb hgenerated
  refine ⟨fun s hs => Buffer.source_of_mem_textSpots hs, ?_⟩
  rw [hstraight.textSpots_eq] at hsmall ⊢
  have hanswer := hbuilt.tidy.resolve?_eq hfile hsmall hr
  obtain ⟨hsound, hiff⟩ := Spot.lookup?_changes_iff (hbuilt.tidy.pairwise_spots ast)
  have hright : ∀ s : Spot,
      Generated.resolve? ⟨b.source, r.finish⟩ s.line s.column = some (s.origin source.url) ↔
        Spot.lookup? (Spot.changes none (b.spots ast)) s.line s.column = some s.position := by
    intro s
    rw [hanswer, Option.map_eq_some_iff]
    constructor
    · rintro ⟨⟨line, column⟩, hlookup, horigin⟩
      cases horigin
      exact hlookup
    · exact fun hlookup => ⟨s.position, hlookup, rfl⟩
  refine ⟨fun s hs => (hsound s hs).imp (hright s).mpr fun hnone => ?_, ?_⟩
  · rw [hanswer, hnone]
    rfl
  · rw [← hiff]
    exact forall₂_congr fun s _ => hright s

/-- The buffer and the generated text of a tree. -/
def survey? (g : Generator) (ast : Ast) (root : NodeId) (file : String) :
    Option (Buffer × Generated) := do
  return (← (g.render ast root).toOption, ← (g.generateWithMap ast file).toOption)

/-- What is surveyed is what the generator leaves. -/
theorem of_survey? {g : Generator} {ast : Ast} {root : NodeId} {file : String}
    {holds : Buffer × Generated → Bool} (h : (g.survey? ast root file).any holds = true) :
    ∃ b generated, g.render ast root = .ok b ∧ g.generateWithMap ast file = .ok generated ∧
      holds (b, generated) = true := by
  unfold survey? at h
  cases hb : g.render ast root with
  | error e =>
    rw [hb] at h
    cases h
  | ok b =>
    cases hg : g.generateWithMap ast file with
    | error e =>
      rw [hb, hg] at h
      cases h
    | ok generated =>
      rw [hb, hg] at h
      exact ⟨b, generated, rfl, rfl, h⟩

/-- A function with the given statements. -/
def shortFunction (statements : List NodeId) : Ast where
  nodes := #[
    { construct := .functionDefinition "f" ⟨0⟩, children := statements, position := some ⟨3, 0⟩ },
    { construct := .breakStatement, parent := some ⟨0⟩, position := some ⟨4, 4⟩ }]
  root := some ⟨0⟩
  file := some ⟨"a.bal", none⟩

/-- Where the brace behind a statement begins, the map answers with the place of
the function. -/
theorem generateWithMap_resolves_shortFunction :
    ∃ b generated, Generator.render {} (shortFunction [⟨1⟩]) ⟨0⟩ = .ok b ∧
      Generator.generateWithMap {} (shortFunction [⟨1⟩]) "out.bal" = .ok generated ∧
      ⟨2, 0, ⟨3, 0⟩⟩ ∈ b.textSpots (shortFunction [⟨1⟩]) ∧
      generated.resolve? 2 0 = some ⟨"a.bal", 3, 0⟩ := by
  have hsurvey : (survey? {} (shortFunction [⟨1⟩]) ⟨0⟩ "out.bal").any (fun found =>
      decide (found.1.Straight ∧ (∀ s ∈ found.1.textSpots (shortFunction [⟨1⟩]), s.Small) ∧
        Spot.Abreast (found.1.textSpots (shortFunction [⟨1⟩])) ∧
        ⟨2, 0, ⟨3, 0⟩⟩ ∈ found.1.textSpots (shortFunction [⟨1⟩]))) = true := by decide +kernel
  obtain ⟨b, generated, hb, hgenerated, hholds⟩ := of_survey? hsurvey
  obtain ⟨hstraight, hsmall, habreast, hbrace⟩ := of_decide_eq_true hholds
  have hresolves := generateWithMap_resolves rfl rfl hb hgenerated hstraight hsmall
  exact ⟨b, generated, hb, hgenerated, hbrace, hresolves.2.2.mpr habreast _ hbrace⟩

/-- Where the brace of a function without statements begins, the map has no
answer, although the function was read somewhere. -/
theorem generateWithMap_misses_brace :
    ¬ ∀ (g : Generator) (ast : Ast) (source : SourceFile) (root : NodeId) (file : String)
      (generated : Generated) (b : Buffer), ast.file = some source → ast.root = some root →
      g.render ast root = .ok b → g.generateWithMap ast file = .ok generated →
      ∀ s ∈ b.textSpots ast, generated.resolve? s.line s.column = some (s.origin source.url) := by
  intro hall
  have hsurvey : (survey? {} (shortFunction []) ⟨0⟩ "out.bal").any (fun found =>
      decide (⟨1, 0, ⟨3, 0⟩⟩ ∈ found.1.textSpots (shortFunction []) ∧
        found.2.resolve? 1 0 = none)) = true := by decide +kernel
  obtain ⟨b, generated, hb, hgenerated, hholds⟩ := of_survey? hsurvey
  obtain ⟨hbrace, hnone⟩ := of_decide_eq_true hholds
  have hanswer :=
    hall {} (shortFunction []) _ _ "out.bal" generated b rfl rfl hb hgenerated _ hbrace
  rw [hnone] at hanswer
  cases hanswer

end Generator

end SourceScribe
