import Mathlib.Data.List.Basic
import SourceScribe.Grammar.Sections

/-!
# Splitting into sections

A definition is split exactly when the ranks of its children never fall. Each
section then holds the children of its rank, and the four sections one after
the other are the list of children again. A definition that is not split is
rejected for the first child whose rank is smaller than that of the one in front
of it.
-/

namespace SourceScribe.Sections

variable {tag? : NodeId → Option Tag} {current : Nat} {children : List NodeId} {parts : Sections}
  {fault : Fault}

/-- The children of a rank, in order. -/
def ofRank (tag? : NodeId → Option Tag) (r : Nat) (children : List NodeId) : List NodeId :=
  children.filter fun child => rank (tag? child) == r

/-- The children by rank. -/
def gather (tag? : NodeId → Option Tag) (children : List NodeId) : Sections where
  annotations := ofRank tag? 0 children
  parameters := ofRank tag? 1 children
  returns := ofRank tag? 2 children
  body := ofRank tag? 3 children

/-- No rank is smaller than the one in front of it, nor than the given one. -/
def Ordered (tag? : NodeId → Option Tag) : Nat → List NodeId → Prop
  | _, [] => True
  | current, child :: rest =>
    current ≤ rank (tag? child) ∧ Ordered tag? (rank (tag? child)) rest

/-- The ranks of children, in order. -/
def ranks (tag? : NodeId → Option Tag) (children : List NodeId) : List Nat :=
  children.map fun child => rank (tag? child)

/-- The child stands right behind one of a larger rank, and in front of it no rank is
smaller than the one in front of it. -/
def Displaced (tag? : NodeId → Option Tag) (children : List NodeId) (child : NodeId) : Prop :=
  ∃ front previous behind, children = front ++ previous :: child :: behind ∧
    (ranks tag? (front ++ [previous])).Pairwise (· ≤ ·) ∧
      rank (tag? child) < rank (tag? previous)

/-- Children are in order when no rank is smaller than any in front of it. -/
theorem ordered_iff_pairwise :
    Ordered tag? current children ↔ (current :: ranks tag? children).Pairwise (· ≤ ·) := by
  rw [← List.isChain_iff_pairwise]
  induction children generalizing current with
  | nil => simp [Ordered, ranks]
  | cons child rest ih =>
    rw [ranks, List.map_cons, List.isChain_cons_cons]
    exact and_congr_right fun _ => ih

/-- Every rank may come first. -/
theorem ordered_zero :
    Ordered tag? 0 children ↔ (ranks tag? children).Pairwise (· ≤ ·) := by
  simp [ordered_iff_pairwise]

/-- There are four ranks. -/
theorem rank_le (tag : Option Tag) : rank tag ≤ 3 := by
  unfold rank
  split
  · omega
  · split
    · omega
    · split <;> omega

/-- A child in front of the others is put in front of its section. -/
theorem gather_cons (child : NodeId) (rest : List NodeId) :
    gather tag? (child :: rest) = (gather tag? rest).put child (rank (tag? child)) := by
  have hr := rank_le (tag? child)
  simp only [gather, ofRank, List.filter_cons]
  generalize rank (tag? child) = r at hr ⊢
  match r, hr with
  | 0, _ => rfl
  | 1, _ => rfl
  | 2, _ => rfl
  | 3, _ => rfl

/-- A child that belongs in front of the given section is out of order. -/
theorem splitFrom_cons_of_lt {child : NodeId} (rest : List NodeId)
    (hlt : rank (tag? child) < current) :
    splitFrom tag? current (child :: rest) = .error (.outOfOrder (tag? child) child) :=
  if_pos hlt

/-- Behind a child in its place the others are split from its section on. -/
theorem splitFrom_cons_of_le {child : NodeId} (rest : List NodeId)
    (hle : current ≤ rank (tag? child)) :
    splitFrom tag? current (child :: rest) =
      (splitFrom tag? (rank (tag? child)) rest).map (·.put child (rank (tag? child))) := by
  simp only [splitFrom, if_neg (Nat.not_lt.mpr hle)]
  rfl

/-- Children are split exactly when they are in order, each into the section
of its rank. -/
theorem splitFrom_eq_ok :
    splitFrom tag? current children = .ok parts ↔
      Ordered tag? current children ∧ parts = gather tag? children := by
  induction children generalizing current parts with
  | nil =>
    simp only [splitFrom, Except.ok.injEq, Ordered, true_and]
    exact eq_comm
  | cons child rest ih =>
    by_cases h : rank (tag? child) < current
    · rw [splitFrom_cons_of_lt rest h]
      simp only [Ordered, reduceCtorEq, Nat.not_le.mpr h, false_and]
    · have hle : current ≤ rank (tag? child) := Nat.not_lt.mp h
      rw [splitFrom_cons_of_le rest hle, Ordered, gather_cons]
      cases hs : splitFrom tag? (rank (tag? child)) rest with
      | error fault =>
        have hn : ¬Ordered tag? (rank (tag? child)) rest := by
          intro ho
          have hok := ih.mpr ⟨ho, rfl⟩
          rw [hs] at hok
          cases hok
        simp only [Except.map, reduceCtorEq, hn, and_false, false_and]
      | ok found =>
        obtain ⟨ho, rfl⟩ := ih.mp hs
        simp only [Except.map, Except.ok.injEq, hle, ho, true_and]
        exact eq_comm

/-- There is a child with a property exactly if the first one has it or one of the others
has; the property may be about what stands in front of the child. -/
theorem exists_cons_eq {child : NodeId} {rest : List NodeId} {P : List NodeId → NodeId → Prop} :
    (∃ front found behind, child :: rest = front ++ found :: behind ∧ P front found) ↔
      P [] child ∨ ∃ front found behind, rest = front ++ found :: behind ∧
        P (child :: front) found := by
  constructor
  · rintro ⟨front, found, behind, heq, hp⟩
    rcases List.cons_eq_append_iff.mp heq with ⟨rfl, hfound⟩ | ⟨front, rfl, rfl⟩
    · obtain ⟨rfl, rfl⟩ := List.cons.inj hfound
      exact .inl hp
    · exact .inr ⟨front, found, behind, rfl, hp⟩
  · rintro (hp | ⟨front, found, behind, rfl, hp⟩)
    · exact ⟨[], child, rest, rfl, hp⟩
    · exact ⟨child :: front, found, behind, rfl, hp⟩

/-- The split fails with the first child whose rank is smaller than that of the one in
front of it, or than the given one. -/
theorem splitFrom_eq_error :
    splitFrom tag? current children = .error fault ↔
      ∃ front child behind, children = front ++ child :: behind ∧ Ordered tag? current front ∧
        rank (tag? child) < (ranks tag? front).getLastD current ∧
        fault = .outOfOrder (tag? child) child := by
  induction children generalizing current with
  | nil => simp [splitFrom]
  | cons child rest ih =>
    rw [exists_cons_eq]
    by_cases h : rank (tag? child) < current
    · -- nothing that starts with this child is in order
      simp only [splitFrom_cons_of_lt rest h, Except.error.injEq, Ordered, Nat.not_le.mpr h,
        false_and, and_false, exists_false, or_false, true_and, ranks, List.map_nil,
        List.getLastD_nil, h]
      exact eq_comm
    · have hle : current ≤ rank (tag? child) := Nat.not_lt.mp h
      have hmap : splitFrom tag? current (child :: rest) = .error fault ↔
          splitFrom tag? (rank (tag? child)) rest = .error fault := by
        rw [splitFrom_cons_of_le rest hle]
        cases splitFrom tag? (rank (tag? child)) rest <;> simp [Except.map]
      simp only [hmap, ih, Ordered, true_and, ranks, List.map_nil, List.getLastD_nil, h, false_and,
        false_or, hle, List.map_cons, List.getLastD_cons]

/-- A definition is not split exactly when a child is displaced. -/
theorem split_eq_error :
    split tag? children = .error fault ↔
      ∃ child, Displaced tag? children child ∧ fault = .outOfOrder (tag? child) child := by
  rw [split, splitFrom_eq_error]
  constructor
  · rintro ⟨front, child, behind, rfl, ho, hlt, hfault⟩
    rcases front.eq_nil_or_concat with rfl | ⟨front, previous, rfl⟩
    · exact absurd hlt (Nat.not_lt_zero _)
    · rw [List.concat_eq_append] at ho hlt ⊢
      refine ⟨child, ⟨front, previous, behind, by simp, ordered_zero.mp ho, ?_⟩, hfault⟩
      simpa [ranks] using hlt
  · rintro ⟨child, ⟨front, previous, behind, rfl, ho, hlt⟩, hfault⟩
    refine ⟨front ++ [previous], child, behind, by simp, ordered_zero.mpr ho, ?_, hfault⟩
    simpa [ranks] using hlt

/-- No child of a smaller rank stands among children in order. -/
theorem ofRank_eq_nil (ho : Ordered tag? current children) {r : Nat} (hr : r < current) :
    ofRank tag? r children = [] := by
  induction children generalizing current with
  | nil => rfl
  | cons child rest ih =>
    obtain ⟨hle, hrest⟩ := ho
    have hne : ¬rank (tag? child) = r := by omega
    have hnil := ih hrest (by omega)
    simp only [ofRank] at hnil
    simp only [ofRank, List.filter_cons, beq_iff_eq, hne, if_false, hnil]

/-- The sections of children in order are the children again. -/
theorem gather_flatten (ho : Ordered tag? current children) :
    (gather tag? children).annotations ++ (gather tag? children).parameters ++
      (gather tag? children).returns ++ (gather tag? children).body = children := by
  induction children generalizing current with
  | nil => rfl
  | cons child rest ih =>
    obtain ⟨_, hrest⟩ := ho
    have hflat := ih hrest
    have hsmall : ∀ r < rank (tag? child), ofRank tag? r rest = [] :=
      fun r hr => ofRank_eq_nil hrest hr
    rw [gather_cons]
    have hle := rank_le (tag? child)
    generalize rank (tag? child) = k at hle hsmall
    match k, hle with
    | 0, _ => simpa [put] using hflat
    | 1, _ =>
      have h0 := hsmall 0 (by omega)
      simpa [put, gather, h0] using hflat
    | 2, _ =>
      have h0 := hsmall 0 (by omega)
      have h1 := hsmall 1 (by omega)
      simpa [put, gather, h0, h1] using hflat
    | 3, _ =>
      have h0 := hsmall 0 (by omega)
      have h1 := hsmall 1 (by omega)
      have h2 := hsmall 2 (by omega)
      simpa [put, gather, h0, h1, h2] using hflat

/-- The sections of a definition that is split are its children again. -/
theorem split_flatten (h : split tag? children = .ok parts) :
    parts.annotations ++ parts.parameters ++ parts.returns ++ parts.body = children := by
  obtain ⟨ho, rfl⟩ := splitFrom_eq_ok.mp h
  exact gather_flatten ho

/-- A definition is split exactly when the ranks of its children never fall. -/
theorem exists_split_iff :
    (∃ parts, split tag? children = .ok parts) ↔ (ranks tag? children).Pairwise (· ≤ ·) := by
  rw [← ordered_zero]
  constructor
  · rintro ⟨parts, h⟩
    exact (splitFrom_eq_ok.mp h).1
  · exact fun ho => ⟨_, splitFrom_eq_ok.mpr ⟨ho, rfl⟩⟩

end SourceScribe.Sections
