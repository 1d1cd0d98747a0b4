import SourceScribe.Proofs.Meanings

/-!
# What definitions mean

The children of a definition that is in order fall into sections by their kinds.
What the parts of a definition ask of a section can therefore be said of the
kinds of the children, and what they mean can be put together from the children
of a kind.
-/

namespace SourceScribe

namespace Sections

variable {tag? : NodeId → Option Tag} {kid : NodeId → Kid} {ids : List NodeId}

/-- The sections hold the children of their kinds. -/
structure Holds (parts : Sections) (kid : NodeId → Kid) (ids : List NodeId) : Prop where
  /-- The annotations. -/
  annotations : parts.annotations.map kid = Kid.ofKind .annotationUse (ids.map kid)
  /-- The parameters. -/
  parameters : parts.parameters.map kid = Kid.ofKind .parameterDefinition (ids.map kid)
  /-- The return parameters. -/
  returns : parts.returns.map kid = Kid.ofKind .returnParameter (ids.map kid)
  /-- The body. -/
  body : parts.body.map kid = Kid.bodyOf (ids.map kid)
  /-- The body is among the children. -/
  listed : ∀ id ∈ parts.body, id ∈ ids

/-- The ranks in order, from the given one on, are the kinds in order. -/
theorem ordered_iff (hk : ∀ id ∈ ids, tag? id = some (kid id).tag) (current : Nat) :
    Ordered tag? current ids ↔
      (∀ tag ∈ ids.map (Kid.tag ∘ kid), current ≤ rank (some tag)) ∧
        Tag.InOrder (ids.map (Kid.tag ∘ kid)) := by
  have hranks : ranks tag? ids = (ids.map (Kid.tag ∘ kid)).map fun tag => rank (some tag) := by
    rw [ranks, List.map_map]
    exact List.map_congr_left fun id hid => congrArg rank (hk id hid)
  rw [ordered_iff_pairwise, hranks, List.pairwise_cons, List.forall_mem_map, List.pairwise_map,
    Tag.InOrder]

/-- The children of a rank are those whose kinds have it. -/
theorem map_ofRank (hk : ∀ id ∈ ids, tag? id = some (kid id).tag) (r : Nat) :
    (ofRank tag? r ids).map kid = (ids.map kid).filter fun k => rank (some k.tag) == r := by
  rw [ofRank, List.filter_map]
  congr 1
  refine List.filter_congr fun id hid => ?_
  rw [hk id hid]
  rfl

/-- The children of a definition by their kinds. -/
theorem holds_gather (hk : ∀ id ∈ ids, tag? id = some (kid id).tag) :
    (gather tag? ids).Holds kid ids := by
  have hrank : ∀ (r : Nat) (p : Kid → Bool), (∀ k : Kid, (rank (some k.tag) == r) = p k) →
      (ofRank tag? r ids).map kid = (ids.map kid).filter p := by
    intro r p hp
    rw [map_ofRank hk]
    exact List.filter_congr fun k _ => hp k
  constructor
  · refine hrank 0 _ fun k => ?_
    cases k with | mk tag layout => cases tag <;> rfl
  · refine hrank 1 _ fun k => ?_
    cases k with | mk tag layout => cases tag <;> rfl
  · refine hrank 2 _ fun k => ?_
    cases k with | mk tag layout => cases tag <;> rfl
  · refine hrank 3 _ fun k => ?_
    cases k with | mk tag layout => cases tag <;> rfl
  · exact fun id hid => (List.mem_filter.mp hid).1

namespace Holds

variable {parts : Sections}

/-- A section is empty when no child is of its kind. -/
theorem eq_nil_iff {found : List NodeId} {tag : Tag}
    (h : found.map kid = Kid.ofKind tag (ids.map kid)) :
    found = [] ↔ tag ∉ ids.map (Kid.tag ∘ kid) := by
  rw [← List.map_eq_nil_iff (f := kid), h, Kid.ofKind, List.filter_eq_nil_iff, List.forall_mem_map]
  simp only [decide_eq_true_eq, List.mem_map, Function.comp_apply, not_exists, not_and]

/-- A section has as many children as there are of its kind. -/
theorem length_eq {found : List NodeId} {tag : Tag}
    (h : found.map kid = Kid.ofKind tag (ids.map kid)) :
    found.length = (ids.map (Kid.tag ∘ kid)).count tag := by
  have hlength := congrArg List.length h
  rw [List.length_map] at hlength
  rw [hlength, ← List.map_map, Kid.ofKind, List.count, List.countP_map,
    List.countP_eq_length_filter]
  rfl

/-- The body is empty when there are no other children. -/
theorem body_eq_nil (h : parts.Holds kid ids) :
    parts.body = [] ↔ Tag.NoBody (ids.map (Kid.tag ∘ kid)) := by
  rw [← List.map_eq_nil_iff (f := kid), h.body, Kid.bodyOf, List.filter_eq_nil_iff]
  simp only [List.forall_mem_map, decide_eq_true_eq, not_not, Tag.NoBody, Function.comp_apply]

end Holds

end Sections

namespace Script

open Sections (Holds)

variable {s : Setting} {kid : NodeId → Kid} {blankLines : Bool} {kids : List Kid}

/-- The sections of a definition are clean when its children are in order and
what is made of the sections is clean. -/
theorem clean_sections (hk : s.Knows kid) {next : Sections → Script} {P : Prop}
    (h : ∀ parts : Sections, parts.Holds kid s.children → (Clean (next parts) ↔ P)) :
    Clean (sections s next) ↔ Tag.InOrder (s.children.map (Kid.tag ∘ kid)) ∧ P := by
  have hordered := Sections.ordered_iff hk 0
  simp only [Nat.zero_le, implies_true, true_and] at hordered
  have hholds := Sections.holds_gather hk
  unfold sections checked
  cases hs : Sections.split s.tag? s.children with
  | ok parts =>
    obtain ⟨ho, rfl⟩ := Sections.splitFrom_eq_ok.mp hs
    simp only [h _ hholds, hordered.mp ho, true_and]
  | error fault =>
    have hno : ¬Tag.InOrder (s.children.map (Kid.tag ∘ kid)) := by
      intro ho
      have hok := Sections.splitFrom_eq_ok.mpr ⟨hordered.mpr ho, rfl⟩
      rw [Sections.split, hok] at hs
      cases hs
    simp only [not_clean_fail, hno, false_and]

/-- The sections of a definition in order mean what is made of them. -/
theorem layout?_sections (hk : s.Knows kid) {next : Sections → Script} {l : Layout}
    (ho : Tag.InOrder (s.children.map (Kid.tag ∘ kid)))
    (h : ∀ parts : Sections, parts.Holds kid s.children →
      layout? blankLines kid (next parts) = some l) :
    layout? blankLines kid (sections s next) = some l := by
  have hordered := Sections.ordered_iff hk 0
  simp only [Nat.zero_le, implies_true, true_and] at hordered
  have hsplit := Sections.splitFrom_eq_ok.mpr ⟨hordered.mpr ho, rfl⟩
  rw [sections, Sections.split, hsplit]
  exact h _ (Sections.holds_gather hk)

@[simp]
theorem layout?_annotationLines (ids : List NodeId) :
    layout? blankLines kid (annotationLines ids) = some (.rows (Kid.layouts (ids.map kid))) := by
  simp [annotationLines]

@[simp]
theorem layout?_parameterList (ids : List NodeId) :
    layout? blankLines kid (parameterList ids) = some (.parenthesized (ids.map kid)) := by
  simp [parameterList, Layout.parenthesized]

/-- The return parameters of a definition. -/
theorem layout?_returnList {ids : List NodeId} (h : ids.map kid = Kid.ofKind .returnParameter kids) :
    layout? blankLines kid (returnList ids) = some (.returns kids) := by
  unfold Layout.returns
  rw [← h]
  cases ids with
  | nil => rfl
  | cons id ids => simp [returnList]

@[simp]
theorem layout?_modifiers {given allowed : Modifiers} (h : allowed.contains given = true) :
    layout? blankLines kid (modifiers given allowed) = some (.modifiers given) := by
  unfold modifiers Layout.modifiers
  split <;> split <;> simp [h]

@[simp]
theorem layout?_header {word what name : String} (h : Text.Name.isIdentifier name = true) :
    layout? blankLines kid (header word what name) = some (.heading word name) := by
  simp [header, h, Layout.heading]

/-- The body of a definition. -/
theorem layout?_body {ids : List NodeId} (h : ids.map kid = Kid.bodyOf kids) :
    layout? blankLines kid (body ids) = some (.body kids) := by
  simp [body, Layout.body, Layout.block, h]

/-- The body of a definition that may be defined outside. -/
theorem layout?_bodyUnlessNative {given : Modifiers} {ids : List NodeId}
    (h : ids.map kid = Kid.bodyOf kids) (hn : given.contains .isNative = true → ids = []) :
    layout? blankLines kid (bodyUnlessNative given ids) = some (.bodyUnlessNative given kids) := by
  unfold bodyUnlessNative Layout.bodyUnlessNative
  by_cases hg : given.contains .isNative = true
  · simp [hg, hn hg]
  · rw [if_neg hg, if_neg hg]
    exact layout?_body h

end Script

end SourceScribe
