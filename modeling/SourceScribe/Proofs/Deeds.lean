import SourceScribe.Traversal.Basic

/-!
# What a node does

What a node has written is a list of deeds: it writes parts of its own, places
what a child has written in a buffer of its own, and passes over children that
were written before. The parts of its buffer, in the order of the text, are
those of its deeds one after the other. Printing, breaking a line and indenting
are deeds of the node itself, and to put a child in its place is to place it
among such deeds.
-/

namespace SourceScribe

/-- A step of writing a node. -/
inductive Deed where
  /-- A part of the node itself. -/
  | wrote (part : Part)
  /-- A child, with what it has written. -/
  | placed (child : NodeId) (written : Buffer)
  /-- A child that was written before. -/
  | passed (child : NodeId)

namespace Buffer

/-- The parts of a buffer, in the order of its text. -/
def parts (b : Buffer) : List Part := b.lines.flatMap fun l => l.parts.toList

variable {b child : Buffer}

/-- A new buffer has no parts. -/
@[simp]
theorem parts_ofNode (id : NodeId) (indent : Nat) (unit : String) :
    (ofNode id indent unit).parts = [] := rfl

/-- A new line has no parts. -/
@[simp]
theorem parts_newline (b : Buffer) : b.newline.parts = b.parts := by
  simp [parts, lines, newline]

/-- Another indentation of the last line leaves the parts. -/
theorem parts_reindent (b : Buffer) (indent level : Nat) :
    parts { b with indent := indent, current := b.current.reindent level } = b.parts := by
  have hparts : (b.current.reindent level).parts = b.current.parts := by
    unfold Line.reindent
    split <;> rfl
  simp only [parts, lines, List.flatMap_append, List.flatMap_cons, List.flatMap_nil, hparts]

/-- To go further in leaves the parts. -/
@[simp]
theorem parts_deeper (b : Buffer) : b.deeper.parts = b.parts := parts_reindent b _ _

/-- To go further out leaves the parts. -/
@[simp]
theorem parts_shallower (b : Buffer) : b.shallower.parts = b.parts := parts_reindent b _ _

/-- Text that is not empty is a part of the node that writes. -/
theorem parts_print (b : Buffer) (text : String) :
    (b.print text).parts = b.parts ++ if text.isEmpty then [] else [⟨text, b.origin⟩] := by
  unfold print
  split
  · rw [List.append_nil]
  · simp [parts, lines, Line.push]

/-- The parts of an appended buffer come behind those of the other. -/
@[simp]
theorem parts_append (b child : Buffer) : (b.append child).parts = b.parts ++ child.parts := by
  unfold append
  split
  next hf => simp [parts, lines, Line.join, hf]
  next first rest hf => simp [parts, lines, Line.join, hf]

end Buffer

namespace Deed

/-- The parts that a deed brings. -/
def parts : Deed → List Part
  | .wrote part => [part]
  | .placed _ written => written.parts
  | .passed _ => []

/-- The child that a deed is about. -/
def child? : Deed → Option NodeId
  | .wrote _ => none
  | .placed child _ => some child
  | .passed child => some child

/-- The child that a deed places. -/
def placed? : Deed → Option NodeId
  | .placed child _ => some child
  | _ => none

/-- The children that deeds are about, in order. -/
def children (deeds : List Deed) : List NodeId := deeds.filterMap child?

/-- The children that deeds place, in order. -/
def placedChildren (deeds : List Deed) : List NodeId := deeds.filterMap placed?

variable {deeds more : List Deed}

@[simp]
theorem children_append : children (deeds ++ more) = children deeds ++ children more :=
  List.filterMap_append

@[simp]
theorem placedChildren_append :
    placedChildren (deeds ++ more) = placedChildren deeds ++ placedChildren more :=
  List.filterMap_append

@[simp]
theorem children_wrote (own : List Part) : children (own.map .wrote) = [] := by
  simp [children, child?, List.filterMap_map, Function.comp_def]

@[simp]
theorem placedChildren_wrote (own : List Part) : placedChildren (own.map .wrote) = [] := by
  simp [placedChildren, placed?, List.filterMap_map, Function.comp_def]

/-- A child that is placed among parts of the node itself is the only one. -/
theorem children_around (front back : List Part) (child : NodeId) (written : Buffer) :
    children (front.map .wrote ++ .placed child written :: back.map .wrote) = [child] := by
  rw [children_append, children_wrote, List.nil_append]
  change child :: children (back.map .wrote) = [child]
  rw [children_wrote]

/-- A child that is placed among parts of the node itself is the only one
placed. -/
theorem placedChildren_around (front back : List Part) (child : NodeId) (written : Buffer) :
    placedChildren (front.map .wrote ++ .placed child written :: back.map .wrote) = [child] := by
  rw [placedChildren_append, placedChildren_wrote, List.nil_append]
  change child :: placedChildren (back.map .wrote) = [child]
  rw [placedChildren_wrote]

/-- A child that is placed among parts of the node itself is the one that is
found there. -/
theorem eq_of_placed_around {front back : List Part} {child found : NodeId}
    {written given : Buffer}
    (h : Deed.placed found given ∈
      front.map Deed.wrote ++ .placed child written :: back.map Deed.wrote) :
    found = child ∧ given = written := by
  simpa using h

@[simp]
theorem flatMap_wrote (own : List Part) : (own.map .wrote).flatMap parts = own := by
  simp [parts, List.flatMap_map]

/-- A child is placed exactly when there is a deed that places it. -/
theorem mem_placedChildren {child : NodeId} :
    child ∈ placedChildren deeds ↔ ∃ written, .placed child written ∈ deeds := by
  simp only [placedChildren, List.mem_filterMap]
  constructor
  · rintro ⟨deed, hm, hplaced⟩
    cases deed with
    | placed c written =>
      cases hplaced
      exact ⟨written, hm⟩
    | wrote part => cases hplaced
    | passed c => cases hplaced
  · rintro ⟨written, hm⟩
    exact ⟨_, hm, rfl⟩

end Deed

namespace Buffer

/-- Deeds have turned a buffer into another one. -/
structure Does (b : Buffer) (deeds : List Deed) (b' : Buffer) : Prop where
  /-- The parts of the deeds come behind those that there were. -/
  parts : b'.parts = b.parts ++ deeds.flatMap Deed.parts
  /-- The node writes in its own name. -/
  own : ∀ part, .wrote part ∈ deeds → part.origin = b.origin
  /-- The buffer is still that of the same node. -/
  origin : b'.origin = b.origin

/-- A node has only written parts of its own. -/
def Writes (b b' : Buffer) : Prop := ∃ own : List Part, b.Does (own.map .wrote) b'

variable {b b₁ b₂ child : Buffer}

/-- Deeds are done one after the other. -/
theorem Does.trans {deeds more : List Deed} (h : b.Does deeds b₁) (h' : b₁.Does more b₂) :
    b.Does (deeds ++ more) b₂ where
  parts := by rw [h'.parts, h.parts, List.flatMap_append, List.append_assoc]
  own part hm := by
    rcases List.mem_append.mp hm with hm | hm
    · exact h.own part hm
    · rw [h'.own part hm, h.origin]
  origin := h'.origin.trans h.origin

/-- What is written after something else has been written as well. -/
theorem Writes.trans (h : b.Writes b₁) (h' : b₁.Writes b₂) : b.Writes b₂ := by
  obtain ⟨own, hown⟩ := h
  obtain ⟨more, hmore⟩ := h'
  refine ⟨own ++ more, ?_⟩
  rw [List.map_append]
  exact hown.trans hmore

/-- A buffer with the same parts and origin. -/
theorem writes_of_parts_eq (hp : b₁.parts = b.parts) (ho : b₁.origin = b.origin) :
    b.Writes b₁ := by
  refine ⟨[], ?_, ?_, ho⟩
  · rw [hp, List.map_nil, List.flatMap_nil, List.append_nil]
  · simp

/-- A node that does nothing. -/
theorem Writes.refl (b : Buffer) : b.Writes b := writes_of_parts_eq rfl rfl

/-- Text is written in the name of the node. -/
theorem writes_print (b : Buffer) (text : String) : b.Writes (b.print text) := by
  refine ⟨if text.isEmpty then [] else [⟨text, b.origin⟩], ?_, ?_, ?_⟩
  · rw [parts_print, Deed.flatMap_wrote]
  · intro part hm
    split at hm
    · simp at hm
    · simp at hm
      rw [hm]
  · unfold print
    split <;> rfl

/-- A line end brings no part. -/
theorem writes_newline (b : Buffer) : b.Writes b.newline :=
  writes_of_parts_eq (parts_newline b) rfl

/-- Marks are written in the name of the node. -/
theorem writes_writeAll (ms : List Mark) (b : Buffer) : b.Writes (Mark.writeAll ms b) := by
  induction ms generalizing b with
  | nil => exact .refl b
  | cons m ms ih =>
    cases m with
    | text value => exact (writes_print b value).trans (ih (b.print value))
    | newline => exact (writes_newline b).trans (ih b.newline)

/-- An opening brace is written in the name of the node. -/
theorem writes_open (b : Buffer) : b.Writes (b.println "\x7b").deeper :=
  (writes_print b "\x7b").trans
    (writes_of_parts_eq ((parts_deeper _).trans (parts_newline _)) rfl)

/-- A closing brace is written in the name of the node. -/
theorem writes_close (b : Buffer) : b.Writes (b.shallower.print "\x7d") := by
  have hout : b.Writes b.shallower := writes_of_parts_eq (parts_shallower b) rfl
  exact hout.trans (writes_print b.shallower "\x7d")

/-- To append the buffer of a child is to place the child. -/
theorem does_append (b : Buffer) (id : NodeId) (child : Buffer) :
    b.Does [.placed id child] (b.append child) where
  parts := by simp [Deed.parts]
  own part hm := by simp at hm
  origin := by
    unfold append
    split <;> rfl

/-- A child of a group is placed among parts of the node itself. -/
theorem does_place (arrangement : Arrangement) (blankLines : Bool) (written : Nat)
    (previous current : Option Tag) (id : NodeId) (child b : Buffer) :
    ∃ front back : List Part,
      b.Does (front.map .wrote ++ .placed id child :: back.map .wrote)
        (arrangement.place blankLines written previous current child b) := by
  obtain ⟨front, hfront⟩ :=
    writes_writeAll (arrangement.before blankLines written previous current) b
  obtain ⟨back, hback⟩ := writes_writeAll arrangement.after
    ((Mark.writeAll (arrangement.before blankLines written previous current) b).append child)
  exact ⟨front, back, hfront.trans ((does_append _ id child).trans hback)⟩

end Buffer

end SourceScribe
