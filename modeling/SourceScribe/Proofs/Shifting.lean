import SourceScribe.Proofs.Buffers
import SourceScribe.Proofs.Steps

/-!
# Levels of indentation

A node does not know how far in it is written. From the same point of a traversal a
call at a greater level of indentation does what the call at a smaller level does,
and every line of what it writes is indented so much more. Each script leaves its
buffer at the level at which it found it, so no script ever goes further out than
where it began, and the level that is cut off at zero is never cut.
-/

namespace SourceScribe

variable {k : Nat}

/-- The same line some levels further in. -/
def Line.shift (k : Nat) (l : Line) : Line := { l with indent := l.indent + k }

namespace Line

@[simp]
theorem isEmpty_shift (l : Line) : (l.shift k).isEmpty = l.isEmpty := rfl

@[simp]
theorem shift_push (l : Line) (part : Part) : (l.push part).shift k = (l.shift k).push part := rfl

@[simp]
theorem shift_join (l other : Line) : (l.join other).shift k = (l.shift k).join (other.shift k) :=
  rfl

@[simp]
theorem shift_reindent (l : Line) (indent : Nat) :
    (l.reindent indent).shift k = (l.shift k).reindent (indent + k) := by
  unfold reindent
  rw [isEmpty_shift]
  split <;> rfl

end Line

/-- The same buffer some levels further in. -/
def Buffer.shift (k : Nat) (b : Buffer) : Buffer :=
  { b with
    finished := b.finished.map (Line.shift k)
    current := b.current.shift k
    indent := b.indent + k }

namespace Buffer

@[simp]
theorem indent_shift (b : Buffer) : (b.shift k).indent = b.indent + k := rfl

/-- All lines go further in. -/
theorem lines_shift (b : Buffer) : (b.shift k).lines = b.lines.map (Line.shift k) := by
  simp [lines, shift]

@[simp]
theorem shift_ofNode (id : NodeId) (indent : Nat) (unit : String) :
    (ofNode id indent unit).shift k = ofNode id (indent + k) unit := by
  simp [ofNode, ofIndent, shift, Line.shift]

@[simp]
theorem shift_print (b : Buffer) (text : String) :
    (b.print text).shift k = (b.shift k).print text := by
  unfold print
  split <;> rfl

@[simp]
theorem shift_newline (b : Buffer) : b.newline.shift k = (b.shift k).newline := by
  simp [newline, shift, Line.shift]

@[simp]
theorem shift_println (b : Buffer) (text : String) :
    (b.println text).shift k = (b.shift k).println text := by
  simp [println]

@[simp]
theorem shift_deeper (b : Buffer) : b.deeper.shift k = (b.shift k).deeper := by
  simp [deeper, shift, Nat.add_right_comm]

/-- A buffer that is further in than nothing goes out as it would further in. -/
theorem shift_shallower {b : Buffer} (h : 0 < b.indent) :
    b.shallower.shift k = (b.shift k).shallower := by
  have hindent : b.indent - 1 + k = b.indent + k - 1 := by omega
  simp [shallower, shift, hindent]

@[simp]
theorem shift_append (b child : Buffer) :
    (b.append child).shift k = (b.shift k).append (child.shift k) := by
  obtain ⟨⟨finished⟩, current, indent, unit, origin⟩ := child
  cases finished with
  | nil => simp [append, shift]
  | cons first rest =>
    have hlines : (b.finished.push (b.current.join first) ++ rest).map (Line.shift k) =
        (b.finished.map (Line.shift k)).push ((b.current.shift k).join (first.shift k)) ++
          rest.map (Line.shift k) := by
      rw [← Array.toList_inj]
      simp
    simp [append, shift, hlines]

@[simp]
theorem shift_writeAll (ms : List Mark) (b : Buffer) :
    (Mark.writeAll ms b).shift k = Mark.writeAll ms (b.shift k) := by
  unfold Mark.writeAll
  induction ms generalizing b with
  | nil => rfl
  | cons m ms ih =>
    rw [List.foldl_cons, List.foldl_cons, ih]
    cases m <;> simp [Mark.write]

@[simp]
theorem shift_place (arrangement : Arrangement) (blankLines : Bool) (written : Nat)
    (previous current : Option Tag) (child b : Buffer) :
    (arrangement.place blankLines written previous current child b).shift k =
      arrangement.place blankLines written previous current (child.shift k) (b.shift k) := by
  simp [Arrangement.place]

@[simp]
theorem indent_print (b : Buffer) (text : String) : (b.print text).indent = b.indent := by
  unfold print
  split <;> rfl

@[simp]
theorem indent_append (b child : Buffer) : (b.append child).indent = b.indent := by
  unfold append
  split <;> rfl

@[simp]
theorem unit_print (b : Buffer) (text : String) : (b.print text).unit = b.unit := by
  unfold print
  split <;> rfl

@[simp]
theorem unit_append (b child : Buffer) : (b.append child).unit = b.unit := by
  unfold append
  split <;> rfl

@[simp]
theorem origin_print (b : Buffer) (text : String) : (b.print text).origin = b.origin := by
  unfold print
  split <;> rfl

@[simp]
theorem origin_append (b child : Buffer) : (b.append child).origin = b.origin := by
  unfold append
  split <;> rfl

@[simp]
theorem indent_writeAll (ms : List Mark) (b : Buffer) : (Mark.writeAll ms b).indent = b.indent := by
  unfold Mark.writeAll
  induction ms generalizing b with
  | nil => rfl
  | cons m ms ih =>
    rw [List.foldl_cons, ih]
    cases m with
    | text value => exact indent_print b value
    | newline => rfl

@[simp]
theorem indent_place (arrangement : Arrangement) (blankLines : Bool) (written : Nat)
    (previous current : Option Tag) (child b : Buffer) :
    (arrangement.place blankLines written previous current child b).indent = b.indent := by
  simp [Arrangement.place]

end Buffer

/-- A traversal at the same point, whose buffer is some levels further in. -/
def Frame.shift (k : Nat) (f : Frame) : Frame := { f with buffer := f.buffer.shift k }

/-- The same outcome of a call, with all that is written some levels further in. -/
def Renderer.shiftResult (k : Nat) :
    EStateM.Result GenerateError Progress (Option Buffer) →
      EStateM.Result GenerateError Progress (Option Buffer)
  | .ok result p => .ok (result.map (Buffer.shift k)) p
  | .error e p => .error e p

/-- The same outcome of writing, with all that is written some levels further in. -/
def Writing.shiftResult {α : Type} (k : Nat) :
    EStateM.Result GenerateError Frame α → EStateM.Result GenerateError Frame α
  | .ok a f => .ok a (f.shift k)
  | .error e f => .error e (f.shift k)

/-- Calls further in do what calls further out do. -/
def Renderer.Shifts (k : Nat) (render : Renderer) : Prop :=
  ∀ id indent p, render id (indent + k) p = Renderer.shiftResult k (render id indent p)

/-- Writing further in does what writing further out does, and the level is the same
behind it. -/
structure Writing.Shifts {α : Type} (k : Nat) (w : Writing α) : Prop where
  /-- The outcome is the same. -/
  shift : ∀ f, w (f.shift k) = shiftResult k (w f)
  /-- The level is the same. -/
  level : ∀ {f f' a}, w f = .ok a f' → f'.buffer.indent = f.buffer.indent

namespace Writing

variable {q : Request} {render : Renderer}

/-- A change of the buffer that keeps its level. -/
theorem shifts_onBuffer {change : Buffer → Buffer}
    (hshift : ∀ b : Buffer, (change b).shift k = change (b.shift k))
    (hlevel : ∀ b : Buffer, (change b).indent = b.indent) : Shifts k (onBuffer change) where
  shift f := by
    change EStateM.Result.ok _ _ = EStateM.Result.ok _ _
    rw [Frame.shift, Frame.shift, hshift]
  level := by
    rintro f _ _ ⟨⟩
    exact hlevel f.buffer

/-- A required child is appended further in. -/
theorem shifts_required (hr : render.Shifts k) (slot : String) (id : NodeId) :
    Shifts k (required q render slot id) where
  shift f := by
    rw [required_eq, required_eq, Frame.shift, Buffer.indent_shift, hr]
    rcases render id f.buffer.indent f.progress with ⟨_ | written, p⟩ | ⟨e, p⟩
    · rfl
    · simp [Renderer.shiftResult, shiftResult, Frame.shift]
    · rfl
  level := by
    intro f f' a h
    rw [required_eq] at h
    rcases hc : render id f.buffer.indent f.progress with ⟨_ | written, p⟩ | ⟨e, p⟩
    · rw [hc] at h
      cases h
    · rw [hc] at h
      cases h
      exact Buffer.indent_append _ _
    · rw [hc] at h
      cases h

/-- The children of a group are put in their places further in. -/
theorem shifts_groupFrom (hr : render.Shifts k) (arrangement : Arrangement) (written : Nat)
    (previous : Option Tag) (ids : List NodeId) :
    Shifts k (groupFrom q render arrangement written previous ids) := by
  induction ids generalizing written previous with
  | nil =>
    refine ⟨fun f => rfl, ?_⟩
    rintro f _ _ ⟨⟩
    rfl
  | cons id ids ih =>
    constructor
    · intro f
      rw [groupFrom_cons, groupFrom_cons, Frame.shift, Buffer.indent_shift, hr]
      rcases render id f.buffer.indent f.progress with ⟨_ | child, p⟩ | ⟨e, p⟩
      · exact (ih written previous).shift ⟨p, f.buffer⟩
      · simp only [Renderer.shiftResult, Option.map_some, ← Buffer.shift_place]
        exact (ih _ _).shift ⟨p, _⟩
      · rfl
    · intro f f' a h
      rw [groupFrom_cons] at h
      rcases hc : render id f.buffer.indent f.progress with ⟨_ | child, p⟩ | ⟨e, p⟩
      · rw [hc] at h
        exact (ih written previous).level (f := ⟨p, f.buffer⟩) h
      · rw [hc] at h
        exact ((ih _ _).level h).trans (Buffer.indent_place ..)
      · rw [hc] at h
        cases h

/-- A group between braces goes one level in and comes back. -/
theorem shifts_braced (hr : render.Shifts k) (arrangement : Arrangement) (ids : List NodeId) :
    Shifts k (braced q render arrangement ids) := by
  have hgroup : Shifts k (group q render arrangement ids) :=
    shifts_groupFrom hr arrangement 0 none ids
  have hopened (b : Buffer) : (b.println "\x7b").deeper.indent = b.indent + 1 :=
    congrArg (· + 1) (Buffer.indent_print b "\x7b")
  constructor
  · intro f
    have hopen : (⟨f.progress, ((f.buffer.shift k).println "\x7b").deeper⟩ : Frame) =
        Frame.shift k ⟨f.progress, (f.buffer.println "\x7b").deeper⟩ := by
      simp [Frame.shift]
    rw [braced_eq, braced_eq, Frame.shift, hopen, hgroup.shift]
    cases hg : group q render arrangement ids ⟨f.progress, (f.buffer.println "\x7b").deeper⟩ with
    | ok written f₁ =>
      have hlevel : 0 < f₁.buffer.indent := by
        rw [hgroup.level hg, hopened]
        exact Nat.succ_pos _
      simp [shiftResult, Frame.shift, Buffer.shift_shallower hlevel]
    | error e f₁ => rfl
  · intro f f' a h
    rw [braced_eq] at h
    cases hg : group q render arrangement ids ⟨f.progress, (f.buffer.println "\x7b").deeper⟩ with
    | ok written f₁ =>
      rw [hg] at h
      cases h
      have hlevel := hgroup.level hg
      rw [hopened] at hlevel
      rw [Buffer.indent_print]
      change f₁.buffer.indent - 1 = _
      rw [hlevel, Nat.add_sub_cancel]
    | error e f₁ =>
      rw [hg] at h
      cases h

/-- The result of what is written does not matter. -/
theorem Shifts.discard {α : Type} {w : Writing α} (h : w.Shifts k) : Shifts k (discard w) where
  shift f := by
    change EStateM.map (fun _ => PUnit.unit) w _ =
      shiftResult k (EStateM.map (fun _ => PUnit.unit) w f)
    unfold EStateM.map
    rw [h.shift]
    cases w f <;> rfl
  level := by
    intro f f' a hf
    change EStateM.map (fun _ => PUnit.unit) w f = _ at hf
    unfold EStateM.map at hf
    cases hw : w f with
    | ok a f₁ =>
      rw [hw] at hf
      cases hf
      exact h.level hw
    | error e f₁ =>
      rw [hw] at hf
      cases hf

/-- A piece is written further in. -/
theorem shifts_piece (hr : render.Shifts k) (owner : NodeId) (tag : Tag) (p : Piece) :
    Shifts k (piece q render owner tag p) := by
  cases p with
  | text value =>
    exact shifts_onBuffer (fun b => b.shift_print value) fun b => b.indent_print value
  | newline => exact shifts_onBuffer (fun b => b.shift_newline) fun b => rfl
  | required slot id => exact shifts_required hr slot id
  | group arrangement ids => exact (shifts_groupFrom hr arrangement 0 none ids).discard
  | braced arrangement ids => exact (shifts_braced hr arrangement ids).discard
  | standing describe =>
    constructor
    · intro f
      have hprint : Shifts k (onBuffer (·.print (describe (q.standing f.progress)))) :=
        shifts_onBuffer (fun b => b.shift_print _) fun b => b.indent_print _
      exact hprint.shift f
    · rintro f _ _ ⟨⟩
      exact Buffer.indent_print _ _
  | reject fault =>
    refine ⟨fun f => rfl, ?_⟩
    rintro _ _ _ ⟨⟩

/-- A script is written further in. -/
theorem shifts_script (hr : render.Shifts k) (owner : NodeId) (tag : Tag) (s : Script) :
    Shifts k (script q render owner tag s) := by
  induction s with
  | nil =>
    refine ⟨fun f => rfl, ?_⟩
    rintro f _ _ ⟨⟩
    rfl
  | cons p s ih =>
    have hpiece : Shifts k (piece q render owner tag p) := shifts_piece hr owner tag p
    constructor
    · intro f
      rw [script_cons, script_cons, hpiece.shift]
      cases piece q render owner tag p f with
      | ok a f₁ => exact ih.shift f₁
      | error e f₁ => rfl
    · intro f f' a h
      rw [script_cons] at h
      cases hp : piece q render owner tag p f with
      | ok a f₁ =>
        rw [hp] at h
        exact (ih.level h).trans (hpiece.level hp)
      | error e f₁ =>
        rw [hp] at h
        cases h

end Writing

namespace Request

/-- **A call further in does what a call further out does**, and every line of what it
writes is indented so much more. -/
theorem render_shifts (q : Request) (limit : Nat) (first : Bool) :
    Renderer.Shifts k (q.render limit first) := by
  induction limit generalizing first with
  | zero => exact fun _ _ _ => rfl
  | succ limit ih =>
    intro id indent p
    unfold render
    cases q.gate first id p with
    | error e => rfl
    | ok found =>
      cases found with
      | none => rfl
      | some found =>
        obtain ⟨node, visitor⟩ := found
        have hscript : Writing.Shifts k (Writing.script q (q.render limit false) id node.tag
            (q.scriptOf visitor id node)) := Writing.shifts_script (ih false) id node.tag _
        have hstart : (⟨p.enter id, .ofNode id (indent + k) q.options.indent⟩ : Frame) =
            Frame.shift k ⟨p.enter id, .ofNode id indent q.options.indent⟩ := by
          simp [Frame.shift]
        have hshift := hscript.shift ⟨p.enter id, .ofNode id indent q.options.indent⟩
        rw [← hstart] at hshift
        dsimp only
        cases hs : Writing.script q (q.render limit false) id node.tag
            (q.scriptOf visitor id node) ⟨p.enter id, .ofNode id indent q.options.indent⟩ with
        | ok a f =>
          rw [hs] at hshift
          rw [enter_of_script hs, enter_of_script hshift]
          rfl
        | error e f =>
          rw [hs] at hshift
          rw [enter_of_script_error hs, enter_of_script_error hshift]
          rfl

end Request

end SourceScribe
