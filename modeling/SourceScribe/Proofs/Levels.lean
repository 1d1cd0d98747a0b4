import SourceScribe.Proofs.Shifting

/-!
# How far in a text goes

Only a group between braces goes further in, by one level, and it comes back. So
nothing that is written for a node is further in than the level of the call for it and
one level for every call that may still lie inside another one. A level that is a word
where a node is called for stays one as long as so many levels more fit into a word.
-/

namespace SourceScribe

/-- Another level is not too far in if it was not before and the new one is not. -/
theorem Line.indent_reindent_le {l : Line} {level top : Nat} (hl : l.indent ≤ top)
    (hlevel : level ≤ top) : (l.reindent level).indent ≤ top := by
  unfold reindent
  split
  · exact hlevel
  · exact hl

/-- A buffer at a level of which nothing is further in than another level. -/
structure Buffer.Bounded (level top : Nat) (b : Buffer) : Prop where
  /-- The level of new lines. -/
  indent : b.indent = level
  /-- New lines are not further in. -/
  le : level ≤ top
  /-- The lines are not further in. -/
  lines : ∀ l ∈ b.lines, l.indent ≤ top

namespace Buffer.Bounded

variable {level top : Nat} {b child : Buffer}

/-- A new buffer has one line, at its level. -/
theorem ofNode (id : NodeId) (unit : String) (h : level ≤ top) :
    Bounded level top (.ofNode id level unit) where
  indent := rfl
  le := h
  lines := forall_mem_lines.mpr ⟨fun _ hl => absurd hl List.not_mem_nil, h⟩

/-- Text goes to the last line. -/
theorem print (h : b.Bounded level top) (text : String) : (b.print text).Bounded level top where
  indent := (b.indent_print text).trans h.indent
  le := h.le
  lines := by
    obtain ⟨hfinished, hcurrent⟩ := forall_mem_lines.mp h.lines
    unfold Buffer.print
    split
    · exact h.lines
    · exact forall_mem_lines.mpr ⟨hfinished, hcurrent⟩

/-- A new line begins at the level. -/
theorem newline (h : b.Bounded level top) : b.newline.Bounded level top where
  indent := h.indent
  le := h.le
  lines := by
    rw [forall_mem_lines, Buffer.newline, Array.toList_push]
    exact ⟨h.lines, h.indent.trans_le h.le⟩

/-- The last line may go to another level along with the buffer. -/
theorem relevel (h : b.Bounded level top) {next : Nat} (hnext : next ≤ top) :
    Bounded next top { b with indent := next, current := b.current.reindent next } where
  indent := rfl
  le := hnext
  lines := by
    obtain ⟨hfinished, hcurrent⟩ := forall_mem_lines.mp h.lines
    exact forall_mem_lines.mpr ⟨hfinished, Line.indent_reindent_le hcurrent hnext⟩

/-- One level further in is not too far if there is a level left. -/
theorem deeper (h : b.Bounded level top) (hlt : level < top) :
    b.deeper.Bounded (level + 1) top := by
  have hmoved := h.relevel (Nat.succ_le_of_lt hlt)
  rwa [← h.indent] at hmoved ⊢

/-- One level further out is not too far in. -/
theorem shallower (h : b.Bounded (level + 1) top) : b.shallower.Bounded level top := by
  have hindent : b.indent - 1 = level := by rw [h.indent, Nat.add_sub_cancel]
  have hmoved := h.relevel (Nat.le_of_succ_le h.le)
  rwa [← hindent] at hmoved ⊢

/-- A buffer is appended that is not too far in either. -/
theorem append (h : b.Bounded level top) (hchild : ∀ l ∈ child.lines, l.indent ≤ top) :
    (b.append child).Bounded level top where
  indent := (b.indent_append child).trans h.indent
  le := h.le
  lines := forall_mem_lines_append (fun _ _ hl _ => hl) h.lines hchild

/-- Marks leave the level. -/
theorem writeAll (h : b.Bounded level top) (ms : List Mark) :
    (Mark.writeAll ms b).Bounded level top := by
  unfold Mark.writeAll
  induction ms generalizing b with
  | nil => exact h
  | cons m ms ih =>
    refine ih ?_
    cases m with
    | text value => exact h.print value
    | newline => exact h.newline

/-- A child is put in its place with the marks around it. -/
theorem place (h : b.Bounded level top) (hchild : ∀ l ∈ child.lines, l.indent ≤ top)
    (arrangement : Arrangement) (blankLines : Bool) (written : Nat)
    (previous current : Option Tag) :
    (arrangement.place blankLines written previous current child b).Bounded level top :=
  ((h.writeAll _).append hchild).writeAll _

end Buffer.Bounded

/-- What calls write is further in than they are by no more than so many levels. -/
def Renderer.Adds (levels : Nat) (render : Renderer) : Prop :=
  ∀ id indent p written p', render id indent p = .ok (some written) p' →
    ∀ l ∈ written.lines, l.indent ≤ indent + levels

/-- Writing at a level comes back to it and does not go further in than another level. -/
def Writing.Bounded {α : Type} (level top : Nat) (w : Writing α) : Prop :=
  ∀ {f f' : Frame} {a : α}, f.buffer.Bounded level top → w f = .ok a f' →
    f'.buffer.Bounded level top

namespace Writing

variable {q : Request} {render : Renderer} {level levels top : Nat}

/-- A call at the level is not too far in. -/
theorem le_of_adds (hr : render.Adds levels) (htop : level + levels ≤ top) {f : Frame}
    (hf : f.buffer.Bounded level top) {id : NodeId} {written : Buffer} {p : Progress}
    (h : render id f.buffer.indent f.progress = .ok (some written) p) :
    ∀ l ∈ written.lines, l.indent ≤ top := by
  intro l hl
  have hle := hr _ _ _ _ _ h l hl
  rw [hf.indent] at hle
  exact hle.trans htop

/-- A required child is appended at the level. -/
theorem bounded_required (hr : render.Adds levels) (htop : level + levels ≤ top) (slot : String)
    (id : NodeId) : Bounded level top (required q render slot id) := by
  intro f f' a hf h
  rw [required_eq] at h
  rcases hc : render id f.buffer.indent f.progress with ⟨_ | written, p⟩ | ⟨e, p⟩
  · rw [hc] at h
    cases h
  · rw [hc] at h
    cases h
    exact hf.append (le_of_adds hr htop hf hc)
  · rw [hc] at h
    cases h

/-- The children of a group are put in their places at the level. -/
theorem bounded_groupFrom (hr : render.Adds levels) (htop : level + levels ≤ top)
    (arrangement : Arrangement) (written : Nat) (previous : Option Tag) (ids : List NodeId) :
    Bounded level top (groupFrom q render arrangement written previous ids) := by
  induction ids generalizing written previous with
  | nil =>
    intro f f' a hf h
    cases h
    exact hf
  | cons id ids ih =>
    intro f f' a hf h
    rw [groupFrom_cons] at h
    rcases hc : render id f.buffer.indent f.progress with ⟨_ | child, p⟩ | ⟨e, p⟩
    · rw [hc] at h
      exact ih written previous (f := ⟨p, f.buffer⟩) hf h
    · rw [hc] at h
      exact ih _ _ (hf.place (le_of_adds hr htop hf hc) ..) h
    · rw [hc] at h
      cases h

/-- A group between braces takes one level more. -/
theorem bounded_braced (hr : render.Adds levels) (htop : level + levels < top)
    (arrangement : Arrangement) (ids : List NodeId) :
    Bounded level top (braced q render arrangement ids) := by
  intro f f' a hf h
  have hlevel : level < top := (Nat.le_add_right level levels).trans_lt htop
  have hinside : level + 1 + levels ≤ top := by omega
  rw [braced_eq] at h
  cases hg : group q render arrangement ids ⟨f.progress, (f.buffer.println "\x7b").deeper⟩ with
  | ok written f₁ =>
    rw [hg] at h
    cases h
    have hopened := ((hf.print "\x7b").newline).deeper hlevel
    have hgroup := bounded_groupFrom hr hinside arrangement 0 none ids hopened hg
    exact hgroup.shallower.print "\x7d"
  | error e f₁ =>
    rw [hg] at h
    cases h

/-- A piece is written at the level, or between braces one level further in. -/
theorem bounded_piece (hr : render.Adds levels) (htop : level + levels < top) (owner : NodeId)
    (tag : Tag) (p : Piece) : Bounded level top (piece q render owner tag p) := by
  intro f f' a hf h
  cases p with
  | text value =>
    cases h
    exact hf.print value
  | newline =>
    cases h
    exact hf.newline
  | required slot id => exact bounded_required hr htop.le slot id hf h
  | group arrangement ids =>
    obtain ⟨_, hgroup⟩ := discard_eq_ok h
    exact bounded_groupFrom hr htop.le arrangement 0 none ids hf hgroup
  | braced arrangement ids =>
    obtain ⟨_, hbraced⟩ := discard_eq_ok h
    exact bounded_braced hr htop arrangement ids hf hbraced
  | standing describe =>
    cases h
    exact hf.print _
  | reject fault => cases h

/-- A script is written at the level, its groups between braces one level further in. -/
theorem bounded_script (hr : render.Adds levels) (htop : level + levels < top) (owner : NodeId)
    (tag : Tag) (s : Script) : Bounded level top (script q render owner tag s) := by
  induction s with
  | nil =>
    intro f f' a hf h
    cases h
    exact hf
  | cons p s ih =>
    intro f f' a hf h
    rw [script_cons] at h
    cases hp : piece q render owner tag p f with
    | ok a f₁ =>
      rw [hp] at h
      exact ih (bounded_piece hr htop owner tag p hf hp) h
    | error e f₁ =>
      rw [hp] at h
      cases h

end Writing

namespace Request

/-- **A call adds one level at most for every call inside it.** -/
theorem render_adds (q : Request) (limit : Nat) (first : Bool) :
    (q.render limit first).Adds limit := by
  induction limit generalizing first with
  | zero =>
    intro id indent p written p' h
    cases h
  | succ limit ih =>
    intro id indent p written p' h
    unfold render at h
    cases hgate : q.gate first id p with
    | error e =>
      rw [hgate] at h
      cases h
    | ok found =>
      cases found with
      | none =>
        rw [hgate] at h
        cases h
      | some found =>
        obtain ⟨node, visitor⟩ := found
        rw [hgate] at h
        dsimp only at h
        cases hs : Writing.script q (q.render limit false) id node.tag
            (q.scriptOf visitor id node) ⟨p.enter id, .ofNode id indent q.options.indent⟩ with
        | ok a f =>
          rw [enter_of_script hs] at h
          cases h
          have hstart : Buffer.Bounded indent (indent + (limit + 1))
              (.ofNode id indent q.options.indent) := .ofNode id _ (Nat.le_add_right ..)
          have hroom : indent + limit < indent + (limit + 1) := Nat.lt_succ_self _
          exact (Writing.bounded_script (ih false) hroom id node.tag _ hstart hs).lines
        | error e f =>
          rw [enter_of_script_error hs] at h
          cases h

end Request

end SourceScribe
