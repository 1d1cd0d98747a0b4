import SourceScribe.Generator
import SourceScribe.Proofs.Buffers
import SourceScribe.Proofs.Steps

/-!
# How buffers come about

A buffer begins empty, and everything after that is done by its operations: it
is printed into, broken, indented, and finished buffers of other nodes are
appended to it, which have come about in the same way. No such buffer has an
empty part. The buffers of a traversal are of this kind, whatever the visitors
are, and a traversal never raises the error of a map that was refused.
-/

namespace SourceScribe

namespace Buffer

/-- A buffer that its operations have made, from buffers that they have made. -/
inductive Built : Buffer → Prop
  | ofIndent (indent : Nat) (unit : String) : Built (ofIndent indent unit)
  | ofNode (origin : NodeId) (indent : Nat) (unit : String) : Built (ofNode origin indent unit)
  | print {b : Buffer} (text : String) : Built b → Built (b.print text)
  | newline {b : Buffer} : Built b → Built b.newline
  | deeper {b : Buffer} : Built b → Built b.deeper
  | shallower {b : Buffer} : Built b → Built b.shallower
  | dropEmptyLine {b : Buffer} : Built b → Built b.dropEmptyLine
  | append {b child : Buffer} : Built b → Built child → Built (b.append child)

variable {b child : Buffer}

/-- Printing and breaking the line are operations one after the other. -/
theorem Built.println (h : b.Built) (text : String) : (b.println text).Built :=
  (h.print text).newline

/-- Marks are text and line ends. -/
theorem Built.writeAll (h : b.Built) (ms : List Mark) : (Mark.writeAll ms b).Built := by
  induction ms generalizing b with
  | nil => exact h
  | cons m ms ih =>
    cases m with
    | text value => exact ih (h.print value)
    | newline => exact ih h.newline

/-- A child is put in its place by operations. -/
theorem Built.place (h : b.Built) (hc : child.Built) (arrangement : Arrangement)
    (blankLines : Bool) (written : Nat) (previous current : Option Tag) :
    (arrangement.place blankLines written previous current child b).Built :=
  ((h.writeAll _).append hc).writeAll _

/-- To drop an empty line leaves the other lines. -/
theorem mem_lines_of_dropEmptyLine {l : Line} (hl : l ∈ b.dropEmptyLine.lines) : l ∈ b.lines := by
  unfold Buffer.dropEmptyLine at hl
  split at hl
  next => exact hl
  next last hlast =>
    split at hl
    next =>
      have hback : b.finished.pop.toList ++ [last] = b.finished.toList := by
        obtain ⟨init, hinit⟩ := Array.back?_eq_some_iff.mp hlast
        rw [hinit, Array.pop_push, Array.toList_push]
      have hmem : l ∈ b.finished.toList := hback ▸ hl
      exact List.mem_append_left _ hmem
    next => exact hl

/-- Operations leave no empty part. -/
theorem Built.tidy (h : b.Built) : b.Tidy := by
  induction h with
  | ofIndent indent unit => exact tidy_of_lines (by simp [Buffer.ofIndent]) (Line.tidy_empty indent)
  | ofNode origin indent unit => exact tidy_ofNode origin indent unit
  | print text _ ih => exact (Extends.print _ text).tidy ih
  | newline _ ih => exact (Extends.newline _).tidy ih
  | deeper _ ih => exact ih.reindent _
  | shallower _ ih => exact ih.reindent _
  | dropEmptyLine _ ih => exact fun l hl => ih l (mem_lines_of_dropEmptyLine hl)
  | append _ _ ih ihc => exact ih.append ihc

end Buffer

/-- To fix the path of an error does not make it the error of a map. -/
theorem GenerateError.within_eq_sourceMap {e : GenerateError} {path : NodePath}
    {refusal : MappingError} (h : e.within path = .sourceMap refusal) : e = .sourceMap refusal := by
  unfold within at h
  split at h
  all_goals first | exact h | cases h

/-- What a renderer leaves is built by operations, and what it raises is not the
error of a map. -/
def Renderer.Builds (render : Renderer) : Prop :=
  ∀ id indent p,
    (∀ b p', render id indent p = .ok (some b) p' → b.Built) ∧
      ∀ refusal p', render id indent p ≠ .error (.sourceMap refusal) p'

/-- Writing into a buffer that operations have built leaves such a buffer, and
what it raises is not the error of a map. -/
def Writing.Builds {α : Type} (w : Writing α) : Prop :=
  ∀ f : Frame, f.buffer.Built →
    (∀ a f', w f = .ok a f' → f'.buffer.Built) ∧
      ∀ refusal f', w f ≠ .error (.sourceMap refusal) f'

namespace Writing

variable {q : Request} {render : Renderer}

/-- A change of the buffer by operations. -/
theorem builds_onBuffer {change : Buffer → Buffer} (h : ∀ b : Buffer, b.Built → (change b).Built) :
    Builds (onBuffer change) := by
  intro f hf
  constructor
  · rintro _ _ ⟨⟩
    exact h f.buffer hf
  · rintro _ _ ⟨⟩

/-- The error for a child that was written elsewhere is not the error of a map. -/
theorem alreadyGenerated_ne_sourceMap (p : Progress) (slot : String) (id : NodeId)
    (refusal : MappingError) : q.alreadyGenerated p slot id ≠ .sourceMap refusal := by
  unfold Request.alreadyGenerated
  dsimp only
  split <;> rintro ⟨⟩

/-- A required child is appended. -/
theorem builds_required (hr : render.Builds) (slot : String) (id : NodeId) :
    Builds (required q render slot id) := by
  intro f hf
  rw [required_eq]
  have hchild := hr id f.buffer.indent f.progress
  rcases hc : render id f.buffer.indent f.progress with ⟨_ | written, p⟩ | ⟨e, p⟩
  · constructor
    · rintro _ _ ⟨⟩
    · intro refusal f' h
      injection h with he
      exact alreadyGenerated_ne_sourceMap p slot id refusal he
  · constructor
    · rintro _ _ ⟨⟩
      exact hf.append (hchild.1 written p hc)
    · rintro _ _ ⟨⟩
  · constructor
    · rintro _ _ ⟨⟩
    · rintro refusal _ ⟨⟩
      exact hchild.2 refusal p hc

/-- The children of a group are put in their places. -/
theorem builds_groupFrom (hr : render.Builds) (arrangement : Arrangement) (written : Nat)
    (previous : Option Tag) (ids : List NodeId) :
    Builds (groupFrom q render arrangement written previous ids) := by
  induction ids generalizing written previous with
  | nil =>
    intro f hf
    constructor
    · rintro _ _ ⟨⟩
      exact hf
    · rintro _ _ ⟨⟩
  | cons id ids ih =>
    intro f hf
    rw [groupFrom_cons]
    have hchild := hr id f.buffer.indent f.progress
    rcases hc : render id f.buffer.indent f.progress with ⟨_ | child, p⟩ | ⟨e, p⟩
    · exact ih written previous ⟨p, f.buffer⟩ hf
    · exact ih _ _ ⟨p, _⟩ (hf.place (hchild.1 child p hc) arrangement _ written previous _)
    · constructor
      · rintro _ _ ⟨⟩
      · rintro refusal _ ⟨⟩
        exact hchild.2 refusal p hc

/-- A group between braces is written further in. -/
theorem builds_braced (hr : render.Builds) (arrangement : Arrangement) (ids : List NodeId) :
    Builds (braced q render arrangement ids) := by
  intro f hf
  rw [braced_eq]
  have hopened : (f.buffer.println "\x7b").deeper.Built := (hf.println _).deeper
  have hbuilds : Builds (group q render arrangement ids) :=
    builds_groupFrom hr arrangement 0 none ids
  have hgroup := hbuilds ⟨f.progress, (f.buffer.println "\x7b").deeper⟩ hopened
  cases hg : group q render arrangement ids ⟨f.progress, (f.buffer.println "\x7b").deeper⟩ with
  | ok written f₁ =>
    constructor
    · rintro _ _ ⟨⟩
      exact (hgroup.1 written f₁ hg).shallower.print "\x7d"
    · rintro _ _ ⟨⟩
  | error e f₁ =>
    constructor
    · rintro _ _ ⟨⟩
    · rintro refusal _ ⟨⟩
      exact hgroup.2 refusal f₁ hg

/-- What is written is built whether or not its result is used. -/
theorem Builds.discard {α : Type} {w : Writing α} (h : w.Builds) : Builds (discard w) := by
  intro f hf
  change (∀ a f', EStateM.map (fun _ => PUnit.unit) w f = .ok a f' → _) ∧
    ∀ refusal f', EStateM.map (fun _ => PUnit.unit) w f ≠ .error (.sourceMap refusal) f'
  unfold EStateM.map
  cases hw : w f with
  | ok a f₁ =>
    constructor
    · rintro _ _ ⟨⟩
      exact (h f hf).1 a f₁ hw
    · rintro _ _ ⟨⟩
  | error e f₁ =>
    constructor
    · rintro _ _ ⟨⟩
    · rintro refusal _ ⟨⟩
      exact (h f hf).2 refusal f₁ hw

/-- A piece is written by operations. -/
theorem builds_piece (hr : render.Builds) (owner : NodeId) (tag : Tag) (p : Piece) :
    Builds (piece q render owner tag p) := by
  cases p with
  | text value => exact builds_onBuffer fun b hb => hb.print value
  | newline => exact builds_onBuffer fun b hb => hb.newline
  | required slot id => exact builds_required hr slot id
  | group arrangement ids => exact (builds_groupFrom hr arrangement 0 none ids).discard
  | braced arrangement ids => exact (builds_braced hr arrangement ids).discard
  | standing describe =>
    exact fun f hf =>
      builds_onBuffer (fun b hb => hb.print (describe (q.standing f.progress))) f hf
  | reject fault =>
    intro f hf
    constructor
    · rintro _ _ ⟨⟩
    · rintro _ _ ⟨⟩

/-- A script is written by operations. -/
theorem builds_script (hr : render.Builds) (owner : NodeId) (tag : Tag) (s : Script) :
    Builds (script q render owner tag s) := by
  induction s with
  | nil =>
    intro f hf
    constructor
    · rintro _ _ ⟨⟩
      exact hf
    · rintro _ _ ⟨⟩
  | cons p s ih =>
    intro f hf
    rw [script_cons]
    have hpiece := builds_piece (q := q) hr owner tag p f hf
    cases hp : piece q render owner tag p f with
    | ok a f₁ => exact ih f₁ (hpiece.1 a f₁ hp)
    | error e f₁ =>
      constructor
      · rintro _ _ ⟨⟩
      · rintro refusal _ ⟨⟩
        exact hpiece.2 refusal f₁ hp

end Writing

namespace Request

/-- A node that is entered writes by operations if its children do. -/
theorem enter_builds {q : Request} {render : Renderer} (hr : render.Builds) (visitor : Visitor)
    (node : Node) (id : NodeId) (indent : Nat) (p : Progress) :
    (∀ b p', q.enter render visitor id node indent p = .ok (some b) p' → b.Built) ∧
      ∀ refusal p', q.enter render visitor id node indent p ≠ .error (.sourceMap refusal) p' := by
  have hbuilds : (Writing.script q render id node.tag (q.scriptOf visitor id node)).Builds :=
    Writing.builds_script hr id node.tag _
  have hscript := hbuilds ⟨p.enter id, .ofNode id indent q.options.indent⟩ (.ofNode id indent _)
  cases hs : Writing.script q render id node.tag (q.scriptOf visitor id node)
      ⟨p.enter id, .ofNode id indent q.options.indent⟩ with
  | ok a f =>
    rw [enter_of_script hs]
    constructor
    · rintro _ _ ⟨⟩
      exact hscript.1 a f hs
    · rintro _ _ ⟨⟩
  | error e f =>
    rw [enter_of_script_error hs]
    constructor
    · rintro _ _ ⟨⟩
    · intro refusal p' h
      injection h with he
      rw [GenerateError.within_eq_sourceMap he] at hs
      exact hscript.2 refusal f hs

/-- A node is written by operations. -/
theorem render_builds (q : Request) (limit : Nat) (first : Bool) :
    Renderer.Builds (q.render limit first) := by
  induction limit generalizing first with
  | zero =>
    intro id indent p
    constructor
    · rintro _ _ ⟨⟩
    · rintro _ _ ⟨⟩
  | succ limit ih =>
    intro id indent p
    rcases q.render_cases limit first id indent p with
      ⟨e, hrefuses, he⟩ | ⟨node, visitor, _, ⟨_, hskip⟩ | ⟨_, henter⟩⟩
    · rw [he]
      constructor
      · rintro _ _ ⟨⟩
      · rintro _ _ ⟨⟩
        cases hrefuses
    · rw [hskip]
      constructor
      · rintro _ _ ⟨⟩
      · rintro _ _ ⟨⟩
    · rw [henter]
      exact enter_builds (ih false) visitor node id indent p

end Request

namespace Generator

/-- The buffer of a generator is built by operations. -/
theorem render_built {g : Generator} {ast : Ast} {id : NodeId} {b : Buffer}
    (h : g.render ast id = .ok b) : b.Built := by
  unfold render at h
  dsimp only at h
  split at h
  next buffer p hrun =>
    cases h
    obtain ⟨result, hrender, rfl⟩ := Request.run_eq_ok hrun
    cases result with
    | none => exact .ofNode id 0 _
    | some b => exact (Request.render_builds _ _ _ id 0 {}).1 b p hrender
  next => cases h

/-- A generator never finds that a map was refused before it makes one. -/
theorem render_ne_sourceMap (g : Generator) (ast : Ast) (id : NodeId) (refusal : MappingError) :
    g.render ast id ≠ .error (.sourceMap refusal) := by
  intro h
  unfold render at h
  dsimp only at h
  split at h
  next => cases h
  next e p hrun =>
    cases h
    exact (Request.render_builds _ _ _ id 0 {}).2 refusal p (Request.run_eq_error.mp hrun)

end Generator

end SourceScribe
