import SourceScribe.Proofs.Coverage
import SourceScribe.Proofs.Deeds
import SourceScribe.Proofs.Steps

/-!
# Visits to children

What a node does while it is written comes from calls for its children. A
renderer brings deeds when each child that is placed was written by a call for
it, each child that is passed over was left out by one, and the calls were made
one after the other. A script that succeeds visits the children that it asks
for: the renderer has brought deeds about them, in order and one for each, and
the buffer holds what these deeds have written. A definition asks for one
section after the other, and so it visits its children as they are listed.
-/

namespace SourceScribe

/-- Calls of a renderer, one after the other, bring deeds and take the traversal from one
point to another. -/
inductive Renderer.Brings (render : Renderer) : List Deed → Progress → Progress → Prop
  | nil (p : Progress) : Brings render [] p p
  | wrote (part : Part) {deeds : List Deed} {p p' : Progress} :
    Brings render deeds p p' → Brings render (.wrote part :: deeds) p p'
  | placed {child : NodeId} {indent : Nat} {written : Buffer} {deeds : List Deed}
    {p p₁ p' : Progress} :
    render child indent p = .ok (some written) p₁ → Brings render deeds p₁ p' →
      Brings render (.placed child written :: deeds) p p'
  | passed {child : NodeId} {indent : Nat} {deeds : List Deed} {p p₁ p' : Progress} :
    render child indent p = .ok none p₁ → Brings render deeds p₁ p' →
      Brings render (.passed child :: deeds) p p'

/-- Children have been visited between two frames: a renderer has brought deeds about them,
in order and one for each, and the buffer has changed by these deeds. -/
def Frame.Visits (render : Renderer) (ids : List NodeId) (f f' : Frame) : Prop :=
  ∃ deeds, Deed.children deeds = ids ∧ render.Brings deeds f.progress f'.progress ∧
    f.buffer.Does deeds f'.buffer

namespace Renderer.Brings

variable {render : Renderer} {deeds more : List Deed} {p p₁ p₂ : Progress}

/-- Deeds are brought one after the other. -/
theorem append (h : render.Brings deeds p p₁) (h' : render.Brings more p₁ p₂) :
    render.Brings (deeds ++ more) p p₂ := by
  induction h with
  | nil p => exact h'
  | wrote part _ ih => exact .wrote part (ih h')
  | placed hcall _ ih => exact .placed hcall (ih h')
  | passed hcall _ ih => exact .passed hcall (ih h')

/-- A node writes parts of its own without a call. -/
theorem own (render : Renderer) (parts : List Part) (p : Progress) :
    render.Brings (parts.map .wrote) p p := by
  induction parts with
  | nil => exact .nil p
  | cons part parts ih => exact .wrote part ih

end Renderer.Brings

namespace Frame.Visits

variable {render : Renderer} {ids more : List NodeId} {f f₁ f₂ : Frame} {b : Buffer}
  {p : Progress}

/-- Children are visited one after the other. -/
theorem trans (h : Visits render ids f f₁) (h' : Visits render more f₁ f₂) :
    Visits render (ids ++ more) f f₂ := by
  obtain ⟨deeds, hids, hbrings, hdoes⟩ := h
  obtain ⟨later, hmore, hbrings', hdoes'⟩ := h'
  refine ⟨deeds ++ later, ?_, hbrings.append hbrings', hdoes.trans hdoes'⟩
  rw [Deed.children_append, hids, hmore]

/-- Nothing is visited by writing alone. -/
theorem of_writes (render : Renderer) (hw : f.buffer.Writes b) :
    Visits render [] f ⟨f.progress, b⟩ := by
  obtain ⟨own, hown⟩ := hw
  exact ⟨own.map .wrote, Deed.children_wrote own, .own render own f.progress, hown⟩

/-- Nothing is visited by doing nothing. -/
theorem refl (render : Renderer) (f : Frame) : Visits render [] f f :=
  of_writes render (.refl f.buffer)

/-- A child that is put in its place among parts of the node has been visited. -/
theorem of_placed {id : NodeId} {indent : Nat} {written : Buffer} {front back : List Part}
    (hcall : render id indent f.progress = .ok (some written) p)
    (hd : f.buffer.Does (front.map .wrote ++ .placed id written :: back.map .wrote) b) :
    Visits render [id] f ⟨p, b⟩ :=
  ⟨_, Deed.children_around front back id written,
    (Renderer.Brings.own render front f.progress).append (.placed hcall (.own render back p)), hd⟩

/-- A child that is left out has been visited as well. -/
theorem of_passed {id : NodeId} {indent : Nat} (hcall : render id indent f.progress = .ok none p) :
    Visits render [id] f ⟨p, f.buffer⟩ := by
  refine ⟨[.passed id], rfl, .passed hcall (.nil p), ?_, ?_, rfl⟩
  · simp [Deed.parts]
  · simp

end Frame.Visits

namespace Writing

open SourceScribe.Frame (Visits)

variable {q : Request} {render : Renderer} {f f' : Frame}

/-- A required child is visited. -/
theorem visits_required {slot : String} {id : NodeId}
    (h : required q render slot id f = .ok () f') : Visits render [id] f f' := by
  rw [required_eq] at h
  split at h
  next written p hcall =>
    cases h
    have hplace : f.buffer.Does ([].map .wrote ++ .placed id written :: [].map .wrote)
        (f.buffer.append written) := Buffer.does_append f.buffer id written
    exact .of_placed hcall hplace
  next => cases h
  next => cases h

/-- The children of a group are visited. -/
theorem visits_groupFrom {arrangement : Arrangement} {written n : Nat} {previous : Option Tag}
    {ids : List NodeId} (h : groupFrom q render arrangement written previous ids f = .ok n f') :
    Visits render ids f f' := by
  induction ids generalizing f written previous with
  | nil =>
    cases h
    exact .refl render f'
  | cons id rest ih =>
    rw [groupFrom_cons] at h
    split at h
    next child p hcall =>
      obtain ⟨front, back, hplace⟩ := Buffer.does_place arrangement
        q.options.blankLineBetweenDefinitions written previous (q.ast.tag? id) id child f.buffer
      exact (Visits.of_placed hcall hplace).trans (ih h)
    next p hcall => exact (Visits.of_passed hcall).trans (ih h)
    next => cases h

/-- The children of a group between braces are visited. -/
theorem visits_braced {arrangement : Arrangement} {n : Nat} {ids : List NodeId}
    (h : braced q render arrangement ids f = .ok n f') : Visits render ids f f' := by
  rw [braced_eq] at h
  split at h
  next written f₁ hgroup =>
    cases h
    have hopen : Visits render [] f _ := .of_writes render (Buffer.writes_open f.buffer)
    have hclose : Visits render [] f₁ _ := .of_writes render (Buffer.writes_close f₁.buffer)
    have hall := (hopen.trans (visits_groupFrom hgroup)).trans hclose
    rwa [List.nil_append, List.append_nil] at hall
  next => cases h

/-- The children of a piece are visited. -/
theorem visits_piece {owner : NodeId} {tag : Tag} {p : Piece}
    (h : piece q render owner tag p f = .ok () f') : Visits render p.calls f f' := by
  cases p with
  | text value =>
    cases h
    exact .of_writes render (Buffer.writes_print f.buffer value)
  | newline =>
    cases h
    exact .of_writes render (Buffer.writes_newline f.buffer)
  | required slot child => exact visits_required h
  | group arrangement children =>
    obtain ⟨n, hgroup⟩ := discard_eq_ok h
    exact visits_groupFrom hgroup
  | braced arrangement children =>
    obtain ⟨n, hbraced⟩ := discard_eq_ok h
    exact visits_braced hbraced
  | standing describe =>
    cases h
    exact .of_writes render (Buffer.writes_print f.buffer _)
  | reject fault => cases h

/-- A script visits the children that it asks for. -/
theorem visits_script {owner : NodeId} {tag : Tag} {s : Script}
    (h : script q render owner tag s f = .ok () f') : Visits render (Script.calls s) f f' := by
  induction s generalizing f with
  | nil =>
    cases h
    exact .refl render f'
  | cons p rest ih =>
    rw [script_cons] at h
    split at h
    next f₁ hpiece =>
      rw [Script.calls_cons]
      exact (visits_piece hpiece).trans (ih h)
    next => cases h

end Writing

namespace Sections

/-- How the children of a node fall into sections. -/
structure Partitioned (s : Setting) : Prop where
  /-- The children are split exactly when their ranks never fall. -/
  splits : (∃ parts, split s.tag? s.children = .ok parts) ↔
    (ranks s.tag? s.children).Pairwise (· ≤ ·)
  /-- The sections one after the other are the children again. -/
  whole : ∀ parts, split s.tag? s.children = .ok parts →
    parts.annotations ++ parts.parameters ++ parts.returns ++ parts.body = s.children
  /-- Each section holds the children of its rank. -/
  ranked : ∀ parts, split s.tag? s.children = .ok parts → parts = gather s.tag? s.children
  /-- Children that are not split are rejected for the first one whose rank is smaller than
  that of the one in front of it. -/
  rejects : ∀ fault, split s.tag? s.children = .error fault ↔
    ∃ child, Displaced s.tag? s.children child ∧ fault = .outOfOrder (s.tag? child) child

/-- The children of a node fall into sections. -/
theorem partitioned (s : Setting) : Partitioned s where
  splits := exists_split_iff
  whole _ := split_flatten
  ranked _ h := (splitFrom_eq_ok.mp h).2
  rejects _ := split_eq_error

end Sections

namespace Grammar

open Script

variable {s : Setting}

/-- The kinds of definitions whose children come in sections. -/
def sectioned : List Tag :=
  [.serviceDefinition, .resourceDefinition, .functionDefinition, .connectorDefinition,
    .actionDefinition, .structDefinition, .typeMapperDefinition, .workerDeclaration]

/-- How a definition treats its children: the sections are written one after the other, or
the definition is rejected before anything is done. -/
structure VisitsSections (s : Setting) : Prop where
  /-- A definition that is written has visited its sections, one after the other, and so its
  children as they are listed. -/
  visits : ∀ {q : Request} {render : Renderer} {owner : NodeId} {tag : Tag} {f f' : Frame},
    Writing.script q render owner tag (rule s.construct.tag s) f = .ok () f' →
      ∃ parts, Sections.split s.tag? s.children = .ok parts ∧
        Frame.Visits render
          (parts.annotations ++ parts.parameters ++ parts.returns ++ parts.body) f f' ∧
        Frame.Visits render s.children f f'
  /-- A definition whose children are not split visits and writes nothing. -/
  stops : ∀ {fault : Fault}, Sections.split s.tag? s.children = .error fault →
    ∀ (q : Request) (render : Renderer) (owner : NodeId) (tag : Tag) (f : Frame),
      Writing.script q render owner tag (rule s.construct.tag s) f =
        .error (.malformed owner tag fault []) f

/-- A definition goes on with its sections. -/
theorem rule_eq_sections (h : s.construct.tag ∈ sectioned) :
    ∃ next, rule s.construct.tag s = sections s next := by
  cases hc : s.construct with
  | serviceDefinition => exact ⟨_, by rw [Construct.tag, rule, serviceDefinition, hc]⟩
  | resourceDefinition => exact ⟨_, by rw [Construct.tag, rule, resourceDefinition, hc]⟩
  | functionDefinition => exact ⟨_, by rw [Construct.tag, rule, functionDefinition, hc]⟩
  | connectorDefinition => exact ⟨_, by rw [Construct.tag, rule, connectorDefinition, hc]⟩
  | actionDefinition => exact ⟨_, by rw [Construct.tag, rule, actionDefinition, hc]⟩
  | structDefinition => exact ⟨_, by rw [Construct.tag, rule, structDefinition, hc]⟩
  | typeMapperDefinition => exact ⟨_, by rw [Construct.tag, rule, typeMapperDefinition, hc]⟩
  | workerDeclaration => exact ⟨_, by rw [Construct.tag, rule, workerDeclaration, hc]⟩
  | _ => simp [hc, sectioned, Construct.tag] at h

/-- The sections of a definition are visited one after the other. -/
theorem visitsSections (h : s.construct.tag ∈ sectioned) : VisitsSections s := by
  obtain ⟨next, hrule⟩ := rule_eq_sections h
  constructor
  · intro q render owner tag f f' hs
    -- a script that succeeds has rejected nothing, and so it asks for all children
    have hclean := Writing.script_clean hs
    have hvisits := Writing.visits_script hs
    rw [(covers_rule s.construct.tag s).all hclean] at hvisits
    cases hsplit : Sections.split s.tag? s.children with
    | error fault =>
      rw [hrule, sections, hsplit] at hclean
      exact absurd hclean (not_clean_fail fault)
    | ok parts =>
      refine ⟨parts, rfl, ?_, hvisits⟩
      rwa [Sections.split_flatten hsplit]
  · intro fault hsplit q render owner tag f
    rw [hrule, sections, hsplit]
    rfl

end Grammar

/-- **Splitting the children of a definition loses nothing.** It succeeds exactly when no
child has a smaller rank than the one in front of it; the four sections then hold the
children of their ranks and are the list of children again, and otherwise the first child
that stands behind one of a larger rank is named. A definition that is written has visited
the sections one after the other, which is to visit each listed child once, in the order of
the list. -/
theorem sections_partition (s : Setting) :
    Sections.Partitioned s ∧ (s.construct.tag ∈ Grammar.sectioned → Grammar.VisitsSections s) :=
  ⟨Sections.partitioned s, Grammar.visitsSections⟩

/-- A function in a tree with an annotation and a parameter. -/
def functionOver (children : List NodeId) : Setting where
  ast := { nodes := #[
    { construct := .functionDefinition "f" .empty, children := children },
    { construct := .annotationUse none "a", parent := some ⟨0⟩ },
    { construct := .parameterDefinition "int" "n", parent := some ⟨0⟩ }] }
  options := {}
  id := ⟨0⟩
  node := { construct := .functionDefinition "f" .empty, children := children }

/-- A renderer that writes the name of a node and takes the node down. -/
def nameRenderer : Renderer := fun id indent p =>
  .ok (some ((Buffer.ofNode id indent "  ").print id.text))
    { p with visited := p.visited.push id }

/-- A parameter that is listed twice is visited twice, and a node that does not exist is
visited with the body. Behind them an annotation is out of order. -/
theorem sections_partition_functionOver :
    Sections.split (functionOver [⟨1⟩, ⟨2⟩, ⟨2⟩, ⟨7⟩]).tag? [⟨1⟩, ⟨2⟩, ⟨2⟩, ⟨7⟩] =
        .ok ⟨[⟨1⟩], [⟨2⟩, ⟨2⟩], [], [⟨7⟩]⟩ ∧
      (∃ f, Frame.Visits nameRenderer [⟨1⟩, ⟨2⟩, ⟨2⟩, ⟨7⟩] ⟨{}, .ofNode ⟨0⟩ 0 "  "⟩ f ∧
        f.progress.visited = #[⟨1⟩, ⟨2⟩, ⟨2⟩, ⟨7⟩]) ∧
      Sections.split (functionOver [⟨2⟩, ⟨7⟩, ⟨1⟩]).tag? [⟨2⟩, ⟨7⟩, ⟨1⟩] =
        .error (.outOfOrder (some .annotationUse) ⟨1⟩) := by
  obtain ⟨-, hvisits⟩ := sections_partition (functionOver [⟨1⟩, ⟨2⟩, ⟨2⟩, ⟨7⟩])
  obtain ⟨hpartitioned, -⟩ := sections_partition (functionOver [⟨2⟩, ⟨7⟩, ⟨1⟩])
  have hwritten : ∃ f, Writing.script ⟨(functionOver []).ast, .standard, {}⟩ nameRenderer ⟨0⟩
      .functionDefinition (Grammar.rule .functionDefinition (functionOver [⟨1⟩, ⟨2⟩, ⟨2⟩, ⟨7⟩]))
      ⟨{}, .ofNode ⟨0⟩ 0 "  "⟩ = .ok () f ∧ f.progress.visited = #[⟨1⟩, ⟨2⟩, ⟨2⟩, ⟨7⟩] :=
    ⟨_, rfl, rfl⟩
  obtain ⟨f, hwritten, hnoted⟩ := hwritten
  obtain ⟨_, _, _, hvisited⟩ := (hvisits (by decide)).visits hwritten
  exact ⟨rfl, ⟨f, hvisited, hnoted⟩,
    (hpartitioned.rejects _).mpr ⟨⟨1⟩, ⟨[⟨2⟩], ⟨7⟩, [], rfl, by decide, by decide⟩, rfl⟩⟩

end SourceScribe
