import Mathlib.Data.List.Basic
import SourceScribe.Proofs.Scripts
import SourceScribe.Proofs.Links
import SourceScribe.Traversal.Basic

/-!
# Steps of a traversal

A node is written by handing its children over to a renderer one after the
other. What a script does to the traversal is therefore a walk over the
children it asks for, each step of which is a call of the renderer; all else
that it does concerns its own buffer. A script that fails has walked over some
of these children, and then either the next call failed or the script itself
gave up.
-/

namespace SourceScribe

/-- A call of a renderer takes the traversal from one point to another. -/
def Renderer.Passes (render : Renderer) (id : NodeId) (p p' : Progress) : Prop :=
  ∃ indent result, render id indent p = .ok result p'

/-- A call of a renderer fails with an error at a point. -/
def Renderer.Fails (render : Renderer) (id : NodeId) (p : Progress) (e : GenerateError)
    (p' : Progress) : Prop :=
  ∃ indent, render id indent p = .error e p'

/-- A call of a renderer leaves its node out and takes the traversal from one
point to another. -/
def Renderer.Skips (render : Renderer) (id : NodeId) (p p' : Progress) : Prop :=
  ∃ indent, render id indent p = .ok none p'

/-- Calls for a list of nodes, one after the other, take the traversal from
one point to another. -/
inductive Renderer.Walk (render : Renderer) : List NodeId → Progress → Progress → Prop
  | nil (p : Progress) : Walk render [] p p
  | cons {id : NodeId} {ids : List NodeId} {p p₁ p₂ : Progress} :
    render.Passes id p p₁ → Walk render ids p₁ p₂ → Walk render (id :: ids) p p₂

namespace Renderer

variable {render : Renderer} {ids ids' : List NodeId} {p p₁ p₂ : Progress}

/-- Walks are put one behind the other. -/
theorem Walk.append (h : render.Walk ids p p₁) (h' : render.Walk ids' p₁ p₂) :
    render.Walk (ids ++ ids') p p₂ := by
  induction h with
  | nil p => exact h'
  | cons hs _ ih => exact Walk.cons hs (ih h')

/-- A single call is a walk. -/
theorem Passes.walk {id : NodeId} (h : render.Passes id p p₁) : render.Walk [id] p p₁ :=
  Walk.cons h (Walk.nil p₁)

/-- What every call keeps, a walk keeps. -/
theorem Walk.keeps {P : Progress → Prop} (h : render.Walk ids p p₁)
    (hkeep : ∀ id ∈ ids, ∀ p p', render.Passes id p p' → P p → P p') (hp : P p) : P p₁ := by
  induction h with
  | nil p => exact hp
  | cons hs _ ih =>
    refine ih (fun id hid => hkeep id (List.mem_cons_of_mem _ hid)) ?_
    exact hkeep _ List.mem_cons_self _ _ hs hp

end Renderer

/-- The errors that a node with a script raises itself: a piece of the script
rejects it, or a child that the script cannot do without has just been left
out. -/
inductive Request.Raises (q : Request) (render : Renderer) (owner : NodeId) (tag : Tag)
    (s : Script) (p : Progress) : GenerateError → Prop
  | rejects {fault : Fault} :
    .reject fault ∈ s → Raises q render owner tag s p (.malformed owner tag fault [])
  | leftOut {slot : String} {child : NodeId} {before : Progress} :
    .required slot child ∈ s → render.Skips child before p →
      Raises q render owner tag s p (q.alreadyGenerated p slot child)

/-- How writing the children of a node may fail: after a walk over some of them
the next call fails, or the node itself raises an error. -/
inductive Renderer.Stops (render : Renderer) (raises : Progress → GenerateError → Prop)
    (ids : List NodeId) (p : Progress) (e : GenerateError) (p' : Progress) : Prop
  | inside (before after : List NodeId) (id : NodeId) (p₁ : Progress) :
    ids = before ++ id :: after → render.Walk before p p₁ → render.Fails id p₁ e p' →
      Stops render raises ids p e p'
  | itself (before after : List NodeId) :
    ids = before ++ after → render.Walk before p p' → raises p' e →
      Stops render raises ids p e p'

namespace Renderer.Stops

variable {render : Renderer} {raises : Progress → GenerateError → Prop} {ids ids' : List NodeId}
  {p p₁ p' : Progress} {e : GenerateError}

/-- What stops among the first children stops among all. -/
theorem append_right (h : render.Stops raises ids p e p') (ids' : List NodeId) :
    render.Stops raises (ids ++ ids') p e p' := by
  cases h with
  | inside before after id p₁ heq hw hf =>
    exact .inside before (after ++ ids') id p₁ (by rw [heq]; simp) hw hf
  | itself before after heq hw hr =>
    exact .itself before (after ++ ids') (by rw [heq]; simp) hw hr

/-- What stops behind a walk stops among all. -/
theorem append_left (hw : render.Walk ids p p₁) (h : render.Stops raises ids' p₁ e p') :
    render.Stops raises (ids ++ ids') p e p' := by
  cases h with
  | inside before after id p₂ heq hw' hf =>
    exact .inside (ids ++ before) after id p₂ (by rw [heq]; simp) (hw.append hw') hf
  | itself before after heq hw' hr =>
    exact .itself (ids ++ before) after (by rw [heq]; simp) (hw.append hw') hr

end Renderer.Stops

/-- Writing asks for a list of children: when it succeeds it has walked over
them, and when it fails it was stopped among them. -/
structure Writing.Asks {α : Type} (w : Writing α) (render : Renderer)
    (raises : Progress → GenerateError → Prop) (ids : List NodeId) : Prop where
  /-- Success is a walk over the children. -/
  passes : ∀ {f f' : Frame} {a : α}, w f = .ok a f' → render.Walk ids f.progress f'.progress
  /-- Failure is a stop among the children. -/
  stops : ∀ {f f' : Frame} {e : GenerateError}, w f = .error e f' →
    render.Stops raises ids f.progress e f'.progress

namespace Writing

variable {q : Request} {render : Renderer} {raises : Progress → GenerateError → Prop}

/-- A required child is appended; if it was left out, the node fails. -/
theorem required_eq (slot : String) (id : NodeId) (f : Frame) :
    required q render slot id f = match render id f.buffer.indent f.progress with
      | .ok (some written) p => .ok () ⟨p, f.buffer.append written⟩
      | .ok none p => .error (q.alreadyGenerated p slot id) ⟨p, f.buffer⟩
      | .error e p => .error e ⟨p, f.buffer⟩ := by
  change EStateM.bind (EStateM.bind (child render id) _) _ f = _
  unfold EStateM.bind child
  rcases render id f.buffer.indent f.progress with ⟨_ | written, p⟩ | ⟨e, p⟩ <;> rfl

/-- The first child of a group is put in its place unless it was left out; then
come the others. -/
theorem groupFrom_cons (arrangement : Arrangement) (written : Nat) (previous : Option Tag)
    (id : NodeId) (rest : List NodeId) (f : Frame) :
    groupFrom q render arrangement written previous (id :: rest) f =
      match render id f.buffer.indent f.progress with
      | .ok (some child) p =>
        groupFrom q render arrangement (written + 1) (q.ast.tag? id) rest
          ⟨p, arrangement.place q.options.blankLineBetweenDefinitions written previous
            (q.ast.tag? id) child f.buffer⟩
      | .ok none p => groupFrom q render arrangement written previous rest ⟨p, f.buffer⟩
      | .error e p => .error e ⟨p, f.buffer⟩ := by
  change EStateM.bind (child render id) _ f = _
  unfold EStateM.bind child
  rcases render id f.buffer.indent f.progress with ⟨_ | child, p⟩ | ⟨e, p⟩ <;> rfl

/-- A group between braces is a group in a buffer that has been opened, and the
buffer is closed behind it. -/
theorem braced_eq (arrangement : Arrangement) (ids : List NodeId) (f : Frame) :
    braced q render arrangement ids f =
      match group q render arrangement ids ⟨f.progress, (f.buffer.println "\x7b").deeper⟩ with
      | .ok written f => .ok written ⟨f.progress, f.buffer.shallower.print "\x7d"⟩
      | .error e f => .error e f := by
  change EStateM.bind (group q render arrangement ids) _
    ⟨f.progress, (f.buffer.println "\x7b").deeper⟩ = _
  unfold EStateM.bind
  rcases group q render arrangement ids ⟨f.progress, (f.buffer.println "\x7b").deeper⟩ with
    ⟨written, f⟩ | ⟨e, f⟩ <;> rfl

/-- A script does its first piece and then the others. -/
theorem script_cons (owner : NodeId) (tag : Tag) (p : Piece) (rest : Script) (f : Frame) :
    script q render owner tag (p :: rest) f = match piece q render owner tag p f with
      | .ok () f => script q render owner tag rest f
      | .error e f => .error e f := by
  change EStateM.bind (piece q render owner tag p) _ f = _
  unfold EStateM.bind
  rcases piece q render owner tag p f with ⟨_, f⟩ | ⟨e, f⟩ <;> rfl

/-- What does not bring its result has been done. -/
theorem discard_eq_ok {α : Type} {w : Writing α} {f f' : Frame}
    (h : discard w f = .ok () f') : ∃ a, w f = .ok a f' := by
  change EStateM.map (fun _ => PUnit.unit) w f = _ at h
  unfold EStateM.map at h
  split at h
  next a f₁ hw =>
    cases h
    exact ⟨a, hw⟩
  next => cases h

/-- What does not bring its result fails as it would with it. -/
theorem discard_eq_error {α : Type} {w : Writing α} {f f' : Frame} {e : GenerateError}
    (h : discard w f = .error e f') : w f = .error e f' := by
  change EStateM.map (fun _ => PUnit.unit) w f = _ at h
  unfold EStateM.map at h
  split at h
  next => cases h
  next e₁ f₁ hw =>
    cases h
    exact hw

/-- Writing one thing after another asks for the children of both. -/
theorem Asks.bind {α β : Type} {w : Writing α} {next : α → Writing β} {ids ids' : List NodeId}
    (hw : Asks w render raises ids) (hn : ∀ a, Asks (next a) render raises ids') :
    Asks (w >>= next) render raises (ids ++ ids') := by
  constructor
  · intro f f' b h
    change EStateM.bind w next f = _ at h
    unfold EStateM.bind at h
    split at h
    next a f₁ h₁ => exact (hw.passes h₁).append ((hn a).passes h)
    next => cases h
  · intro f f' e h
    change EStateM.bind w next f = _ at h
    unfold EStateM.bind at h
    split at h
    next a f₁ h₁ => exact Renderer.Stops.append_left (hw.passes h₁) ((hn a).stops h)
    next e₁ f₁ h₁ =>
      cases h
      exact (hw.stops h₁).append_right ids'

/-- What follows may ask for nothing. -/
theorem Asks.andThen {α β : Type} {w : Writing α} {next : α → Writing β} {ids : List NodeId}
    (hw : Asks w render raises ids) (hn : ∀ a, Asks (next a) render raises []) :
    Asks (w >>= next) render raises ids := by
  have hb := hw.bind hn
  rwa [List.append_nil] at hb

/-- What stands in front may ask for nothing. -/
theorem Asks.before {α β : Type} {w : Writing α} {next : α → Writing β} {ids : List NodeId}
    (hw : Asks w render raises []) (hn : ∀ a, Asks (next a) render raises ids) :
    Asks (w >>= next) render raises ids := hw.bind hn

/-- Writing asks for the same children when its result is not used. -/
theorem Asks.discard {α : Type} {w : Writing α} {ids : List NodeId}
    (hw : Asks w render raises ids) : Asks (discard w) render raises ids where
  passes h := by
    obtain ⟨a, hdone⟩ := discard_eq_ok h
    exact hw.passes hdone
  stops h := hw.stops (discard_eq_error h)

/-- A result asks for nothing. -/
theorem asks_pure {α : Type} (a : α) : Asks (pure a) render raises [] where
  passes h := by
    cases h
    exact .nil _
  stops h := by cases h

/-- A change of the buffer asks for nothing. -/
theorem asks_onBuffer (change : Buffer → Buffer) : Asks (onBuffer change) render raises [] where
  passes h := by
    cases h
    exact .nil _
  stops h := by cases h

/-- A look at the traversal asks for nothing. -/
theorem asks_get : Asks (get : Writing Frame) render raises [] where
  passes h := by
    cases h
    exact .nil _
  stops h := by cases h

/-- A child asks for itself. -/
theorem asks_child (id : NodeId) : Asks (child render id) render raises [id] := by
  constructor
  · intro f f' a h
    unfold child at h
    split at h
    next result progress hr =>
      cases h
      exact Renderer.Passes.walk ⟨_, _, hr⟩
    next => cases h
  · intro f f' e h
    unfold child at h
    split at h
    next => cases h
    next e₁ progress hr =>
      cases h
      exact .inside [] [] id f.progress rfl (.nil _) ⟨_, hr⟩

/-- A child that is appended asks for itself. -/
theorem asks_emit (id : NodeId) : Asks (emit render id) render raises [id] := by
  refine (asks_child id).andThen fun result => ?_
  cases result with
  | none => exact asks_pure false
  | some written => exact (asks_onBuffer _).andThen fun _ => asks_pure true

/-- A required child asks for itself; the node raises an error when the child
was left out. -/
theorem asks_required (slot : String) (id : NodeId)
    (hraises : ∀ before p, render.Skips id before p → raises p (q.alreadyGenerated p slot id)) :
    Asks (required q render slot id) render raises [id] := by
  constructor
  · intro f f' a h
    rw [required_eq] at h
    split at h
    next written p hr =>
      cases h
      exact Renderer.Passes.walk ⟨_, _, hr⟩
    next => cases h
    next => cases h
  · intro f f' e h
    rw [required_eq] at h
    split at h
    next => cases h
    next p hr =>
      cases h
      exact .itself [id] [] rfl (Renderer.Passes.walk ⟨_, _, hr⟩) (hraises _ _ ⟨_, hr⟩)
    next e' p hr =>
      cases h
      exact .inside [] [] id f.progress rfl (.nil _) ⟨_, hr⟩

/-- A group asks for its children. -/
theorem asks_groupFrom (arrangement : Arrangement) (written : Nat) (previous : Option Tag)
    (ids : List NodeId) :
    Asks (groupFrom q render arrangement written previous ids) render raises ids := by
  induction ids generalizing written previous with
  | nil => exact asks_pure written
  | cons id rest ih =>
    refine (asks_child id).bind fun result => ?_
    cases result with
    | none => exact ih written previous
    | some buffer =>
      exact (asks_onBuffer _).before fun _ => ih _ _

/-- A group between braces asks for its children. -/
theorem asks_braced (arrangement : Arrangement) (ids : List NodeId) :
    Asks (braced q render arrangement ids) render raises ids := by
  refine (asks_onBuffer _).before fun _ => ?_
  refine (asks_onBuffer _).before fun _ => ?_
  refine (asks_groupFrom arrangement 0 none ids).andThen fun written => ?_
  refine (asks_onBuffer _).andThen fun _ => ?_
  exact (asks_onBuffer _).andThen fun _ => asks_pure written

/-- A piece of a script asks for its children. -/
theorem asks_piece {owner : NodeId} {tag : Tag} {s : Script} {p : Piece} (hp : p ∈ s) :
    Asks (piece q render owner tag p) render (q.Raises render owner tag s) p.calls := by
  unfold piece Piece.calls
  cases p with
  | text value => exact asks_onBuffer _
  | newline => exact asks_onBuffer _
  | required slot id => exact asks_required slot id fun _ _ hskip => .leftOut hp hskip
  | group arrangement ids => exact (asks_groupFrom arrangement 0 none ids).discard
  | braced arrangement ids => exact (asks_braced arrangement ids).discard
  | standing describe => exact asks_get.andThen fun _ => asks_onBuffer _
  | reject fault =>
    constructor
    · intro f f' a h
      cases h
    · intro f f' e h
      cases h
      exact .itself [] [] rfl (.nil _) (.rejects hp)

/-- Some pieces of a script ask for the children of these pieces. -/
theorem asks_pieces {owner : NodeId} {tag : Tag} {s some : Script} (hs : some ⊆ s) :
    Asks (script q render owner tag some) render (q.Raises render owner tag s)
      (Script.calls some) := by
  induction some with
  | nil => exact asks_pure ()
  | cons p rest ih =>
    rw [Script.calls_cons]
    rw [List.cons_subset] at hs
    exact (asks_piece hs.1).bind fun _ => ih hs.2

/-- A script asks for the children of its pieces. -/
theorem asks_script (owner : NodeId) (tag : Tag) (s : Script) :
    Asks (script q render owner tag s) render (q.Raises render owner tag s) (Script.calls s) :=
  asks_pieces (List.Subset.refl s)

/-- A script that succeeds is clean. -/
theorem script_clean {owner : NodeId} {tag : Tag} {s : Script} {f f' : Frame}
    (h : script q render owner tag s f = .ok () f') : Script.Clean s := by
  induction s generalizing f with
  | nil => exact Script.clean_nil
  | cons p rest ih =>
    change EStateM.bind (piece q render owner tag p) (fun _ => script q render owner tag rest) f =
      _ at h
    unfold EStateM.bind at h
    split at h
    next a f₁ h₁ =>
      refine Script.clean_cons.mpr ⟨?_, ih h⟩
      cases p with
      | reject fault => cases h₁
      | _ => rfl
    next => cases h

end Writing

namespace Request

variable {q : Request} {render : Renderer} {id : NodeId} {indent : Nat} {p p' : Progress}

/-- Why a node may not even be looked at. -/
inductive Refuses (q : Request) (first : Bool) (id : NodeId) (p : Progress) : GenerateError → Prop
  | unknown : q.ast.node? id = none → Refuses q first id p (.unknownNode id (q.pathOf p.path))
  | cycle : id ∈ p.path → Refuses q first id p (.cycleDetected id (q.pathOf (id :: p.path)))
  | depth (node : Node) : q.ast.node? id = some node → q.options.maxDepth ≤ p.path.length →
    Refuses q first id p (.depthExceeded id q.options.maxDepth (q.pathOf (id :: p.path)))
  | orphan (node : Node) : q.ast.node? id = some node → id ∉ p.path → first = false →
    node.parent = none →
    Refuses q first id p (.missingParent id node.tag (q.pathOf (id :: p.path)))
  | unsupported (tag : Tag) : q.registry.find? tag = none → Refuses q first id p (.unsupported tag)

/-- A node with its visitor that may be looked at. -/
structure Admits (q : Request) (first : Bool) (id : NodeId) (p : Progress) (node : Node)
    (visitor : Visitor) : Prop where
  /-- The node is there. -/
  found : q.ast.node? id = some node
  /-- The node is not being written. -/
  fresh : id ∉ p.path
  /-- The path may grow. -/
  shallow : p.path.length < q.options.maxDepth
  /-- Only the first node needs no parent link. -/
  linked : first = true ∨ node.parent.isSome = true
  /-- The kind has a visitor. -/
  supported : q.registry.find? node.tag = some visitor

/-- A node is refused, left out by its guard, or let in. -/
theorem gate_cases (q : Request) (first : Bool) (id : NodeId) (p : Progress) :
    (∃ e, q.Refuses first id p e ∧ q.gate first id p = .error e) ∨
      ∃ node visitor, q.Admits first id p node visitor ∧
        (visitor.guard.admits p.visited id = false ∧ q.gate first id p = .ok none ∨
          visitor.guard.admits p.visited id = true ∧
            q.gate first id p = .ok (some (node, visitor))) := by
  unfold gate
  cases hnode : q.ast.node? id with
  | none => exact .inl ⟨_, .unknown hnode, rfl⟩
  | some node =>
    dsimp only
    by_cases hpath : id ∈ p.path
    · rw [if_pos (List.contains_iff_mem.mpr hpath)]
      exact .inl ⟨_, .cycle hpath, rfl⟩
    rw [if_neg (by rwa [List.contains_iff_mem])]
    by_cases hdepth : q.options.maxDepth ≤ p.path.length
    · rw [if_pos hdepth]
      exact .inl ⟨_, .depth node hnode hdepth, rfl⟩
    rw [if_neg hdepth]
    by_cases horphan : (!first && node.parent.isNone) = true
    · rw [if_pos horphan]
      simp only [Bool.and_eq_true, Bool.not_eq_true', Option.isNone_iff_eq_none] at horphan
      exact .inl ⟨_, .orphan node hnode hpath horphan.1 horphan.2, rfl⟩
    rw [if_neg horphan]
    cases hvisitor : q.registry.find? node.tag with
    | none => exact .inl ⟨_, .unsupported _ hvisitor, rfl⟩
    | some visitor =>
      have hlinked : first = true ∨ node.parent.isSome = true := by
        cases first <;> cases hp : node.parent <;> simp_all
      refine .inr ⟨node, visitor, ⟨hnode, hpath, by omega, hlinked, hvisitor⟩, ?_⟩
      dsimp only
      cases hguard : visitor.guard.admits p.visited id with
      | true => exact .inr ⟨rfl, rfl⟩
      | false => exact .inl ⟨rfl, rfl⟩

/-- A node that is let in may be looked at. -/
theorem admits_of_gate {q : Request} {first : Bool} {id : NodeId} {p : Progress} {node : Node}
    {visitor : Visitor} (h : q.gate first id p = .ok (some (node, visitor))) :
    q.Admits first id p node visitor := by
  rcases q.gate_cases first id p with
    ⟨e, _, he⟩ | ⟨found, given, ha, ⟨_, hout⟩ | ⟨_, hin⟩⟩
  · rw [h] at he
    cases he
  · rw [h] at hout
    cases hout
  · rw [h] at hin
    cases hin
    exact ha

/-- A call refuses its node, leaves it out, or enters it. -/
theorem render_cases (q : Request) (limit : Nat) (first : Bool) (id : NodeId) (indent : Nat)
    (p : Progress) :
    (∃ e, q.Refuses first id p e ∧ q.render (limit + 1) first id indent p = .error e p) ∨
      ∃ node visitor, q.Admits first id p node visitor ∧
        (visitor.guard.admits p.visited id = false ∧
            q.render (limit + 1) first id indent p = .ok none p ∨
          visitor.guard.admits p.visited id = true ∧
            q.render (limit + 1) first id indent p =
              q.enter (q.render limit false) visitor id node indent p) := by
  unfold render
  rcases q.gate_cases first id p with
    ⟨e, hrefuses, he⟩ | ⟨node, visitor, ha, ⟨hg, hgate⟩ | ⟨hg, hgate⟩⟩
  · exact .inl ⟨e, hrefuses, by rw [he]⟩
  · exact .inr ⟨node, visitor, ha, .inl ⟨hg, by rw [hgate]⟩⟩
  · exact .inr ⟨node, visitor, ha, .inr ⟨hg, by rw [hgate]⟩⟩

/-- A traversal that succeeds has made a call for its first node that did. -/
theorem run_eq_ok {buffer : Buffer} (h : q.run id p = .ok buffer p') :
    ∃ result, q.render q.nesting true id 0 p = .ok result p' ∧
      buffer = result.getD (.ofNode id 0 q.options.indent) := by
  change EStateM.bind (q.render q.nesting true id 0) _ p = _ at h
  unfold EStateM.bind at h
  split at h
  next result p₁ hr =>
    cases h
    exact ⟨result, hr, rfl⟩
  next => cases h

/-- A traversal succeeds when the call for its first node does. -/
theorem run_of_render {buffer : Buffer}
    (h : q.render q.nesting true id 0 p = .ok (some buffer) p') : q.run id p = .ok buffer p' := by
  change EStateM.bind (q.render q.nesting true id 0) _ p = _
  unfold EStateM.bind
  rw [h]
  rfl

/-- A traversal fails as the call for its first node does. -/
theorem run_eq_error {e : GenerateError} :
    q.run id p = .error e p' ↔ q.render q.nesting true id 0 p = .error e p' := by
  change EStateM.bind (q.render q.nesting true id 0) _ p = _ ↔ _
  unfold EStateM.bind
  split
  next result p₁ hr =>
    rw [hr]
    constructor <;> rintro ⟨⟩
  next e₁ p₁ hr =>
    rw [hr]
    constructor <;> (rintro ⟨⟩; rfl)

/-- The nodes that a traversal has entered when it succeeds, in order. -/
def entered? (q : Request) (id : NodeId) : Option (List NodeId) :=
  match q.run id {} with
  | .ok _ p => some p.visited.toList
  | .error _ _ => none

/-- A traversal that has entered nodes has succeeded. -/
theorem exists_of_entered? {ids : List NodeId} (h : q.entered? id = some ids) :
    ∃ buffer p, q.run id {} = .ok buffer p ∧ p.visited.toList = ids := by
  unfold entered? at h
  split at h
  next buffer p hr => exact ⟨buffer, p, hr, Option.some.inj h⟩
  next => cases h

/-- The script of a node. -/
def scriptOf (q : Request) (visitor : Visitor) (id : NodeId) (node : Node) : Script :=
  visitor.rule ⟨q.ast, q.options, id, node⟩

/-- A node that is entered and written: its script was clean, and has walked
over the children it asks for. -/
theorem enter_eq_ok {visitor : Visitor} {node : Node} {result : Option Buffer}
    (h : q.enter render visitor id node indent p = .ok result p') :
    Script.Clean (q.scriptOf visitor id node) ∧ result.isSome = true ∧
      ∃ p₁, render.Walk (Script.calls (q.scriptOf visitor id node)) (p.enter id) p₁ ∧
        p' = p₁.leave := by
  unfold enter at h
  dsimp only at h
  split at h
  next f hf =>
    cases h
    exact ⟨Writing.script_clean hf, rfl, f.progress,
      (Writing.asks_script id node.tag _).passes hf, rfl⟩
  next => cases h

/-- A node whose script is written is entered and written. -/
theorem enter_of_script {visitor : Visitor} {node : Node} {f : Frame}
    (h : Writing.script q render id node.tag (q.scriptOf visitor id node)
      ⟨p.enter id, .ofNode id indent q.options.indent⟩ = .ok () f) :
    q.enter render visitor id node indent p = .ok (some f.buffer) f.progress.leave := by
  rw [scriptOf] at h
  simp only [enter, h]

/-- A node whose script fails is entered and fails. -/
theorem enter_of_script_error {visitor : Visitor} {node : Node} {e : GenerateError} {f : Frame}
    (h : Writing.script q render id node.tag (q.scriptOf visitor id node)
      ⟨p.enter id, .ofNode id indent q.options.indent⟩ = .error e f) :
    q.enter render visitor id node indent p =
      .error (e.within (q.pathOf f.progress.path)) f.progress.leave := by
  rw [scriptOf] at h
  simp only [enter, h]

/-- A node that is entered and fails: its script was stopped among the
children it asks for. -/
theorem enter_eq_error {visitor : Visitor} {node : Node} {e : GenerateError}
    (h : q.enter render visitor id node indent p = .error e p') :
    ∃ e' p₁, render.Stops (q.Raises render id node.tag (q.scriptOf visitor id node))
        (Script.calls (q.scriptOf visitor id node)) (p.enter id) e' p₁ ∧
      e = e'.within (q.pathOf p₁.path) ∧ p' = p₁.leave := by
  unfold enter at h
  dsimp only at h
  split at h
  next => cases h
  next e' f hf =>
    cases h
    exact ⟨e', f.progress, (Writing.asks_script id node.tag _).stops hf, rfl, rfl⟩

/-- A call leaves the path as it was, whether it succeeds or fails. -/
theorem render_path (q : Request) (limit : Nat) (first : Bool) (id : NodeId) (indent : Nat)
    (p : Progress) :
    (∀ {result p'}, q.render limit first id indent p = .ok result p' → p'.path = p.path) ∧
      ∀ {e p'}, q.render limit first id indent p = .error e p' → p'.path = p.path := by
  induction limit generalizing first id indent p with
  | zero =>
    constructor
    · rintro _ _ ⟨⟩
    · rintro _ _ ⟨⟩
      rfl
  | succ limit ih =>
    have hwalk : ∀ {ids p p'}, (q.render limit false).Walk ids p p' → p'.path = p.path := by
      intro ids p p' hw
      refine hw.keeps (P := fun p' => p'.path = p.path) ?_ rfl
      rintro id _ p₁ p₂ ⟨indent, result, hr⟩ hp
      rw [(ih false id indent p₁).1 hr, hp]
    rcases q.render_cases limit first id indent p with
      ⟨e, _, he⟩ | ⟨node, visitor, _, ⟨_, hskip⟩ | ⟨_, henter⟩⟩
    · rw [he]
      constructor
      · rintro _ _ ⟨⟩
      · rintro _ _ ⟨⟩
        rfl
    · rw [hskip]
      constructor
      · rintro _ _ ⟨⟩
        rfl
      · rintro _ _ ⟨⟩
    · rw [henter]
      constructor
      · intro result p' h
        obtain ⟨_, _, p₁, hw, rfl⟩ := enter_eq_ok h
        simp only [Progress.leave, hwalk hw, Progress.enter, List.tail_cons]
      · intro e p' h
        obtain ⟨e', p₁, hs, _, rfl⟩ := enter_eq_error h
        have hp : p₁.path = id :: p.path := by
          cases hs with
          | inside before after child p₂ _ hw hf =>
            obtain ⟨indent, hf⟩ := hf
            rw [(ih false child indent p₂).2 hf, hwalk hw]
            rfl
          | itself before after _ hw _ => exact hwalk hw
        simp only [Progress.leave, hp, List.tail_cons]

/-- A walk leaves the path as it was. -/
theorem walk_path {limit : Nat} {first : Bool} {ids : List NodeId}
    (h : (q.render limit first).Walk ids p p') : p'.path = p.path := by
  refine h.keeps (P := fun p' => p'.path = p.path) ?_ rfl
  rintro id _ p₁ p₂ ⟨indent, result, hr⟩ hp
  rw [(q.render_path limit first id indent p₁).1 hr, hp]

end Request

end SourceScribe
