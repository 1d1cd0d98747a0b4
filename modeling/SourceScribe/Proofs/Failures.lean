import SourceScribe.Generator
import SourceScribe.Proofs.Courses
import SourceScribe.Proofs.Moments

/-!
# How a traversal comes to fail

A traversal that fails has come to a moment at which a step failed, and after
that it only unwinds: it leaves one node after the other, and the innermost of
them fixes the path of the error if it had none. A step fails because a node is
refused, because the script of the innermost node rejects it, or because a child
that the node cannot do without was left out. At that moment the path is a simple
path along child links from the root, so the path that the error carries is the
way from the root to where it arose.
-/

namespace SourceScribe

namespace GenerateError

/-- An empty path fixes nothing. -/
@[simp]
theorem within_nil (e : GenerateError) : e.within [] = e := by
  unfold within
  split <;> rfl

/-- A path that has been fixed stays. -/
theorem within_of_path {e : GenerateError} (h : ∀ p ∈ e.path?, p ≠ [])
    (other : NodePath) : e.within other = e := by
  unfold within
  split
  all_goals first | rfl | exact absurd rfl (h [] rfl)

/-- The first path that is not empty is the one that is fixed. -/
theorem within_within (e : GenerateError) {path : NodePath} (h : path ≠ []) (other : NodePath) :
    (e.within path).within other = e.within path := by
  by_cases he : ∀ p ∈ e.path?, p ≠ []
  · rw [within_of_path he path, within_of_path he other]
  · push Not at he
    obtain ⟨p, hp, rfl⟩ := he
    refine within_of_path ?_ other
    cases e with
    | noRoot => cases hp
    | unsupported tag => cases hp
    | sourceMap error => cases hp
    | _ =>
      cases hp
      rintro p ⟨⟩
      exact h

end GenerateError

/-- A path as errors carry it: the nodes with their kinds, from a root on. -/
structure Ast.Route (ast : Ast) (root : NodeId) (path : NodePath) : Prop where
  /-- The path starts at the root. -/
  starts : ∀ entry ∈ path.head?, entry.1 = root
  /-- Every entry is listed under the one in front of it. -/
  linked : path.IsChain fun outer inner => ast.Links outer.1 inner.1
  /-- Every entry carries the kind of its node. -/
  tagged : ∀ entry ∈ path, ast.tag? entry.1 = some entry.2

namespace Request

variable {q : Request} {path : List NodeId} {id root : NodeId} {tag : Tag}

/-- The innermost node stands at the end. -/
theorem pathOf_cons (h : q.ast.tag? id = some tag) (path : List NodeId) :
    q.pathOf (id :: path) = q.pathOf path ++ [(id, tag)] := by
  simp [pathOf, h]

/-- The nodes of a path, the outermost first. -/
theorem map_fst_pathOf (h : ∀ id ∈ path, q.ast.has id = true) :
    (q.pathOf path).map Prod.fst = path.reverse := by
  induction path with
  | nil => rfl
  | cons id path ih =>
    obtain ⟨hid, hpath⟩ := List.forall_mem_cons.mp h
    obtain ⟨node, hnode⟩ := Ast.has_iff.mp hid
    rw [pathOf_cons (Ast.tag_of_node hnode), List.map_append, ih hpath, List.reverse_cons]
    rfl

/-- A path along child links from a root, as errors carry it. -/
theorem route_pathOf (h : ∀ id ∈ path, q.ast.has id = true)
    (hl : path.IsChain fun inner outer => q.ast.Links outer inner)
    (hroot : ∀ id ∈ path.getLast?, id = root) : q.ast.Route root (q.pathOf path) := by
  have hmap := map_fst_pathOf h
  constructor
  · intro entry hentry
    have hhead : entry.1 ∈ ((q.pathOf path).map Prod.fst).head? := by
      rw [List.head?_map, hentry]
      rfl
    rw [hmap, List.head?_reverse] at hhead
    exact hroot entry.1 hhead
  · rw [← List.isChain_map (R := q.ast.Links) Prod.fst, hmap, List.isChain_reverse]
    exact hl
  · intro entry hentry
    obtain ⟨id, -, hid⟩ := List.mem_filterMap.mp hentry
    obtain ⟨tag, htag, rfl⟩ := Option.map_eq_some_iff.mp hid
    exact htag

end Request

/-- What a modest node asks for is listed under it. -/
theorem Activation.Asks.links {ast : Ast} {a : Activation} {child : NodeId} (h : a.Asks child)
    (hm : a.Modest ast) : ast.Links a.id child := by
  cases h with
  | required slot tasks ht =>
    refine hm (.piece (.required slot child)) ?_ child (List.mem_singleton_self child)
    rw [ht]
    exact List.mem_cons_self
  | children arrangement written previous ids tasks ht =>
    refine hm (.children arrangement written previous (child :: ids)) ?_ child List.mem_cons_self
    rw [ht]
    exact List.mem_cons_self

/-- What is left of the script of a node that is being written. -/
def Activation.Scripted (q : Request) (a : Activation) : Prop :=
  ∃ node visitor, q.ast.node? a.id = some node ∧ q.registry.find? node.tag = some visitor ∧
    a.tag = node.tag ∧ ∀ p, .piece p ∈ a.tasks → p ∈ q.scriptOf visitor a.id node

namespace Activation.Scripted

variable {q : Request} {a a' : Activation}

/-- A node that comes on has less of its script left. -/
theorem does (h : a.Scripted q) {deeds : List Deed} (hd : a.Does deeds a') : a'.Scripted q := by
  obtain ⟨node, visitor, hnode, hvisitor, htag, hpieces⟩ := h
  rw [← hd.id] at hnode hpieces
  exact ⟨node, visitor, hnode, hvisitor, hd.tag.trans htag, fun p hp => hpieces p (hd.pieces p hp)⟩

end Activation.Scripted

/-- Where a moment of a traversal stands: all goes back to the root, and every
call to what a script asks for. -/
structure Moment.Based (q : Request) (root : NodeId) (m : Moment) : Prop where
  /-- The outermost node is the root. -/
  outermost : ∀ id ∈ m.path.getLast?, id = root
  /-- What is left to do comes from the scripts of the nodes. -/
  scripted : ∀ a ∈ m.stack, a.Scripted q
  /-- Only the root is the first node, and it is called for from outside. -/
  first : ∀ first id indent, m.control = .call first id indent →
    if m.stack = [] then first = true ∧ id = root else first = false
  /-- Any other node is called for because the innermost node asks for it. -/
  asked : ∀ first id indent, m.control = .call first id indent → ∀ a ∈ m.stack.head?, a.Asks id
  /-- A node that was left out is there. -/
  passed : m.control = .back none → ∀ a ∈ m.stack.head?, ∃ id, q.ast.has id = true ∧ a.Asks id

namespace Moment.Based

variable {q : Request} {root : NodeId} {m next : Moment} {log : List Event}

/-- The root is called for from outside. -/
theorem start (root : NodeId) (indent : Nat) (visited : Array NodeId) :
    Moment.Based q root ⟨.call true root indent, [], visited⟩ where
  outermost := by simp [path]
  scripted := by simp
  first := by
    rintro _ _ _ ⟨⟩
    exact ⟨rfl, rfl⟩
  asked := by simp
  passed := by simp

/-- Nodes that are being written stay, and nothing is called for. -/
theorem go_on {control : Control} {stack stack' : List Activation} {visited visited' : Array NodeId}
    (h : Moment.Based q root ⟨control, stack, visited⟩)
    (hids : (stack'.map Activation.id).getLast? = (stack.map Activation.id).getLast? ∨ stack' = [])
    (hs : ∀ a ∈ stack', a.Scripted q) {control' : Control}
    (hcall : ∀ first id indent, control' ≠ .call first id indent)
    (hback : control' = .back none → ∀ a ∈ stack'.head?, ∃ id, q.ast.has id = true ∧ a.Asks id) :
    Moment.Based q root ⟨control', stack', visited'⟩ where
  outermost := by
    rcases hids with hids | rfl
    · intro id hid
      exact h.outermost id (hids ▸ hid)
    · simp [path]
  scripted := hs
  first first id indent hc := absurd hc (hcall first id indent)
  asked first id indent hc := absurd hc (hcall first id indent)
  passed := hback

/-- The innermost node comes on by some deeds. -/
theorem does {control : Control} {a a' : Activation} {outer : List Activation}
    {visited : Array NodeId} (h : Moment.Based q root ⟨control, a :: outer, visited⟩)
    {deeds : List Deed} (hd : a.Does deeds a') :
    Moment.Based q root ⟨.work, a' :: outer, visited⟩ := by
  have hs := List.forall_mem_cons.mp h.scripted
  refine h.go_on (.inl ?_) (List.forall_mem_cons.mpr ⟨hs.1.does hd, hs.2⟩) (by simp) (by simp)
  rw [List.map_cons, List.map_cons, hd.id]

/-- The innermost node is left. -/
theorem pop {control control' : Control} {a : Activation} {outer : List Activation}
    {visited : Array NodeId} (h : Moment.Based q root ⟨control, a :: outer, visited⟩)
    (hcall : ∀ first id indent, control' ≠ .call first id indent) (hback : control' ≠ .back none) :
    Moment.Based q root ⟨control', outer, visited⟩ := by
  refine h.go_on ?_ (List.forall_mem_cons.mp h.scripted).2 hcall (fun hc => absurd hc hback)
  cases outer with
  | nil => exact .inr rfl
  | cons b outer => exact .inl rfl

/-- Every step keeps it. -/
theorem moves (h : m.Based q root) (hm : q.Moves m log next) : next.Based q root := by
  cases hm with
  | refuses _ => exact h.go_on (.inl rfl) h.scripted (by simp) (by simp)
  | @skips first id indent stack visited node visitor ha _ =>
    refine h.go_on (.inl rfl) h.scripted (by simp) fun _ a hhead => ?_
    exact ⟨id, Ast.has_iff.mpr ⟨node, ha.found⟩, h.asked first id indent rfl a hhead⟩
  | @opens first id indent stack visited node visitor ha _ =>
    refine ⟨?_, List.forall_mem_cons.mpr ⟨?_, h.scripted⟩, by simp, by simp, by simp⟩
    · cases stack with
      | nil =>
        rintro _ ⟨⟩
        exact (h.first first id indent rfl).2
      | cons b stack => exact h.outermost
    · refine ⟨node, visitor, ha.found, ha.supported, rfl, fun p hp => ?_⟩
      obtain ⟨piece, hpiece, heq⟩ := List.mem_map.mp hp
      cases heq
      exact hpiece
  | writes hd => exact h.does hd
  | asks hasks =>
    refine ⟨h.outermost, h.scripted, ?_, ?_, by simp⟩
    · rintro _ _ _ ⟨⟩
      rfl
    · rintro _ _ _ ⟨⟩ _ ⟨⟩
      exact hasks
  | finishes _ => exact h.pop (by simp) (by simp)
  | takes _ hd => exact h.does hd
  | passes _ hd => exact h.does hd
  | stays _ => exact h.go_on (.inl rfl) h.scripted (by simp) (by simp)
  | rejects _ => exact h.go_on (.inl rfl) h.scripted (by simp) (by simp)
  | misses _ _ => exact h.go_on (.inl rfl) h.scripted (by simp) (by simp)
  | unwinds => exact h.pop (by simp) (by simp)

/-- A traversal keeps it. -/
theorem leads (h : m.Based q root) (hl : q.Leads m next) : next.Based q root := by
  induction hl with
  | refl => exact h
  | tail _ hstep ih => exact ih.moves (Request.step_moves hstep)

end Moment.Based

namespace Request

open Relation (ReflTransGen)

variable {q : Request} {root : NodeId} {m next last : Moment} {e raised : GenerateError}

/-- Every moment of a traversal is orderly and goes back to the root. -/
theorem Leads.orderly_and_based {indent : Nat} {visited : Array NodeId} (hq : q.registry.Stock)
    (h : q.Leads ⟨.call true root indent, [], visited⟩ m) : m.Orderly q ∧ m.Based q root := by
  have hstart : Moment.Orderly q ⟨.call true root indent, [], visited⟩ :=
    ⟨Ast.Trail.nil, Nat.zero_le _, by simp, by simp [Moment.path]⟩
  exact ⟨hstart.leads hq h, (Moment.Based.start root indent visited).leads h⟩

/-- A node is entered under a node that lists it, which is reached from the root. -/
theorem Course.links_of_opened {log : List Event} (hq : q.registry.Stock) {outer child : NodeId}
    (h : q.Course (.start root #[]) log m) (ho : .opened (some outer) child ∈ log) :
    q.ast.Reaches root outer ∧ q.ast.Links outer child := by
  obtain ⟨before, after, hlog⟩ := List.append_of_mem ho
  obtain ⟨m', next, hc, hstep, hhead, hpath⟩ := h.step_of_opened hlog
  have hnext : q.Leads (.start root #[]) next := hc.leads.tail hstep
  obtain ⟨horderly, hbased⟩ := hnext.orderly_and_based hq
  have ht : q.ast.Trail next.path := horderly.trail
  have hroot : ∀ id ∈ next.path.getLast?, id = root := hbased.outermost
  cases hm : m'.path with
  | nil =>
    rw [hm] at hhead
    cases hhead
  | cons first rest =>
    rw [hm] at hhead hpath
    cases hhead
    rw [hpath] at ht hroot
    refine ⟨ht.reaches hroot outer ?_, ht.linked.rel⟩
    exact List.mem_cons_of_mem _ List.mem_cons_self

/-- A traversal has not failed yet, and fails with its next step. -/
structure Breaks (q : Request) (m next : Moment) (raised : GenerateError) : Prop where
  /-- One moment follows the other. -/
  step : q.step m = some next
  /-- The traversal has not failed before. -/
  sound : ∀ e, m.control ≠ .fail e
  /-- It has failed then. -/
  failed : next.control = .fail raised

/-- A traversal that has failed did so at some step. -/
theorem Leads.breaks (h : q.Leads m last) (hm : ∀ e, m.control ≠ .fail e)
    (hlast : last.control = .fail e) :
    ∃ before next raised, q.Leads m before ∧ q.Breaks before next raised ∧ q.Leads next last := by
  induction h generalizing e with
  | refl => exact absurd hlast (hm e)
  | @tail before last hl hstep ih =>
    by_cases hfail : ∃ e, before.control = .fail e
    · obtain ⟨e', he'⟩ := hfail
      obtain ⟨first, next, raised, hfirst, hbreaks, hrest⟩ := ih he'
      exact ⟨first, next, raised, hfirst, hbreaks, hrest.tail hstep⟩
    · push Not at hfail
      exact ⟨before, last, e, hl, ⟨hstep, hfail, hlast⟩, .refl⟩

/-- Unwinding fixes the path of an error at the innermost node, and no node
around it changes the path again. -/
theorem Leads.unwound (h : q.Leads m last) (hm : m.control = .fail raised)
    (hknown : ∀ id ∈ m.path, q.ast.has id = true) (hlast : last.control = .fail e)
    (hend : last.stack = []) : e = raised.within (q.pathOf m.path) := by
  induction h using ReflTransGen.head_induction_on generalizing raised with
  | refl =>
    have hpath : last.path = [] := by rw [Moment.path, hend, List.map_nil]
    rw [hm] at hlast
    cases hlast
    rw [hpath]
    exact (GenerateError.within_nil _).symm
  | @head m next hstep _ ih =>
    obtain ⟨control, stack, visited⟩ := m
    cases hm
    cases stack with
    | nil => cases hstep
    | cons a outer =>
      cases hstep
      have hmap := map_fst_pathOf hknown
      have hne : q.pathOf (a.id :: outer.map Activation.id) ≠ [] := by
        intro hnil
        change (q.pathOf (a.id :: outer.map Activation.id)).map Prod.fst = _ at hmap
        rw [hnil] at hmap
        simp [Moment.path] at hmap
      rw [ih rfl fun id hid => hknown id (List.mem_cons_of_mem _ hid)]
      exact GenerateError.within_within _ hne _

/-- Why the step after a moment fails. -/
inductive Causes (q : Request) (root : NodeId) (m : Moment) : GenerateError → Prop
  | refuses {first : Bool} {id : NodeId} {e : GenerateError} :
    (if m.path = [] then first = true ∧ id = root else first = false) →
    (∀ outer ∈ m.path.head?, q.ast.Links outer id) →
    q.Refuses first id m.progress e → Causes q root m e
  | rejects {id : NodeId} {rest : List NodeId} {node : Node} {visitor : Visitor} {fault : Fault} :
    m.path = id :: rest → q.ast.node? id = some node →
    q.registry.find? node.tag = some visitor → .reject fault ∈ q.scriptOf visitor id node →
    Causes q root m (.malformed id node.tag fault [])
  | misses {id : NodeId} {rest : List NodeId} {node : Node} {tag : Tag} {child : NodeId}
    (slot : String) :
    m.control = .back none → m.path = id :: rest → q.ast.node? id = some node →
    q.ast.Links id child → q.ast.tag? child = some tag →
    Causes q root m (.malformed id node.tag (.alreadyGenerated slot tag child) [])

/-- A child that was left out although its node cannot do without it makes the
node malformed. -/
theorem alreadyGenerated_eq {visited : Array NodeId} {id child : NodeId} {rest : List NodeId}
    {node : Node} {tag : Tag} (hnode : q.ast.node? id = some node)
    (hchild : q.ast.tag? child = some tag) (slot : String) :
    q.alreadyGenerated ⟨visited, id :: rest⟩ slot child =
      .malformed id node.tag (.alreadyGenerated slot tag child) [] := by
  simp [alreadyGenerated, Ast.tag_of_node hnode, hchild]

/-- A step fails for one of these causes, and the path stays. -/
theorem Breaks.causes (hm : m.Orderly q) (hb : m.Based q root) (h : q.Breaks m next raised) :
    q.Causes root m raised ∧ next.path = m.path := by
  have hmoves := step_moves h.step
  have hfailed := h.failed
  generalize q.events m = log at hmoves
  cases hmoves with
  | @refuses first id indent stack visited e hrefuses =>
    cases hfailed
    have hfirst := hb.first first id indent rfl
    refine ⟨.refuses ?_ (hm.called first id indent rfl) hrefuses, rfl⟩
    simpa only [Moment.path, List.map_eq_nil_iff] using hfirst
  | @rejects a outer visited fault hpiece =>
    cases hfailed
    obtain ⟨node, visitor, hnode, hvisitor, htag, hpieces⟩ := hb.scripted a List.mem_cons_self
    rw [htag]
    exact ⟨.rejects rfl hnode hvisitor (hpieces _ hpiece), rfl⟩
  | @misses a outer visited child slot hasks =>
    cases hfailed
    obtain ⟨node, visitor, hnode, -⟩ := hb.scripted a List.mem_cons_self
    obtain ⟨id, hid, hasks'⟩ := hb.passed rfl a rfl
    rw [hasks'.unique hasks] at hid
    obtain ⟨found, hfound⟩ := Ast.has_iff.mp hid
    have hlinks : q.ast.Links a.id child := hasks.links (hm.modest a List.mem_cons_self)
    rw [alreadyGenerated_eq hnode (Ast.tag_of_node hfound)]
    exact ⟨.misses slot rfl rfl hnode hlinks (Ast.tag_of_node hfound), rfl⟩
  | unwinds => exact absurd rfl (h.sound _)
  | _ => cases hfailed

/-- How a traversal failed: the step with which it did, why, and what the error has
become. -/
structure Failure (q : Request) (root : NodeId) (e : GenerateError) (m next : Moment)
    (raised : GenerateError) : Prop where
  /-- The traversal has come to the moment. -/
  leads : q.Leads (.start root #[]) m
  /-- The moment is orderly. -/
  orderly : m.Orderly q
  /-- The moment goes back to the root. -/
  based : m.Based q root
  /-- The traversal fails with its next step. -/
  breaks : q.Breaks m next raised
  /-- That has a cause. -/
  causes : q.Causes root m raised
  /-- The path stays. -/
  path : next.path = m.path
  /-- The path of the error is fixed there. -/
  fixed : e = raised.within (q.pathOf m.path)
  /-- From then on the path is fixed, or the innermost node fixes it as it is in the
  end. -/
  kept : ∀ m' e', q.Leads (.start root #[]) m' → m'.control = .fail e' →
    e = e'.within (q.pathOf m'.path)

/-- A traversal that fails did so at some step. -/
theorem exists_failure (hq : q.registry.Stock) {p : Progress} (h : q.run root {} = .error e p) :
    ∃ m next raised, q.Failure root e m next raised := by
  obtain ⟨last, hl, hend, hdelivers⟩ := q.run_delivered root #[]
  change last.Delivers q root (q.run root {}) at hdelivers
  rw [h] at hdelivers
  obtain ⟨-, rfl⟩ := hdelivers
  obtain ⟨m, next, raised, hm, hbreaks, hrest⟩ :=
    hl.breaks (e := e) (by simp [Moment.start]) rfl
  obtain ⟨horderly, hbased⟩ := hm.orderly_and_based hq
  have hknown {m : Moment} (hl : q.Leads (.start root #[]) m) :
      ∀ id ∈ m.path, q.ast.has id = true := (hl.orderly_and_based hq).1.trail.known
  have hnext : q.Leads (.start root #[]) next := hm.tail hbreaks.step
  obtain ⟨hcauses, hpath⟩ := hbreaks.causes horderly hbased
  have hfixed : e = raised.within (q.pathOf next.path) :=
    hrest.unwound hbreaks.failed (hknown hnext) rfl rfl
  rw [hpath] at hfixed
  refine ⟨m, next, raised, hm, horderly, hbased, hbreaks, hcauses, hpath, hfixed, ?_⟩
  intro m' e' hm' hfail
  have hlast : q.Leads m' _ := hm'.to_last hl hend
  exact hlast.unwound hfail (hknown hm') rfl rfl

end Request

namespace Generator

variable {g : Generator} {ast : Ast} {id : NodeId}

/-- What is rendered is the buffer which the traversal leaves. -/
theorem render_eq_ok {buffer : Buffer} : g.render ast id = .ok buffer ↔
    ∃ p, (⟨ast, g.registry, g.options⟩ : Request).run id {} = .ok buffer p := by
  unfold render
  dsimp only
  cases (⟨ast, g.registry, g.options⟩ : Request).run id {} <;> simp

/-- A text is that of the buffer which the traversal leaves. -/
theorem generateNode_eq_ok {text : String} : g.generateNode ast id = .ok text ↔
    ∃ buffer p, (⟨ast, g.registry, g.options⟩ : Request).run id {} = .ok buffer p ∧
      buffer.source = text := by
  unfold generateNode render
  dsimp only
  cases (⟨ast, g.registry, g.options⟩ : Request).run id {} with
  | ok buffer p => simp [bind, Except.bind, pure, Except.pure]
  | error e p => simp [bind, Except.bind]

/-- Generation fails as the traversal does. -/
theorem generateNode_eq_error {e : GenerateError} : g.generateNode ast id = .error e ↔
    ∃ p, (⟨ast, g.registry, g.options⟩ : Request).run id {} = .error e p := by
  unfold generateNode render
  dsimp only
  cases (⟨ast, g.registry, g.options⟩ : Request).run id {} with
  | ok buffer p => simp [bind, Except.bind, pure, Except.pure]
  | error e p => simp [bind, Except.bind]

end Generator

end SourceScribe
