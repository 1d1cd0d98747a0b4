import SourceScribe.Document.Codec
import SourceScribe.Proofs.Diagnostics
import SourceScribe.Proofs.Json.Saving
import SourceScribe.Proofs.Naturality
import SourceScribe.Proofs.Numbered
import SourceScribe.Proofs.Blocks
import SourceScribe.Proofs.Places

/-!
# What loaded documents can fail with

A document of the arena shape is accepted when every node declares its place and
all links stay inside the document; otherwise the first node that does not is
blamed. So generation from a loaded document never meets a node that does not
exist. The graph of a document of the tree shape is a tree besides: a node is
asked for once and by one node only, so no child is ever left out, no node is met
again on the path, and all have parent links. What remains is that the tree is
too deep, or that a node is rejected for what it is itself.
-/

namespace SourceScribe

open Relation (ReflTransGen TransGen)

section Arenas

/-- A node of a document of the given size is in order at an index. -/
structure ArenaNode.InPlace (size index : Nat) (n : ArenaNode) : Prop where
  /-- The node declares its place. -/
  id : n.id.index = index
  /-- Its children and its parent are in range. -/
  links : ∀ id ∈ n.links, id.index < size

/-- The error for a node that is not in order: it declares another place, or links
to a node that does not exist, the first such link being named. -/
inductive ArenaNode.Blamed (size index : Nat) (n : ArenaNode) : DocumentError → Prop
  | identity : n.id.index ≠ index → Blamed size index n (.idMismatch index n.id)
  | link {before after : List NodeId} {target : NodeId} :
    n.id.index = index → n.links = before ++ target :: after →
    (∀ id ∈ before, id.index < size) → size ≤ target.index →
    Blamed size index n (.danglingReference n.id target)

namespace ArenaDocument

/-- All nodes of a document are in order, and the root is in range. -/
structure Accepted (d : ArenaDocument) : Prop where
  /-- The nodes are in order. -/
  nodes : ∀ (i : Nat) (n : ArenaNode), d.nodes[i]? = some n → n.InPlace d.nodes.length i
  /-- The root is in range. -/
  root : d.root.index < d.nodes.length

/-- The error for a document that is not accepted: it is about the first node that
is not in order, or about the root if all nodes are. -/
inductive Refused (d : ArenaDocument) : DocumentError → Prop
  | node {i : Nat} {n : ArenaNode} {e : DocumentError} : d.nodes[i]? = some n →
    (∀ j < i, ∀ m : ArenaNode, d.nodes[j]? = some m → m.InPlace d.nodes.length j) →
    n.Blamed d.nodes.length i e → Refused d e
  | root : (∀ (i : Nat) (n : ArenaNode), d.nodes[i]? = some n → n.InPlace d.nodes.length i) →
    d.nodes.length ≤ d.root.index → Refused d (.missingRoot d.root)

/-- The graph of a document, with its links as given. -/
def graph (d : ArenaDocument) : Ast :=
  { nodes := (d.nodes.map ArenaNode.toNode).toArray, root := some d.root, file := d.file }

/-- Nodes are all in order, or the first that is not is blamed. -/
theorem checkFrom_cases (size index : Nat) (nodes : List ArenaNode) :
    (checkFrom size index nodes = .ok () ∧
        ∀ (i : Nat) (n : ArenaNode), nodes[i]? = some n → n.InPlace size (index + i)) ∨
      ∃ (i : Nat) (n : ArenaNode) (e : DocumentError), nodes[i]? = some n ∧
        (∀ j < i, ∀ m : ArenaNode, nodes[j]? = some m → m.InPlace size (index + j)) ∧
        n.Blamed size (index + i) e ∧ checkFrom size index nodes = .error e := by
  induction nodes generalizing index with
  | nil => exact .inl ⟨rfl, by simp⟩
  | cons n nodes ih =>
    by_cases hid : n.id.index = index
    · cases hfind : n.links.find? fun id => decide (size ≤ id.index) with
      | some target =>
        obtain ⟨hbad, before, after, hlinks, hgood⟩ := List.find?_eq_some_iff_append.mp hfind
        refine .inr ⟨0, n, _, rfl, by simp, .link hid hlinks ?_ (of_decide_eq_true hbad), ?_⟩
        · intro id hm
          simpa using hgood id hm
        · simp [checkFrom, hid, hfind]
      | none =>
        have hin : n.InPlace size index := by
          refine ⟨hid, fun id hm => ?_⟩
          have h := List.find?_eq_none.mp hfind id hm
          simpa using h
        have hcheck : checkFrom size index (n :: nodes) = checkFrom size (index + 1) nodes := by
          simp [checkFrom, hid, hfind]
        have hshift (i : Nat) : index + 1 + i = index + (i + 1) := by omega
        rw [hcheck]
        rcases ih (index + 1) with ⟨hok, hall⟩ | ⟨i, m, e, hm, hall, hblamed, herror⟩
        · refine .inl ⟨hok, fun i m hm => ?_⟩
          cases i with
          | zero =>
            cases hm
            exact hin
          | succ i => exact hshift i ▸ hall i m hm
        · refine .inr ⟨i + 1, m, e, hm, fun j hj m hm => ?_, hshift i ▸ hblamed, herror⟩
          cases j with
          | zero =>
            cases hm
            exact hin
          | succ j => exact hshift j ▸ hall j (Nat.lt_of_succ_lt_succ hj) m hm
    · exact .inr ⟨0, n, _, rfl, by simp, .identity hid, by simp [checkFrom, hid]⟩

/-- A document is accepted and becomes its graph, or it is refused. -/
theorem toAst_cases (d : ArenaDocument) :
    d.Accepted ∧ d.toAst = .ok d.graph ∨ ∃ e, d.Refused e ∧ d.toAst = .error e := by
  unfold toAst
  rcases checkFrom_cases d.nodes.length 0 d.nodes with
    ⟨hok, hall⟩ | ⟨i, n, e, hn, hall, hblamed, herror⟩
  · simp only [Nat.zero_add] at hall
    simp only [hok, bind, Except.bind]
    split
    next hroot => exact .inl ⟨⟨hall, hroot⟩, rfl⟩
    next hroot => exact .inr ⟨_, .root hall (Nat.le_of_not_lt hroot), rfl⟩
  · simp only [Nat.zero_add] at hall hblamed
    simp only [herror, bind, Except.bind]
    exact .inr ⟨e, .node hn hall hblamed, rfl⟩

/-- What is refused is not accepted. -/
theorem Refused.not_accepted {d : ArenaDocument} {e : DocumentError} (h : d.Refused e) :
    ¬d.Accepted := by
  intro ha
  cases h with
  | node hn _ hblamed =>
    obtain ⟨hid, hlinks⟩ := ha.nodes _ _ hn
    cases hblamed with
    | identity hne => exact hne hid
    | link _ heq _ hle =>
      have hlt := hlinks _ (heq ▸ List.mem_append_right _ List.mem_cons_self)
      omega
  | root _ hle => exact absurd ha.root (Nat.not_lt_of_le hle)

/-- A document becomes its graph exactly when it is accepted. -/
theorem toAst_eq_ok {d : ArenaDocument} {ast : Ast} :
    d.toAst = .ok ast ↔ d.Accepted ∧ ast = d.graph := by
  rcases d.toAst_cases with ⟨ha, hok⟩ | ⟨e, hrefused, herror⟩
  · rw [hok, Except.ok.injEq]
    exact ⟨fun h => ⟨ha, h.symm⟩, fun h => h.2.symm⟩
  · rw [herror]
    refine ⟨fun h => ?_, fun h => absurd h.1 hrefused.not_accepted⟩
    cases h

/-- A document that becomes no graph is refused. -/
theorem refused_of_toAst {d : ArenaDocument} {e : DocumentError} (h : d.toAst = .error e) :
    d.Refused e := by
  rcases d.toAst_cases with ⟨-, hok⟩ | ⟨e', hrefused, herror⟩
  · rw [hok] at h
    cases h
  · rw [herror] at h
    cases h
    exact hrefused

end ArenaDocument

/-- The links and the root of a graph stay inside it. -/
structure Ast.Closed (ast : Ast) (root : NodeId) : Prop where
  /-- It is the root. -/
  isRoot : ast.root = some root
  /-- The root is there. -/
  known : ast.has root = true
  /-- Children are there. -/
  links : ∀ parent child, ast.Links parent child → ast.has child = true

/-- The graph of an accepted document is closed. -/
theorem ArenaDocument.Accepted.closed {d : ArenaDocument} (h : d.Accepted) :
    d.graph.Closed d.root where
  isRoot := rfl
  known := by simpa [graph, Ast.has, Ast.size] using h.root
  links := by
    intro parent child hl
    cases hnode : d.graph.node? parent with
    | none =>
      rw [Ast.Links, Ast.children, hnode] at hl
      cases hl
    | some node =>
      rw [Ast.Links, Ast.children_of_node hnode] at hl
      simp only [graph, Ast.node?, List.getElem?_toArray, List.getElem?_map,
        Option.map_eq_some_iff] at hnode
      obtain ⟨n, hn, rfl⟩ := hnode
      have hlt := (h.nodes _ _ hn).links child (List.mem_append_left _ hl)
      simpa [graph, Ast.has, Ast.size] using hlt

/-- The graph of a document is closed. -/
theorem Document.closed {d : Document} {ast : Ast} (h : d.toAst = .ok ast) :
    ∃ root, ast.Closed root := by
  cases d with
  | arena d =>
    obtain ⟨ha, rfl⟩ := ArenaDocument.toAst_eq_ok.mp h
    exact ⟨d.root, ha.closed⟩
  | tree d =>
    cases h
    obtain ⟨hknown, hlinks⟩ := d.grown_toAst
    exact ⟨⟨0⟩, d.root_toAst, hknown, hlinks⟩

end Arenas

/-- An error without its path. -/
def GenerateError.bare : GenerateError → GenerateError
  | .unknownNode node _ => .unknownNode node []
  | .missingParent node tag _ => .missingParent node tag []
  | .malformed node tag fault _ => .malformed node tag fault []
  | .cycleDetected node _ => .cycleDetected node []
  | .depthExceeded node limit _ => .depthExceeded node limit []
  | e => e

/-- To fix the path of an error leaves all else. -/
theorem GenerateError.bare_within (e : GenerateError) (path : NodePath) :
    (e.within path).bare = e.bare := by
  unfold within
  split <;> rfl

/-- A failure that has nothing to do with how the nodes are linked: the path is too
long, or the rule of a node rejects it. -/
inductive GenerateError.Local (ast : Ast) (options : Options) : GenerateError → Prop
  | deep (node : NodeId) (path : NodePath) :
    Local ast options (.depthExceeded node options.maxDepth path)
  | own {id : NodeId} {node : Node} {fault : Fault} (path : NodePath) :
    ast.node? id = some node → .reject fault ∈ Grammar.rule node.tag ⟨ast, options, id, node⟩ →
    fault.isOwn = true → Local ast options (.malformed id node.tag fault path)

namespace GenerateError

variable {ast : Ast} {options : Options} {e : GenerateError}

/-- Whether a failure is one of a node itself does not depend on the path. -/
theorem Local.of_bare {raised : GenerateError} (h : Local ast options raised)
    (hbare : e.bare = raised.bare) : Local ast options e := by
  cases h with
  | deep node path =>
    cases e with
    | depthExceeded node' limit path' =>
      cases hbare
      exact .deep node path'
    | _ => cases hbare
  | own path hnode hfault hown =>
    cases e with
    | malformed id tag fault path' =>
      cases hbare
      exact .own path' hnode hfault hown
    | _ => cases hbare

end GenerateError

namespace Request

open Event

variable {q : Request} {ast : Ast} {options : Options} {root : NodeId} {log : List Event}
  {m next : Moment} {e raised : GenerateError}

/-- The error differs from the one that was raised in its path only. -/
theorem Failure.bare_eq (h : q.Failure root e m next raised) : e.bare = raised.bare := by
  rw [h.fixed, GenerateError.bare_within]

/-- A traversal never fails for want of a root. -/
theorem Failure.ne_noRoot (h : q.Failure root e m next raised) : e ≠ .noRoot := by
  rintro rfl
  have hbare := h.bare_eq
  cases h.causes with
  | refuses _ _ hrefuses => cases hrefuses <;> cases hbare
  | rejects _ _ _ _ => cases hbare
  | misses _ _ _ _ _ _ => cases hbare

/-- Where the first node and all children are there, no node is unknown. -/
theorem Failure.ne_unknown (h : q.Failure root e m next raised) (hknown : q.ast.has root = true)
    (hlinks : ∀ parent child, q.ast.Links parent child → q.ast.has child = true)
    (node : NodeId) (path : NodePath) : e ≠ .unknownNode node path := by
  rintro rfl
  obtain ⟨hnone, hroot, hlast⟩ := h.fits.1
  have hunknown : q.ast.has node ≠ true := by
    intro hhas
    obtain ⟨found, hfound⟩ := Ast.has_iff.mp hhas
    rw [hnone] at hfound
    cases hfound
  cases hpath : path.getLast? with
  | none => exact hunknown (hroot (List.getLast?_eq_none_iff.mp hpath) ▸ hknown)
  | some last => exact hunknown (hlinks _ _ (hlast last hpath))

/-- In a closed graph no node is unknown. -/
theorem Failure.ne_unknownNode (h : q.Failure root e m next raised) (hc : q.ast.Closed root) :
    ∀ node path, e ≠ .unknownNode node path := h.ne_unknown hc.known hc.links

/-- In a tree a node that is entered is entered under the node that lists it. -/
theorem Course.opened_under (ht : ast.TreeShaped root)
    (h : (standard ast options).Course (.start root #[]) log m) {parent child : NodeId}
    (hr : ast.Reaches root parent) (hl : ast.Links parent child) (hentered : child ∈ entered log) :
    .opened (some parent) child ∈ log := by
  obtain ⟨opener, hopened⟩ := mem_entered.mp hentered
  cases opener with
  | none => exact absurd (h.rooted.entered child hopened) (ht.ne_root hr hl)
  | some opener =>
    obtain ⟨hopener, hl'⟩ := h.links_of_opened Registry.stock_standard hopened
    rwa [ht.parent_unique hopener hr hl' hl] at hopened

/-- In a tree no child is left out: a node asks for each child once, and no other
node asks for it. -/
theorem Course.not_passed (ht : ast.TreeShaped root) {a : Activation} {outer : List Activation}
    {visited : Array NodeId}
    (h : (standard ast options).Course (.start root #[]) log ⟨.back none, a :: outer, visited⟩) :
    False := by
  obtain ⟨horderly, hbased⟩ := h.leads.orderly_and_based Registry.stock_standard
  have haccounted := h.accounted (standard_entersOnce ast options)
  obtain ⟨⟨⟨deeds, haccount⟩, -⟩, hentered⟩ := haccounted.stands
  obtain ⟨child, hchild, hasks⟩ := hentered a rfl
  have hreached : ast.Reaches root a.id :=
    horderly.trail.reaches hbased.outermost a.id List.mem_cons_self
  have hlinks : ast.Links a.id child := hasks.links (horderly.modest a List.mem_cons_self)
  -- The child was entered under the same node before, and so was asked for then.
  have hadopted : child ∈ adopted a.id log :=
    mem_adopted.mpr (h.opened_under ht hreached hlinks hchild)
  have hbefore : child ∈ Deed.children deeds := by
    rw [haccount.children, Option.toList_none, List.append_nil] at hadopted
    obtain ⟨written, hwritten⟩ := Deed.mem_placedChildren.mp hadopted
    exact List.mem_filterMap.mpr ⟨_, hwritten, rfl⟩
  have hafter : child ∈ a.calls := by
    cases hasks with
    | required slot tasks htasks => simp [Activation.calls, htasks, Task.calls]
    | children arrangement written previous ids tasks htasks =>
      simp [Activation.calls, htasks, Task.calls]
  obtain ⟨node, visitor, hnode, hvisitor, hcalls, -⟩ := haccount.script
  cases hvisitor
  have honly :
      (Script.calls ((standard ast options).scriptOf (.standard node.tag) a.id node)).Sublist
        node.children := (Grammar.covers_rule node.tag _).only
  have hlisted : ast.children a.id = node.children := Ast.children_of_node hnode
  have hnodup : (ast.children a.id).Nodup := ht.nodup_children hreached
  rw [hlisted] at hnodup
  rw [hcalls] at honly
  exact (List.nodup_append.mp (hnodup.sublist honly)).2.2 child hbefore child hafter rfl

/-- In a tree a traversal fails for a reason of some node itself. -/
theorem Failure.local (ht : ast.TreeShaped root)
    (h : (standard ast options).Failure root e m next raised) : e.Local ast options := by
  have htrail : ast.Trail m.path := h.orderly.trail
  have hreached := htrail.reaches h.based.outermost
  have hlocal : raised.Local ast options := by
    cases h.causes with
    | @refuses first id _ hfirst hlinks hrefuses =>
      -- What is called for is the root, or listed under the innermost node.
      have hid : ast.Reaches root id := by
        cases hpath : m.path with
        | nil =>
          rw [if_pos hpath] at hfirst
          rw [hfirst.2]
          exact .refl
        | cons outer rest =>
          have houter : outer ∈ m.path := hpath ▸ List.mem_cons_self
          exact (hreached outer houter).tail (hlinks outer (by rw [hpath]; rfl))
      cases hrefuses with
      | unknown hnone =>
        obtain ⟨found, hfound⟩ := Ast.has_iff.mp (ht.known id hid)
        exact absurd (hfound.symm.trans hnone) (by simp)
      | cycle hm => exact absurd (htrail.closes hm hlinks) (ht.acyclic hid)
      | depth node hnode _ => exact .deep id _
      | orphan node hnode hfresh hinner horphan =>
        have hne : id ≠ root := by
          rintro rfl
          cases hpath : m.path with
          | nil =>
            rw [if_pos hpath] at hfirst
            rw [hfirst.1] at hinner
            cases hinner
          | cons outer rest =>
            have houter : outer ∈ m.path := hpath ▸ List.mem_cons_self
            exact ht.rootless outer (hreached outer houter) (hlinks outer (by rw [hpath]; rfl))
        obtain ⟨found, hfound, hparent⟩ := ht.attached id hid hne
        rw [Option.some.inj (hfound.symm.trans hnode), horphan] at hparent
        cases hparent
      | unsupported tag hnone => cases hnone
    | rejects _ hnode hvisitor hfault =>
      cases hvisitor
      exact .own [] hnode hfault (Grammar.plain_rule _ _ _ hfault)
    | misses slot hback hpath _ _ _ =>
      obtain ⟨log, hcourse⟩ := exists_course h.leads
      obtain ⟨control, stack, visited⟩ := m
      cases hback
      cases stack with
      | nil => cases hpath
      | cons a outer => exact absurd hcourse fun hc => hc.not_passed ht
  exact hlocal.of_bare h.bare_eq

end Request

namespace Generator

variable {ast : Ast} {options : Options} {root : NodeId} {e : GenerateError}

/-- What generation fails with, the traversal of the root fails with, whether a map is
asked for or not, unless the map is refused. -/
theorem run_of_generate (hroot : ast.root = some root)
    (h : (⟨.standard, options⟩ : Generator).generate ast = .error e ∨
      ∃ file, (⟨.standard, options⟩ : Generator).generateWithMap ast file = .error e)
    (hmap : ∀ refusal, e ≠ .sourceMap refusal) :
    ∃ p, (Request.standard ast options).run root {} = .error e p := by
  have hnode : (⟨.standard, options⟩ : Generator).generateNode ast root = .error e := by
    rcases h with h | ⟨file, h⟩
    · simpa only [generate, rootOf, hroot, bind, Except.bind] using h
    · rcases generateWithMap_eq_error hroot h with he | ⟨refusal, rfl⟩
      · simp only [generateNode, he, bind, Except.bind]
      · exact absurd rfl (hmap refusal)
  exact generateNode_eq_error.mp hnode

end Generator

/-- **What loaded documents fail with.** A document of the arena shape that is
parsed is loaded, with its links as given, exactly when it is accepted; otherwise
the error is about the first node that is not in order, or about the root.
Generation from a loaded document never fails for want of a root or of a node. If
the document had the tree shape and no more nodes than there are identities, it
fails only because the tree is too deep or because a node is rejected for what it is
itself; a map may be refused besides, but only where a line is not narrow. -/
theorem Document.load_generates :
    (∀ text d, parse text = .ok (.arena d) →
      (∀ ast, load text = .ok ast ↔ d.Accepted ∧ ast = d.graph) ∧
      ∀ e, load text = .error e → d.Refused e) ∧
    (∀ text ast, load text = .ok ast → ∀ options e,
      ((⟨.standard, options⟩ : Generator).generate ast = .error e ∨
        ∃ file, (⟨.standard, options⟩ : Generator).generateWithMap ast file = .error e) →
      e ≠ .noRoot ∧ ∀ node path, e ≠ .unknownNode node path) ∧
    ∀ text ast d, load text = .ok ast → parse text = .ok (.tree d) → d.root.count ≤ 2 ^ 32 →
      ∀ options e,
        ((⟨.standard, options⟩ : Generator).generate ast = .error e → e.Local ast options) ∧
        ∀ file, (⟨.standard, options⟩ : Generator).generateWithMap ast file = .error e →
          e.Local ast options ∨ (∃ refusal, e = .sourceMap refusal) ∧
            ¬(⟨.standard, options⟩ : Generator).WritesNarrow ast := by
  refine ⟨fun text d hparse => ?_, fun text ast hload options e he => ?_,
    fun text ast d hload hparse hcount options e => ?_⟩
  · have hload : load text = d.toAst := by
      simp only [load, hparse, toAst]
    rw [hload]
    exact ⟨fun ast => ArenaDocument.toAst_eq_ok, fun e he => ArenaDocument.refused_of_toAst he⟩
  · unfold load at hload
    split at hload
    next doc _ =>
      obtain ⟨root, hclosed⟩ := Document.closed hload
      by_cases hmap : ∃ refusal, e = .sourceMap refusal
      · obtain ⟨refusal, rfl⟩ := hmap
        exact ⟨by rintro ⟨⟩, by rintro node path ⟨⟩⟩
      · obtain ⟨p, hrun⟩ := Generator.run_of_generate hclosed.isRoot he fun refusal heq =>
          hmap ⟨refusal, heq⟩
        obtain ⟨m, next, raised, hfailure⟩ := Request.exists_failure Registry.stock_standard hrun
        exact ⟨hfailure.ne_noRoot, hfailure.ne_unknownNode hclosed⟩
    next => cases hload
  · have htoAst : ast = d.toAst := by
      simp only [load, hparse, toAst] at hload
      exact (Except.ok.inj hload).symm
    subst htoAst
    have hlocal (he : (⟨.standard, options⟩ : Generator).generate d.toAst = .error e ∨
        ∃ file, (⟨.standard, options⟩ : Generator).generateWithMap d.toAst file = .error e)
        (hmap : ∀ refusal, e ≠ .sourceMap refusal) : e.Local d.toAst options := by
      obtain ⟨p, hrun⟩ := Generator.run_of_generate d.root_toAst he hmap
      obtain ⟨m, next, raised, hfailure⟩ := Request.exists_failure Registry.stock_standard hrun
      exact hfailure.local (TreeDocument.treeShaped_toAst hcount)
    constructor
    · intro he
      refine hlocal (.inl he) ?_
      rintro refusal rfl
      exact Generator.generate_ne_sourceMap _ _ refusal he
    · intro file he
      by_cases hmap : ∃ refusal, e = .sourceMap refusal
      · obtain ⟨refusal, rfl⟩ := hmap
        exact .inr ⟨⟨refusal, rfl⟩, fun hnarrow => hnarrow.ne_sourceMap file refusal he⟩
      · exact .inl (hlocal (.inr ⟨file, he⟩) fun refusal heq => hmap ⟨refusal, heq⟩)

/-- A document whose second node links to a parent that does not exist. -/
def strayDocument : ArenaDocument where
  root := ⟨0⟩
  nodes := [⟨⟨0⟩, .compilationUnit, [⟨1⟩], none, none⟩, ⟨⟨1⟩, .breakStatement, [], some ⟨5⟩, none⟩]

/-- The text of the document. -/
def strayText : String := (Document.arena strayDocument).toValue.compact

/-- The document is parsed. -/
theorem parse_strayText : Document.parse strayText = .ok (.arena strayDocument) := by
  have hfits : strayDocument.Fits := by
    have hfirst : NodeId.Fits ⟨0⟩ := by simp [NodeId.Fits]
    have hsecond : NodeId.Fits ⟨1⟩ := by simp [NodeId.Fits]
    have hmissing : NodeId.Fits ⟨5⟩ := by simp [NodeId.Fits]
    refine ⟨hfirst, ?_⟩
    rw [strayDocument, List.forall_mem_cons, List.forall_mem_singleton]
    exact ⟨⟨hfirst, by simpa using hsecond, by simp, by simp⟩,
      ⟨hsecond, by simp, by simpa using hmissing, by simp⟩⟩
  exact Document.Fits.parse_compact hfits

/-- The node with the missing parent is blamed. The nested document is loaded, and with
a depth of one its second node is too deep. -/
theorem Document.load_generates_strayText :
    (load strayText = .error (.danglingReference ⟨1⟩ ⟨5⟩) ∧
      strayDocument.Refused (.danglingReference ⟨1⟩ ⟨5⟩)) ∧
    ∃ ast, load nestedText = .ok ast ∧
      (⟨.standard, { maxDepth := 1 }⟩ : Generator).generate ast =
        .error (.depthExceeded ⟨1⟩ 1 [(⟨0⟩, .compilationUnit), (⟨1⟩, .structDefinition)]) ∧
      GenerateError.Local ast { maxDepth := 1 }
        (.depthExceeded ⟨1⟩ 1 [(⟨0⟩, .compilationUnit), (⟨1⟩, .structDefinition)]) := by
  have hstray : load strayText = .error (.danglingReference ⟨1⟩ ⟨5⟩) := by
    rw [load, parse_strayText]
    rfl
  refine ⟨⟨hstray, (load_generates.1 strayText strayDocument parse_strayText).2 _ hstray⟩, ?_⟩
  have hload : ∃ ast, nestedDocument.toAst = .ok ast ∧ load nestedText = .ok ast := by
    refine ⟨_, rfl, ?_⟩
    rw [load, parse_nestedText]
    rfl
  obtain ⟨ast, hast, hload⟩ := hload
  have hdeep : (⟨.standard, { maxDepth := 1 }⟩ : Generator).generate ast =
      .error (.depthExceeded ⟨1⟩ 1 [(⟨0⟩, .compilationUnit), (⟨1⟩, .structDefinition)]) := by
    cases hast
    decide +kernel
  have hgenerates := load_generates.2.2 nestedText ast _ hload parse_nestedText (by decide)
    { maxDepth := 1 }
  exact ⟨ast, hload, hdeep, (hgenerates _).1 hdeep⟩

end SourceScribe
