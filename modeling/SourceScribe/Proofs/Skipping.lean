import SourceScribe.Proofs.Ledger
import SourceScribe.Proofs.Slots

/-!
# Children that are left out leave no trace

A child that has been entered before is left out. Where that happens only in lists, the
tree without these children is written in the same way: whenever the first traversal
enters a node, so does the second one at the same point, and what the first one passes
over the second one does not ask for. Nothing is listed twice in what is left.
-/

namespace SourceScribe

open Marked

/-- The places at which a ledger says that a child is left out: the node and the index
among its children. -/
def Ledger.gaps (l : Ledger) : List (NodeId × Nat) :=
  l.flatMap fun entry => (Marked.gaps entry.2).map fun index => (entry.1, index)

/-- The places at which a traversal from a node leaves a child out. -/
def Request.skipped (q : Request) (root : NodeId) : List (NodeId × Nat) :=
  (q.ledger q.nesting true root {}).gaps

namespace Ast

/-- A node without the children at some places. -/
def strip (places : List (NodeId × Nat)) (id : NodeId) (node : Node) : Node :=
  { node with
    children := (node.children.zipIdx.filter fun c => (id, c.2) ∉ places).map Prod.fst }

/-- The same tree without the children at some places. -/
def without (ast : Ast) (places : List (NodeId × Nat)) : Ast :=
  { ast with nodes := ast.nodes.mapIdx fun index node => strip places ⟨index⟩ node }

variable {ast : Ast} {places : List (NodeId × Nat)} {id : NodeId}

/-- Every node is there without some of its children. -/
theorem node?_without : (ast.without places).node? id = (ast.node? id).map (strip places id) := by
  rw [node?, node?, without, Array.getElem?_mapIdx]

/-- Every node is of the same kind. -/
theorem tag?_without : (ast.without places).tag? = ast.tag? := by
  funext id
  rw [tag?, tag?, node?_without, Option.map_map]
  rfl

/-- There are as many nodes. -/
theorem size_without : (ast.without places).size = ast.size := Array.size_mapIdx

end Ast

/-- The children at all places but some are those that are kept, if these places are the
gaps. -/
theorem Marked.filter_zipIdx (ms : Marked) (gap : Nat → Bool) (start : Nat)
    (hgap : ∀ index id mark, ms[index]? = some (id, mark) → gap (start + index) = !mark) :
    (((ids ms).zipIdx start).filter fun c => !gap c.2).map Prod.fst = kept ms := by
  induction ms generalizing start with
  | nil => rfl
  | cons m ms ih =>
    obtain ⟨id, mark⟩ := m
    have hfirst : gap start = !mark := hgap 0 id mark rfl
    have hrest := ih (start + 1) fun index other mark' hm => by
      rw [Nat.add_assoc, Nat.add_comm 1]
      exact hgap (index + 1) other mark' hm
    rw [ids_cons, List.zipIdx_cons, List.filter_cons]
    cases mark with
    | true => simpa [hfirst] using hrest
    | false => simpa [hfirst] using hrest

namespace Ledger

variable {l : Ledger} {id : NodeId} {ms : Marked} {index : Nat}

/-- The gaps of a node in a ledger are the children that are left out. -/
theorem mem_gaps (h : l.owners.Nodup) (hms : (id, ms) ∈ l) :
    (id, index) ∈ l.gaps ↔ ∃ child, ms[index]? = some (child, false) := by
  rw [← Marked.mem_gaps, gaps, List.mem_flatMap]
  constructor
  · rintro ⟨⟨owner, other⟩, hother, hindex⟩
    obtain ⟨index', hindex', heq⟩ := List.mem_map.mp hindex
    cases heq
    rwa [unique h hms hother]
  · intro hindex
    exact ⟨(id, ms), hms, List.mem_map.mpr ⟨index, hindex, rfl⟩⟩

/-- Without the gaps of a ledger a node lists the children that are written. -/
theorem strip_gaps (h : l.owners.Nodup) (hms : (id, ms) ∈ l) {node : Node}
    (hchildren : ids ms = node.children) :
    Ast.strip l.gaps id node = { node with children := kept ms } := by
  have hfilter := Marked.filter_zipIdx ms (fun index => decide ((id, index) ∈ l.gaps)) 0
    fun index child mark hm => by
      cases mark <;> simp [mem_gaps h hms, hm]
  rw [Ast.strip, ← hchildren, ← hfilter]
  simp only [decide_not]

/-- Without the gaps of a ledger the children of a node are those that are written. -/
theorem children_without (h : l.owners.Nodup) {ast : Ast} (hms : (id, ms) ∈ l)
    (hchildren : ids ms = ast.children id) : (ast.without l.gaps).children id = kept ms := by
  cases hnode : ast.node? id with
  | none =>
    rw [Ast.children, hnode] at hchildren
    obtain rfl : ms = [] := List.map_eq_nil_iff.mp hchildren
    rw [Ast.children, Ast.node?_without, hnode]
    rfl
  | some node =>
    rw [Ast.children_of_node hnode] at hchildren
    rw [Ast.children, Ast.node?_without, hnode, Option.map_some, l.strip_gaps h hms hchildren]
    rfl

end Ledger

/-- Two requests with the same options, in whose trees all nodes are of the same kinds. -/
structure Request.Kindred (q q' : Request) : Prop where
  /-- The options are the same. -/
  options : q'.options = q.options
  /-- The kinds are the same. -/
  tags : q'.ast.tag? = q.ast.tag?

/-- From one point of a traversal to another, the second renderer writes what the first
one writes, for the nodes that are kept; the first one leaves out the others. -/
inductive Renderer.Follows (render render' : Renderer) : Marked → Progress → Progress → Prop
  | nil (p : Progress) : Follows render render' [] p p
  | written {id : NodeId} {ms : Marked} {p p₁ p₂ : Progress} :
    (∀ indent, ∃ child, render id indent p = .ok (some child) p₁ ∧
      render' id indent p = .ok (some child) p₁) →
    Follows render render' ms p₁ p₂ → Follows render render' ((id, true) :: ms) p p₂
  | leftOut {id : NodeId} {ms : Marked} {p p₂ : Progress} :
    (∀ indent, render id indent p = .ok none p) →
    Follows render render' ms p p₂ → Follows render render' ((id, false) :: ms) p p₂

/-- From one point of a traversal to another, two ways of writing do the same to every
buffer. -/
def Writing.Both {α : Type} (w w' : Writing α) (p p₁ : Progress) : Prop :=
  ∀ b, ∃ a b', w ⟨p, b⟩ = .ok a ⟨p₁, b'⟩ ∧ w' ⟨p, b⟩ = .ok a ⟨p₁, b'⟩

namespace Renderer

variable {render render' : Renderer} {ms ns : Marked} {p p₁ p₂ : Progress}

/-- Some nodes after others are followed after them. -/
theorem Follows.split (h : render.Follows render' (ms ++ ns) p p₂) :
    ∃ p₁, render.Follows render' ms p p₁ ∧ render.Follows render' ns p₁ p₂ := by
  induction ms generalizing p with
  | nil => exact ⟨p, .nil p, h⟩
  | cons m ms ih =>
    cases h with
    | written hcall hrest =>
      obtain ⟨p₁, hms, hns⟩ := ih hrest
      exact ⟨p₁, .written hcall hms, hns⟩
    | leftOut hcall hrest =>
      obtain ⟨p₁, hms, hns⟩ := ih hrest
      exact ⟨p₁, .leftOut hcall hms, hns⟩

/-- A walk is followed if every node that it writes is written by the second renderer. -/
theorem Walk.follows {ids : List NodeId} (hw : render.Walk ids p p₁)
    (hshift : ∀ k, render.Shifts k) {record : NodeId → Progress → Ledger} {l : Ledger}
    (hrecords : render.records record ids p ⊆ l)
    (hleft : ∀ {id indent p next}, render id indent p = .ok none next → next = p)
    (hcall : ∀ {id indent p child next}, record id p ⊆ l →
      render id indent p = .ok (some child) next → render' id indent p = .ok (some child) next) :
    render.Follows render' (render.fates ids p) p p₁ := by
  induction hw with
  | nil p => exact .nil p
  | @cons id ids p next last hpass _ ih =>
    obtain ⟨indent, result, hr⟩ := hpass
    rw [records_cons hshift hr, List.append_subset] at hrecords
    rw [fates_cons hshift hr]
    -- what holds at the level of the call holds at any level
    obtain ⟨outermost, hzero, hsame⟩ := ok_at_zero hshift hr
    have hlevel (indent : Nat) :
        render id indent p = .ok (outermost.map (Buffer.shift indent)) next := by
      have hzero' := hshift indent id 0 p
      rwa [Nat.zero_add, hzero] at hzero'
    cases outermost with
    | none =>
      obtain rfl := hleft hzero
      rw [← hsame]
      exact .leftOut hlevel (ih hrecords.2)
    | some child =>
      rw [← hsame]
      refine .written (fun indent => ?_) (ih hrecords.2)
      exact ⟨_, hlevel indent, hcall hrecords.1 (hlevel indent)⟩

end Renderer

namespace Writing

variable {q q' : Request} {render render' : Renderer} {ms : Marked} {p p₁ p₂ : Progress}
  {owner : NodeId} {tag : Tag}

/-- What is done is done when its result is not used. -/
theorem discard_of_ok {α : Type} {w : Writing α} {f f' : Frame} {a : α} (h : w f = .ok a f') :
    discard w f = .ok () f' := by
  change EStateM.map (fun _ => PUnit.unit) w f = _
  unfold EStateM.map
  rw [h]

/-- What two ways of writing do alike they do alike when the results are not used. -/
theorem Both.discard {α : Type} {w w' : Writing α} (h : w.Both w' p p₁) :
    Both (discard w) (discard w') p p₁ := by
  intro b
  obtain ⟨a, b', hw, hw'⟩ := h b
  exact ⟨(), b', discard_of_ok hw, discard_of_ok hw'⟩

/-- Pieces that do the same stand in front of scripts that do the same. -/
theorem Both.cons {piece₁ piece₂ : Piece} {s t : Script}
    (hp : Both (piece q render owner tag piece₁) (piece q' render' owner tag piece₂) p p₁)
    (hs : Both (script q render owner tag s) (script q' render' owner tag t) p₁ p₂) :
    Both (script q render owner tag (piece₁ :: s)) (script q' render' owner tag (piece₂ :: t))
      p p₂ := by
  intro b
  obtain ⟨_, b₁, hone, hone'⟩ := hp b
  obtain ⟨_, b₂, hrest, hrest'⟩ := hs b₁
  exact ⟨(), b₂, by rw [script_cons, hone]; exact hrest, by rw [script_cons, hone']; exact hrest'⟩

/-- A required child that is kept is appended. -/
theorem both_required {id : NodeId} (slot : String)
    (hcall : ∀ indent, ∃ child, render id indent p = .ok (some child) p₁ ∧
      render' id indent p = .ok (some child) p₁) :
    Both (piece q render owner tag (.required slot id))
      (piece q' render' owner tag (.required slot id)) p p₁ := by
  intro b
  obtain ⟨child, hr, hr'⟩ := hcall b.indent
  refine ⟨(), b.append child, ?_, ?_⟩
  · change required q render slot id ⟨p, b⟩ = _
    rw [required_eq, hr]
  · change required q' render' slot id ⟨p, b⟩ = _
    rw [required_eq, hr']

/-- A group is written as the group of the children that are kept. -/
theorem both_groupFrom (hk : q.Kindred q') (hf : render.Follows render' ms p p₁)
    (arrangement : Arrangement) (written : Nat) (previous : Option Tag) :
    Both (groupFrom q render arrangement written previous (ids ms))
      (groupFrom q' render' arrangement written previous (kept ms)) p p₁ := by
  induction hf generalizing written previous with
  | nil p => exact fun b => ⟨written, b, rfl, rfl⟩
  | @written id ms p _ _ hcall _ ih =>
    intro b
    obtain ⟨child, hr, hr'⟩ := hcall b.indent
    obtain ⟨n, b', hrest, hrest'⟩ := ih (written + 1) (q.ast.tag? id)
      (arrangement.place q.options.blankLineBetweenDefinitions written previous
        (q.ast.tag? id) child b)
    refine ⟨n, b', ?_, ?_⟩
    · rw [ids_cons, groupFrom_cons, hr]
      exact hrest
    · rw [kept_cons_true, groupFrom_cons, hr', hk.tags, hk.options]
      exact hrest'
  | @leftOut id ms p _ hcall _ ih =>
    intro b
    obtain ⟨n, b', hrest, hrest'⟩ := ih written previous b
    refine ⟨n, b', ?_, hrest'⟩
    rw [ids_cons, groupFrom_cons, hcall]
    exact hrest

/-- A group is a piece like that of the children that are kept. -/
theorem both_group (hk : q.Kindred q') (hf : render.Follows render' ms p p₁)
    (arrangement : Arrangement) :
    Both (piece q render owner tag (.group arrangement (ids ms)))
      (piece q' render' owner tag (.group arrangement (kept ms))) p p₁ :=
  (both_groupFrom hk hf arrangement 0 none).discard

/-- A group between braces is a piece like that of the children that are kept. -/
theorem both_braced (hk : q.Kindred q') (hf : render.Follows render' ms p p₁)
    (arrangement : Arrangement) :
    Both (piece q render owner tag (.braced arrangement (ids ms)))
      (piece q' render' owner tag (.braced arrangement (kept ms))) p p₁ := by
  refine Both.discard fun b => ?_
  obtain ⟨n, b', hg, hg'⟩ := both_groupFrom hk hf arrangement 0 none (b.println "\x7b").deeper
  refine ⟨n, b'.shallower.print "\x7d", ?_, ?_⟩
  · rw [braced_eq, group, hg]
  · rw [braced_eq, group, hg']

/-- A piece that asks for no children is written in the same way. -/
theorem both_same (hk : q.Kindred q') {piece₁ : Piece} (hcalls : piece₁.calls = [])
    (hclean : piece₁.isFault = false) (p : Progress) :
    Both (piece q render owner tag piece₁) (piece q' render' owner tag piece₁) p p := by
  cases piece₁ with
  | text value => exact fun b => ⟨(), _, rfl, rfl⟩
  | newline => exact fun b => ⟨(), _, rfl, rfl⟩
  | required slot id => cases hcalls
  | group arrangement children =>
    obtain rfl : children = [] := hcalls
    exact both_group hk (.nil p) arrangement
  | braced arrangement children =>
    obtain rfl : children = [] := hcalls
    exact both_braced hk (.nil p) arrangement
  | standing describe =>
    have hstanding : q'.standing p = q.standing p := by
      rw [Request.standing, Request.standing, Request.pathOf, Request.pathOf, hk.tags]
    refine fun b => ⟨(), b.print (describe (q.standing p)), rfl, ?_⟩
    rw [← hstanding]
    rfl
  | reject fault => cases hclean

/-- A script is written as the script without the children that are left out. -/
theorem both_script (hk : q.Kindred q') {s t : Script} (ht : Script.Thins ms s t)
    (hclean : Script.Clean s) (hf : render.Follows render' ms p p₁) :
    Both (script q render owner tag s) (script q' render' owner tag t) p p₁ := by
  induction ht generalizing p with
  | nil =>
    cases hf
    exact fun b => ⟨(), b, rfl, rfl⟩
  | same hcalls _ ih =>
    obtain ⟨hpiece, hrest⟩ := Script.clean_cons.mp hclean
    exact (both_same hk hcalls hpiece p).cons (ih hrest hf)
  | required slot child _ ih =>
    cases hf with
    | written hcall hf =>
      exact (both_required slot hcall).cons (ih (Script.clean_cons.mp hclean).2 hf)
  | group arrangement gs _ ih =>
    obtain ⟨p₂, hgs, hms⟩ := hf.split
    exact (both_group hk hgs arrangement).cons (ih (Script.clean_cons.mp hclean).2 hms)
  | braced arrangement gs _ ih =>
    obtain ⟨p₂, hgs, hms⟩ := hf.split
    exact (both_braced hk hgs arrangement).cons (ih (Script.clean_cons.mp hclean).2 hms)
  | gone arrangement hgone _ ih =>
    obtain ⟨p₂, hgs, hms⟩ := hf.split
    intro b
    -- a group of which nothing is kept does nothing
    obtain ⟨n, b', hg, hnone⟩ := both_groupFrom hk hgs arrangement 0 none b
    rw [hgone] at hnone
    cases hnone
    obtain ⟨_, b₂, hrest, hrest'⟩ := ih (Script.clean_cons.mp hclean).2 hms b
    refine ⟨(), b₂, ?_, hrest'⟩
    rw [script_cons]
    have hpiece : piece q render owner tag (.group arrangement (ids _)) ⟨p, b⟩ = .ok () ⟨p, b⟩ :=
      discard_of_ok hg
    rw [hpiece]
    exact hrest

end Writing

/-- The second tree has under every node in a ledger the children that are written, and
those that are left out stood in lists. -/
structure Ledger.Thins (l : Ledger) (ast ast' : Ast) : Prop where
  /-- All nodes are of the same kinds. -/
  tags : ast'.tag? = ast.tag?
  /-- The children that are left out are gone. -/
  node : ∀ id ms node, (id, ms) ∈ l → ast.node? id = some node → ids ms = node.children →
    ast'.node? id = some { node with children := kept ms }
  /-- The children that are left out stood in lists. -/
  spares : ∀ id ms node, (id, ms) ∈ l → ast.node? id = some node → ids ms = node.children →
    ∀ options, Setting.Spares ⟨ast, options, id, node⟩ ms

namespace Request

variable {ast ast' : Ast} {options : Options} {root id : NodeId} {l : Ledger} {p p' : Progress}
  {buffer : Buffer}

/-- A node that is let in is let in with other children. -/
theorem Admits.replace {first : Bool} {node : Node} {visitor : Visitor} {children : List NodeId}
    (ha : (standard ast options).Admits first id p node visitor)
    (hnode : ast'.node? id = some { node with children := children }) :
    (standard ast' options).Admits first id p { node with children := children } visitor :=
  ⟨hnode, ha.fresh, ha.shallow, ha.linked, ha.supported⟩

/-- What a call writes is written without the children that are left out. -/
theorem render_thins (h : l.Thins ast ast') {limit : Nat} {first : Bool} {indent : Nat}
    (hl : (standard ast options).ledger limit first id p ⊆ l)
    (hr : (standard ast options).render limit first id indent p = .ok (some buffer) p') :
    (standard ast' options).render limit first id indent p = .ok (some buffer) p' := by
  induction limit generalizing first id indent p p' buffer with
  | zero => cases hr
  | succ limit ih =>
    have hthorough : (standard ast options).registry.Thorough := Registry.thorough_standard
    have hkindred : (standard ast options).Kindred (standard ast' options) := ⟨rfl, h.tags⟩
    have hshift : ∀ k, ((standard ast options).render limit false).Shifts k :=
      fun _ => render_shifts _ limit false
    rcases ledger_cases hthorough.entersOnce hr with
      ⟨-, hnone, -⟩ | ⟨node, visitor, f, ha, hnew, hs, hbuffer, hleave, hledger⟩
    · cases hnone
    obtain ⟨hclean, hwalk⟩ := walk_of_script hthorough ha hs
    rw [hledger, List.cons_subset] at hl
    -- the node has the children that are kept
    have hids := hwalk.ids_fates hshift
    rw [Ast.children_of_node ha.found] at hids hwalk hl
    obtain ⟨hentry, hrecords⟩ := hl
    have hnode := h.node _ _ _ hentry ha.found hids
    have hspares := h.spares _ _ _ hentry ha.found hids options
    generalize hms : ((standard ast options).render limit false).fates node.children
      (p.enter id) = ms at hids hentry hnode hspares
    -- what the calls for these children write is written again
    have hfollows : Renderer.Follows _ ((standard ast' options).render limit false) _ _ _ :=
      hwalk.follows hshift hrecords (eq_of_left_out hthorough.entersOnce) fun hl hr => ih hl hr
    rw [hms] at hfollows
    cases ha.supported
    have hthinned : Setting.Thinned ⟨ast, options, id, node⟩
        ⟨ast', options, id, { node with children := kept ms }⟩ ms :=
      ⟨rfl, rfl, h.tags, hids.symm, rfl⟩
    have hthins := Grammar.thins_rule hthinned hspares hclean
    obtain ⟨_, b, hfirst, hsecond⟩ := Writing.both_script hkindred hthins hclean hfollows
      (.ofNode id indent options.indent)
    have hframe : f = ⟨f.progress, b⟩ := (EStateM.Result.ok.inj (hs.symm.trans hfirst)).2
    have hadmits : (Visitor.standard node.tag).guard.admits p.visited id = true :=
      Guard.admits_once.mpr hnew
    have hgate := gate_admits (ha.replace hnode)
    rw [if_pos hadmits] at hgate
    let node' : Node := { node with children := kept ms }
    have hscript : Writing.script (standard ast' options)
        ((standard ast' options).render limit false) id node'.tag
        ((standard ast' options).scriptOf (.standard node.tag) id node')
        ⟨p.enter id, .ofNode id indent options.indent⟩ = .ok () ⟨f.progress, b⟩ := hsecond
    rw [hbuffer, hleave, hframe, render]
    simp only [hgate]
    exact enter_of_script hscript

/-- Without the children that a traversal leaves out the tree has under every node the
children that are written. -/
theorem thins_without (hl : l.owners.Nodup)
    (hslots : ∀ place ∈ l.gaps, ast.isListSlot place = true) :
    l.Thins ast (ast.without l.gaps) where
  tags := Ast.tag?_without
  node id ms node hms hnode hchildren := by
    rw [Ast.node?_without, hnode, Option.map_some, l.strip_gaps hl hms hchildren]
  spares id ms node hms hnode hchildren options := by
    intro index child hgap
    have hslot := hslots (id, index) ((Ledger.mem_gaps hl hms).mpr ⟨child, hgap⟩)
    have hchild : node.children[index]? = some child := by
      rw [← hchildren, ids, List.getElem?_map, hgap]
      rfl
    simp only [Ast.isListSlot, hnode, hchild, Option.any_some] at hslot
    exact hslot

/-- The ledger of a traversal that succeeds tells the traversal. -/
theorem run_tells (hrun : (standard ast options).run root {} = .ok buffer p) :
    ((standard ast options).ledger (standard ast options).nesting true root {}).Tells ast [root]
      {} p := by
  have hthorough : (standard ast options).registry.Thorough := Registry.thorough_standard
  obtain ⟨result, hr, -⟩ := run_eq_ok hrun
  obtain ⟨written, rfl⟩ := Option.isSome_iff_exists.mp (isSome_of_render hthorough.entersOnce hr)
  exact ledger_tells hthorough hr

/-- Without the children that it leaves out a traversal writes the same and enters the
same nodes in the same order. -/
theorem run_without (hrun : (standard ast options).run root {} = .ok buffer p)
    (hslots : ∀ place ∈ (standard ast options).skipped root, ast.isListSlot place = true) :
    (standard (ast.without ((standard ast options).skipped root)) options).run root {} =
      .ok buffer p := by
  have hthorough : (standard ast options).registry.Thorough := Registry.thorough_standard
  have hnodup := (run_tells hrun).nodup (run_visits_preorder hrun).2.1
  have hthins := thins_without hnodup.1 hslots
  have hsize : (standard (ast.without ((standard ast options).skipped root)) options).nesting =
      (standard ast options).nesting := congrArg (· + 1) Ast.size_without
  obtain ⟨result, hr, rfl⟩ := run_eq_ok hrun
  obtain ⟨written, rfl⟩ := Option.isSome_iff_exists.mp (isSome_of_render hthorough.entersOnce hr)
  apply run_of_render
  rw [hsize]
  exact render_thins hthins (List.Subset.refl _) hr

/-- Without the children that a traversal leaves out every node is listed at one place. -/
theorem listedOnce_without (hrun : (standard ast options).run root {} = .ok buffer p)
    (hslots : ∀ place ∈ (standard ast options).skipped root, ast.isListSlot place = true) :
    (ast.without ((standard ast options).skipped root)).ListedOnce root := by
  have hrun' := run_without hrun hslots
  have htells := run_tells hrun
  obtain ⟨howners, hwritten⟩ := htells.nodup (run_visits_preorder hrun).2.1
  obtain ⟨hroot, honce⟩ := List.nodup_cons.mp hwritten
  have howner : p.visited.toList = _ := htells.visited
  -- a node that is reached lists the children that are written under it
  have hlisted {id : NodeId}
      (hr : (ast.without ((standard ast options).skipped root)).Reaches root id) :
      ∃ ms, (id, ms) ∈ (standard ast options).ledger (standard ast options).nesting true root {} ∧
        (ast.without ((standard ast options).skipped root)).children id = kept ms := by
    have hentered := Array.mem_toList_iff.mpr ((mem_visited_of_run hrun').mpr hr)
    rw [howner] at hentered
    obtain ⟨⟨_, ms⟩, hms, rfl⟩ := List.mem_map.mp hentered
    exact ⟨ms, hms, Ledger.children_without howners hms (htells.children _ hms)⟩
  constructor
  · intro id hr hne
    rcases Relation.ReflTransGen.cases_tail hr with heq | ⟨parent, hparent, hl⟩
    · exact absurd heq hne
    obtain ⟨index, hindex⟩ := List.mem_iff_getElem?.mp hl
    refine ⟨(parent, index), ⟨hparent, hindex⟩, ?_⟩
    rintro ⟨other, index'⟩ ⟨hother, hindex'⟩
    obtain ⟨ms, hms, hkept⟩ := hlisted hparent
    obtain ⟨ns, hns, hkept'⟩ := hlisted hother
    rw [hkept] at hindex
    rw [hkept'] at hindex'
    exact Ledger.place_unique honce hns hms hindex' hindex
  · intro id hr hmem
    obtain ⟨ms, hms, hkept⟩ := hlisted hr
    rw [hkept] at hmem
    exact hroot (List.mem_flatMap.mpr ⟨(id, ms), hms, hmem⟩)

end Request

namespace Generator

/-- **Children that are left out leave no trace.** If a text can be generated, and every
child that was left out because it had been written before stood in a list, then the tree
without these children is one in which no node is shared, and its text is the same, with
its nodes entered in the same order. -/
theorem generateNode_without_skipped {ast : Ast} {options : Options} {root : NodeId}
    {text : String} (h : generateNode ⟨.standard, options⟩ ast root = .ok text)
    (hslots : ∀ place ∈ (Request.standard ast options).skipped root,
      ast.isListSlot place = true) :
    (ast.without ((Request.standard ast options).skipped root)).TreeShaped root ∧
      generateNode ⟨.standard, options⟩
        (ast.without ((Request.standard ast options).skipped root)) root = .ok text ∧
      (Request.standard (ast.without ((Request.standard ast options).skipped root))
        options).entered? root = (Request.standard ast options).entered? root := by
  obtain ⟨buffer, p, hok, htext⟩ := generateNode_eq_ok.mp h
  have hrun : (Request.standard ast options).run root {} = .ok buffer p := hok
  have hrun' := Request.run_without hrun hslots
  refine ⟨Request.treeShaped_of_run (Request.listedOnce_without hrun hslots) hrun', ?_, ?_⟩
  · exact generateNode_eq_ok.mpr ⟨buffer, p, hrun', htext⟩
  · rw [Request.entered?, Request.entered?, hrun, hrun']

/-- A block in which a call, a block and a statement of this block are listed again: at the
front, in between and at the end, and so are the arguments of the call. -/
def repeatedStatements : Ast where
  nodes := #[
    { construct := .blockStatement, children := [⟨1⟩, ⟨1⟩, ⟨4⟩, ⟨1⟩, ⟨5⟩, ⟨4⟩] },
    { construct := .expressionStatement, children := [⟨2⟩], parent := some ⟨0⟩ },
    { construct := .functionInvocationExpression "f(", children := [⟨3⟩, ⟨3⟩, ⟨6⟩, ⟨3⟩],
      parent := some ⟨1⟩ },
    { construct := .variableReferenceExpression none "x", parent := some ⟨2⟩ },
    { construct := .blockStatement, children := [⟨1⟩, ⟨5⟩, ⟨1⟩], parent := some ⟨0⟩ },
    { construct := .breakStatement, parent := some ⟨0⟩ },
    { construct := .variableReferenceExpression none "y", parent := some ⟨2⟩ }]

/-- Without what is listed again the block is written in the same way. -/
theorem generateNode_without_skipped_repeatedStatements :
    generateNode ⟨.standard, {}⟩ repeatedStatements ⟨0⟩ =
        .ok "\x7b\n    f(x, y);\n    \x7b\n        break;\n    \x7d\n\x7d" ∧
      (Request.standard repeatedStatements {}).skipped ⟨0⟩ =
        [(⟨0⟩, 1), (⟨0⟩, 3), (⟨0⟩, 4), (⟨0⟩, 5), (⟨2⟩, 1), (⟨2⟩, 3), (⟨4⟩, 0), (⟨4⟩, 2)] ∧
      (∀ place ∈ (Request.standard repeatedStatements {}).skipped ⟨0⟩,
        repeatedStatements.isListSlot place = true) ∧
      (repeatedStatements.without
        ((Request.standard repeatedStatements {}).skipped ⟨0⟩)).TreeShaped ⟨0⟩ ∧
      generateNode ⟨.standard, {}⟩ (repeatedStatements.without
          ((Request.standard repeatedStatements {}).skipped ⟨0⟩)) ⟨0⟩ =
        .ok "\x7b\n    f(x, y);\n    \x7b\n        break;\n    \x7d\n\x7d" ∧
      (Request.standard (repeatedStatements.without
          ((Request.standard repeatedStatements {}).skipped ⟨0⟩)) {}).entered? ⟨0⟩ =
        (Request.standard repeatedStatements {}).entered? ⟨0⟩ := by
  have htext : generateNode ⟨.standard, {}⟩ repeatedStatements ⟨0⟩ =
      .ok "\x7b\n    f(x, y);\n    \x7b\n        break;\n    \x7d\n\x7d" := by
    decide +kernel
  have hslots : ∀ place ∈ (Request.standard repeatedStatements {}).skipped ⟨0⟩,
      repeatedStatements.isListSlot place = true := by
    decide +kernel
  exact ⟨htext, by decide +kernel, hslots, generateNode_without_skipped htext hslots⟩

end Generator

end SourceScribe
