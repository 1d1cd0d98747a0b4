import SourceScribe.Document.Basic
import SourceScribe.Proofs.Changes
import SourceScribe.Proofs.Shapes

/-!
# The numbering of tree documents

A document of the tree shape becomes a graph whose nodes are numbered in the
order of their texts: a node, then the nodes inside it, tree by tree. As long as
there are no more nodes than identities, child links and parent links agree in
such a graph, so that below its root it is a tree, and it shows the document: at
every node the constructs and their nesting are those of the document.
-/

namespace SourceScribe

namespace TreeNode

mutual

/-- The number of nodes of a tree. -/
def count : TreeNode → Nat
  | .node _ children _ => countAll children + 1

/-- The number of nodes of trees. -/
def countAll : List TreeNode → Nat
  | [] => 0
  | t :: rest => t.count + countAll rest

end

/-- The identities of trees whose nodes are numbered from an index on. -/
def places (start : Nat) : List TreeNode → List NodeId
  | [] => []
  | t :: rest => ⟨start⟩ :: places (start + t.count) rest

mutual

/-- The nodes of a tree, numbered from an index on. -/
def layOut (start : Nat) (parent : Option NodeId) : TreeNode → List Node
  | .node construct children position =>
    ⟨construct, places (start + 1) children, parent, position⟩ ::
      layOutAll (start + 1) ⟨start⟩ children

/-- The nodes of trees under a parent, numbered from an index on. -/
def layOutAll (start : Nat) (parent : NodeId) : List TreeNode → List Node
  | [] => []
  | t :: rest => t.layOut start (some parent) ++ layOutAll (start + t.count) parent rest

end

mutual

/-- Every node of a tree gets a number. -/
theorem length_layOut (start : Nat) (parent : Option NodeId) (t : TreeNode) :
    (t.layOut start parent).length = t.count := by
  cases t with
  | node construct children position =>
    rw [layOut, List.length_cons, length_layOutAll, count]

/-- Every node of trees gets a number. -/
theorem length_layOutAll (start : Nat) (parent : NodeId) (ts : List TreeNode) :
    (layOutAll start parent ts).length = countAll ts := by
  cases ts with
  | nil => rfl
  | cons t rest => rw [layOutAll, List.length_append, length_layOut, length_layOutAll, countAll]

end

/-- A tree has a node. -/
theorem count_pos (t : TreeNode) : 0 < t.count := by
  cases t with
  | node construct children position => exact Nat.succ_pos _

end TreeNode

/-- A change of an entry leaves the entries behind the list. -/
theorem modify_append_of_lt {α : Type} {front : List α} {i : Nat} (h : i < front.length)
    (back : List α) (change : α → α) :
    (front ++ back).modify i change = front.modify i change ++ back := by
  induction front generalizing i with
  | nil => cases h
  | cons a front ih =>
    cases i with
    | zero => rfl
    | succ i =>
      rw [List.cons_append, List.modify_succ_cons, List.modify_succ_cons,
        ih (Nat.lt_of_succ_lt_succ h), List.cons_append]

/-- A change of the entry behind some entries. -/
theorem modify_append_singleton {α : Type} (front : List α) (a : α) (change : α → α) :
    (front ++ [a]).modify front.length change = front ++ [change a] := by
  induction front with
  | nil => rfl
  | cons b front ih => simpa using ih

namespace Ast

variable {ast : Ast}

/-- The graph with further nodes behind the others. -/
def laid (ast : Ast) (nodes : List Node) : Ast :=
  { ast with nodes := ast.nodes ++ nodes.toArray }

/-- The graph in which a node lists further children. -/
def listing (ast : Ast) (parent : NodeId) (ids : List NodeId) : Ast :=
  ast.modify parent fun n => { n with children := n.children ++ ids }

@[simp] theorem nodes_laid (ast : Ast) (nodes : List Node) :
    (ast.laid nodes).nodes.toList = ast.nodes.toList ++ nodes := by
  simp [laid]

@[simp] theorem nodes_listing (ast : Ast) (parent : NodeId) (ids : List NodeId) :
    (ast.listing parent ids).nodes.toList = ast.nodes.toList.modify parent.index
      fun n => { n with children := n.children ++ ids } := Array.toList_modify

/-- Further nodes are counted. -/
@[simp] theorem size_laid (ast : Ast) (nodes : List Node) :
    (ast.laid nodes).size = ast.size + nodes.length := by
  simp [laid, size]

/-- Further children are not. -/
@[simp] theorem size_listing (ast : Ast) (parent : NodeId) (ids : List NodeId) :
    (ast.listing parent ids).size = ast.size := by
  simp [listing, modify, size]

/-- Nodes stand behind each other. -/
theorem laid_laid (ast : Ast) (nodes more : List Node) :
    (ast.laid nodes).laid more = ast.laid (nodes ++ more) :=
  ext_toList (by simp) rfl rfl

/-- To list no children changes nothing. -/
theorem listing_nil (ast : Ast) (parent : NodeId) : ast.listing parent [] = ast := by
  have hsame : (fun n : Node => { n with children := n.children ++ [] }) = id :=
    funext fun n => by rw [List.append_nil]; rfl
  refine ext_toList ?_ rfl rfl
  rw [nodes_listing, hsame, List.modify_id]

/-- Children are listed one after the other. -/
theorem listing_listing (ast : Ast) (parent : NodeId) (ids more : List NodeId) :
    (ast.listing parent ids).listing parent more = ast.listing parent (ids ++ more) := by
  refine ext_toList ?_ rfl rfl
  rw [nodes_listing, nodes_listing, nodes_listing, List.modify_modify_eq]
  congr 1
  funext n
  simp only [Function.comp_apply, List.append_assoc]

/-- A node lists its children whether there are nodes behind it or not. -/
theorem listing_laid {parent : NodeId} (h : parent.index < ast.size) (nodes : List Node)
    (ids : List NodeId) :
    (ast.laid nodes).listing parent ids = (ast.listing parent ids).laid nodes := by
  refine ext_toList ?_ rfl rfl
  rw [nodes_listing, nodes_laid, nodes_laid, nodes_listing]
  exact modify_append_of_lt h nodes _

/-- A node that has just been added lists children as if it had been added so. -/
theorem listing_last (ast : Ast) (n : Node) (ids : List NodeId) :
    (ast.laid [n]).listing ⟨ast.size⟩ ids =
      ast.laid [{ n with children := n.children ++ ids }] := by
  refine ext_toList ?_ rfl rfl
  rw [nodes_listing, nodes_laid, nodes_laid]
  exact modify_append_singleton ast.nodes.toList n _

/-- A node that lists further children lists nothing else besides. -/
theorem mem_children_listing {parent child x : NodeId} {ids : List NodeId}
    (h : child ∈ (ast.listing parent ids).children x) : child ∈ ast.children x ∨ child ∈ ids := by
  rw [listing, children, node?_modify] at h
  split at h
  next =>
    cases hnode : ast.node? x with
    | none => simp [hnode] at h
    | some n =>
      rw [children_of_node hnode]
      simpa [hnode] using h
  next => exact .inl h

/-- To add a node is to lay it behind the others. -/
theorem push_eq_laid (h : ast.size < 2 ^ 32) (n : Node) :
    ast.push n = (ast.laid [n], ⟨ast.size⟩) := by
  rw [push, nextId_of_lt h]
  exact Prod.ext (ext_toList (by simp) rfl rfl) rfl

end Ast

namespace TreeNode

/-- All children that a graph lists are there, and so are the nodes of a graph from which it
has grown. -/
structure Grown (ast next : Ast) : Prop where
  /-- The nodes are still there. -/
  kept : ∀ x, ast.has x = true → next.has x = true
  /-- The children are there. -/
  inside : ∀ parent, ∀ child ∈ next.children parent, next.has child = true

mutual

/-- To add a tree leaves no child outside, even if identities begin again. -/
theorem grown_push {ast : Ast} (h : ∀ parent, ∀ child ∈ ast.children parent, ast.has child = true)
    (parent : Option NodeId) (t : TreeNode) :
    Grown ast (t.push ast parent).1 ∧ (t.push ast parent).1.has (t.push ast parent).2 = true := by
  cases t with
  | node construct children position =>
    let node : Node := ⟨construct, [], parent, position⟩
    have hkept : ∀ x, ast.has x = true → (ast.push node).1.has x = true := fun x hx =>
      (Ast.has_push _ _ _).mpr (.inr hx)
    have hinside : ∀ p, ∀ child ∈ (ast.push node).1.children p,
        (ast.push node).1.has child = true := by
      intro p child hm
      rw [Ast.children_push] at hm
      split at hm
      · cases hm
      · exact hkept child (h p child hm)
    have hgrown := grown_pushAll hinside ast.nextId children
    exact ⟨⟨fun x hx => hgrown.kept x (hkept x hx), hgrown.inside⟩,
      hgrown.kept _ (ast.has_nextId node)⟩

/-- To add trees under a parent leaves no child outside. -/
theorem grown_pushAll {ast : Ast}
    (h : ∀ parent, ∀ child ∈ ast.children parent, ast.has child = true) (parent : NodeId)
    (ts : List TreeNode) : Grown ast (pushAll ast parent ts) := by
  cases ts with
  | nil => exact ⟨fun _ => id, h⟩
  | cons t rest =>
    obtain ⟨hgrown, hthere⟩ := grown_push h (some parent) t
    let listed := (t.push ast (some parent)).1.listing parent [(t.push ast (some parent)).2]
    have hkept : ∀ x, (t.push ast (some parent)).1.has x = true → listed.has x = true :=
      fun x hx => (Ast.has_modify _ _ _ _).trans hx
    have hinside : ∀ p, ∀ child ∈ listed.children p, listed.has child = true := by
      intro p child hm
      rcases Ast.mem_children_listing hm with hm | hm
      · exact hkept child (hgrown.inside p child hm)
      · rw [List.mem_singleton.mp hm]
        exact hkept _ hthere
    have hrest := grown_pushAll hinside parent rest
    exact ⟨fun x hx => hrest.kept x (hkept x (hgrown.kept x hx)), hrest.inside⟩

end

mutual

/-- To add a tree is to lay its nodes out behind those that there are. -/
theorem push_eq (ast : Ast) (parent : Option NodeId) (t : TreeNode)
    (hroom : ast.size + t.count ≤ 2 ^ 32) :
    t.push ast parent = (ast.laid (t.layOut ast.size parent), ⟨ast.size⟩) := by
  cases t with
  | node construct children position =>
    rw [count] at hroom
    have hfree : ast.size < 2 ^ 32 := by omega
    have hadded := Ast.push_eq_laid hfree ⟨construct, [], parent, position⟩
    have hsize : (ast.laid [⟨construct, [], parent, position⟩]).size = ast.size + 1 :=
      ast.size_laid _
    have hchildren := pushAll_eq (ast.laid [⟨construct, [], parent, position⟩]) ⟨ast.size⟩ children
      (by rw [hsize]; exact Nat.lt_succ_self _) (by omega)
    rw [hsize, Ast.listing_last, Ast.laid_laid] at hchildren
    rw [push, hadded]
    dsimp only
    rw [hchildren, layOut]
    rfl

/-- To add trees under a parent is to lay their nodes out behind those that there are and
to list the first node of each. -/
theorem pushAll_eq (ast : Ast) (parent : NodeId) (ts : List TreeNode)
    (hparent : parent.index < ast.size) (hroom : ast.size + countAll ts ≤ 2 ^ 32) :
    pushAll ast parent ts =
      (ast.listing parent (places ast.size ts)).laid (layOutAll ast.size parent ts) := by
  cases ts with
  | nil =>
    rw [pushAll, places, layOutAll, Ast.listing_nil]
    exact Ast.ext_toList (by simp) rfl rfl
  | cons t rest =>
    rw [countAll] at hroom
    have hfirst := push_eq ast (some parent) t (by omega)
    let listed := (ast.laid (t.layOut ast.size (some parent))).listing parent [⟨ast.size⟩]
    have hsize : listed.size = ast.size + t.count := by
      rw [Ast.size_listing, Ast.size_laid, length_layOut]
    have hrest := pushAll_eq listed parent rest (by omega) (by omega)
    rw [hsize, Ast.listing_listing, Ast.listing_laid hparent, Ast.laid_laid] at hrest
    rw [pushAll, hfirst]
    exact hrest

end

end TreeNode

namespace Ast

open Relation (ReflTransGen)

variable {ast : Ast} {root id parent child : NodeId}

/-- A node lists no child twice, and each of its children links back to it. -/
structure Agrees (ast : Ast) (id : NodeId) (node : Node) : Prop where
  /-- No child is listed twice. -/
  nodup : node.children.Nodup
  /-- The children link back. -/
  back : ∀ child ∈ node.children, ∃ c, ast.node? child = some c ∧ c.parent = some id

/-- What is listed under a node that agrees with its children links back to it. -/
theorem Agrees.parent_of_links (h : ∀ id node, ast.node? id = some node → ast.Agrees id node)
    (hl : ast.Links parent child) : ∃ c, ast.node? child = some c ∧ c.parent = some parent := by
  cases hnode : ast.node? parent with
  | none =>
    rw [Links, children, hnode] at hl
    cases hl
  | some node =>
    rw [Links, children_of_node hnode] at hl
    exact (h parent node hnode).back child hl

/-- Where all nodes agree with their children, the graph is a tree below a node
without parent link. -/
theorem TreeShaped.of_agrees (h : ∀ id node, ast.node? id = some node → ast.Agrees id node)
    {node : Node} (hroot : ast.node? root = some node) (hparent : node.parent = none) :
    ast.TreeShaped root := by
  have hback {a c : NodeId} (hl : ast.Links a c) := Agrees.parent_of_links h hl
  have hlisted {id : NodeId} (hr : ast.Reaches root id) (hne : id ≠ root) :
      ∃ a, ast.Reaches root a ∧ ast.Links a id := by
    rcases ReflTransGen.cases_tail hr with heq | ⟨a, ha, hl⟩
    · exact absurd heq hne
    · exact ⟨a, ha, hl⟩
  constructor
  · intro id hr
    by_cases hne : id = root
    · exact has_iff.mpr ⟨node, hne ▸ hroot⟩
    · obtain ⟨a, -, hl⟩ := hlisted hr hne
      obtain ⟨c, hc, -⟩ := hback hl
      exact has_iff.mpr ⟨c, hc⟩
  · intro id hr hne
    obtain ⟨a, ha, hl⟩ := hlisted hr hne
    obtain ⟨i, hi⟩ := List.mem_iff_getElem?.mp hl
    refine ⟨(a, i), ⟨ha, hi⟩, ?_⟩
    rintro ⟨b, j⟩ ⟨-, hj⟩
    obtain ⟨c, hc, hca⟩ := hback hl
    obtain ⟨c', hc', hcb⟩ := hback (List.mem_iff_getElem?.mpr ⟨j, hj⟩)
    have hsame : b = a := by
      rw [Option.some.inj (hc'.symm.trans hc), hca] at hcb
      exact (Option.some.inj hcb).symm
    subst hsame
    have hnodup : (ast.children b).Nodup := by
      cases hnode : ast.node? b with
      | none =>
        rw [Links, children, hnode] at hl
        cases hl
      | some found =>
        rw [children_of_node hnode]
        exact (h b found hnode).nodup
    have hlt : i < (ast.children b).length := by
      by_contra hn
      rw [List.getElem?_eq_none (Nat.le_of_not_lt hn)] at hi
      cases hi
    rw [(List.getElem?_inj hlt hnodup).mp (hi.trans hj.symm)]
  · intro id hr hne
    obtain ⟨a, -, hl⟩ := hlisted hr hne
    obtain ⟨c, hc, hca⟩ := hback hl
    exact ⟨c, hc, by rw [hca]; rfl⟩
  · intro id _ hl
    obtain ⟨c, hc, hca⟩ := hback hl
    rw [Option.some.inj (hc.symm.trans hroot), hparent] at hca
    cases hca

mutual

/-- A node shows a tree: it has the same construct, and its children show the
trees inside it. -/
def Shows (ast : Ast) (id : NodeId) : TreeNode → Prop
  | .node construct children _ => ∃ node, ast.node? id = some node ∧
    node.construct = construct ∧ ast.ShowsAll node.children children

/-- Nodes show trees one by one. -/
def ShowsAll (ast : Ast) (ids : List NodeId) : List TreeNode → Prop
  | [] => ids = []
  | t :: rest => ∃ id others, ids = id :: others ∧ ast.Shows id t ∧ ast.ShowsAll others rest

end

/-- From an index on stand the given nodes. -/
def Holds (ast : Ast) (start : Nat) (nodes : List Node) : Prop :=
  ∀ i n, nodes[i]? = some n → ast.node? ⟨start + i⟩ = some n

variable {start : Nat} {nodes more : List Node} {n : Node}

/-- The first node stands at the index, the others behind it. -/
theorem Holds.cons (h : ast.Holds start (n :: nodes)) :
    ast.node? ⟨start⟩ = some n ∧ ast.Holds (start + 1) nodes := by
  refine ⟨h 0 n rfl, fun i m hm => ?_⟩
  rw [Nat.add_assoc, Nat.add_comm 1 i]
  exact h (i + 1) m hm

/-- Some nodes stand at the index, the others behind them. -/
theorem Holds.append (h : ast.Holds start (nodes ++ more)) :
    ast.Holds start nodes ∧ ast.Holds (start + nodes.length) more := by
  refine ⟨fun i m hm => h i m ?_, fun i m hm => ?_⟩
  · rw [List.getElem?_append_left, hm]
    exact (List.getElem?_eq_some_iff.mp hm).1
  · rw [Nat.add_assoc]
    refine h (nodes.length + i) m ?_
    rw [List.getElem?_append_right (Nat.le_add_right _ _), Nat.add_sub_cancel_left, hm]

end Ast

namespace TreeNode

variable {ast : Ast}

/-- The identities of trees are not below the first of them. -/
theorem le_of_mem_places {start : Nat} {ts : List TreeNode} {id : NodeId}
    (h : id ∈ places start ts) : start ≤ id.index := by
  induction ts generalizing start with
  | nil => cases h
  | cons t rest ih =>
    rcases List.mem_cons.mp h with rfl | h
    · exact Nat.le_refl start
    · exact (Nat.le_add_right start t.count).trans (ih h)

/-- Trees have different identities. -/
theorem nodup_places (start : Nat) (ts : List TreeNode) : (places start ts).Nodup := by
  induction ts generalizing start with
  | nil => exact List.nodup_nil
  | cons t rest ih =>
    refine List.nodup_cons.mpr ⟨fun hm => ?_, ih _⟩
    have hle : start + t.count ≤ start := le_of_mem_places hm
    have hpos := t.count_pos
    omega

/-- Trees that are laid out under a parent link to it. -/
theorem back_of_places {start : Nat} {parent : NodeId} {ts : List TreeNode}
    (h : ast.Holds start (layOutAll start parent ts)) :
    ∀ id ∈ places start ts, ∃ c, ast.node? id = some c ∧ c.parent = some parent := by
  induction ts generalizing start with
  | nil => simp [places]
  | cons t rest ih =>
    obtain ⟨ht, hrest⟩ := h.append
    rw [length_layOut] at hrest
    rw [places, List.forall_mem_cons]
    refine ⟨?_, ih hrest⟩
    cases t with
    | node construct children position => exact ⟨_, ht.cons.1, rfl⟩

mutual

/-- Where a tree is laid out, every node of it agrees with its children. -/
theorem agrees_layOut {start : Nat} {parent : Option NodeId} {t : TreeNode}
    (h : ast.Holds start (t.layOut start parent)) {i : Nat} {node : Node}
    (hn : (t.layOut start parent)[i]? = some node) : ast.Agrees ⟨start + i⟩ node := by
  cases t with
  | node construct children position =>
    obtain ⟨-, hall⟩ := h.cons
    cases i with
    | zero =>
      cases hn
      exact ⟨nodup_places _ _, back_of_places hall⟩
    | succ i =>
      rw [Nat.add_comm i 1, ← Nat.add_assoc]
      exact agrees_layOutAll hall hn

/-- Where trees are laid out, every node of them agrees with its children. -/
theorem agrees_layOutAll {start : Nat} {parent : NodeId} {ts : List TreeNode}
    (h : ast.Holds start (layOutAll start parent ts)) {i : Nat} {node : Node}
    (hn : (layOutAll start parent ts)[i]? = some node) :
    ast.Agrees ⟨start + i⟩ node := by
  cases ts with
  | nil => cases hn
  | cons t rest =>
    obtain ⟨ht, hrest⟩ := h.append
    rw [length_layOut] at hrest
    rw [layOutAll, List.getElem?_append, length_layOut] at hn
    split at hn
    next => exact agrees_layOut ht hn
    next hle =>
      have hi : start + i = start + t.count + (i - t.count) := by omega
      rw [hi]
      exact agrees_layOutAll hrest hn

end

mutual

/-- Where a tree is laid out, its first node shows it. -/
theorem shows_layOut {start : Nat} {parent : Option NodeId} {t : TreeNode}
    (h : ast.Holds start (t.layOut start parent)) : ast.Shows ⟨start⟩ t := by
  cases t with
  | node construct children position =>
    obtain ⟨hnode, hall⟩ := h.cons
    exact ⟨_, hnode, rfl, shows_layOutAll hall⟩

/-- Where trees are laid out, their first nodes show them. -/
theorem shows_layOutAll {start : Nat} {parent : NodeId} {ts : List TreeNode}
    (h : ast.Holds start (layOutAll start parent ts)) :
    ast.ShowsAll (places start ts) ts := by
  cases ts with
  | nil => rfl
  | cons t rest =>
    obtain ⟨ht, hrest⟩ := h.append
    rw [length_layOut] at hrest
    exact ⟨_, _, rfl, shows_layOut ht, shows_layOutAll hrest⟩

end

end TreeNode

namespace TreeDocument

/-- The root of a document is the first node. -/
theorem root_toAst (d : TreeDocument) : d.toAst.root = some ⟨0⟩ := by
  cases hroot : d.root with
  | node construct children position =>
    rw [toAst, hroot]
    rfl

/-- The graph of a document has its root and all children that it lists. -/
theorem grown_toAst (d : TreeDocument) :
    d.toAst.has ⟨0⟩ = true ∧
      ∀ parent, ∀ child ∈ d.toAst.children parent, d.toAst.has child = true := by
  have hempty : ∀ parent, ∀ child ∈ ({} : Ast).children parent, ({} : Ast).has child = true := by
    simp [Ast.children, Ast.node?]
  obtain ⟨hgrown, hthere⟩ := TreeNode.grown_push hempty none d.root
  have hroot : (d.root.push {} none).2 = ⟨0⟩ := Option.some.inj d.root_toAst
  rw [hroot] at hthere
  exact ⟨hthere, hgrown.inside⟩

variable {d : TreeDocument} (h : d.root.count ≤ 2 ^ 32)

include h

/-- The graph of a document holds the nodes of its tree from zero on. -/
theorem toAst_eq : d.toAst =
    { nodes := (d.root.layOut 0 none).toArray, root := some ⟨0⟩, file := d.file } := by
  have hpushed := TreeNode.push_eq {} none d.root (by simpa [Ast.size] using h)
  rw [toAst, hpushed]
  simp [Ast.laid, Ast.size]

/-- The nodes of the tree stand from zero on. -/
theorem holds_toAst : d.toAst.Holds 0 (d.root.layOut 0 none) := by
  intro i n hn
  simp [toAst_eq h, Ast.node?, hn]

/-- The graph of a document shows its tree. -/
theorem shows_toAst : d.toAst.Shows ⟨0⟩ d.root := TreeNode.shows_layOut (holds_toAst h)

/-- In the graph of a document every node agrees with its children. -/
theorem agrees_toAst (id : NodeId) (node : Node) (hnode : d.toAst.node? id = some node) :
    d.toAst.Agrees id node := by
  have hn : (d.root.layOut 0 none)[id.index]? = some node := by
    rw [Ast.node?, toAst_eq h] at hnode
    simpa using hnode
  have hagrees := TreeNode.agrees_layOut (holds_toAst h) hn
  rwa [Nat.zero_add] at hagrees

/-- The graph of a document is a tree. -/
theorem treeShaped_toAst : d.toAst.TreeShaped ⟨0⟩ := by
  have hholds := holds_toAst h
  have hagrees := agrees_toAst h
  cases hroot : d.root with
  | node construct children position =>
    rw [hroot] at hholds
    exact Ast.TreeShaped.of_agrees hagrees hholds.cons.1 rfl

end TreeDocument

end SourceScribe
