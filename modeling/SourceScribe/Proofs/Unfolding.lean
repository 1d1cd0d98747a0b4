import SourceScribe.Proofs.Edits
import SourceScribe.Proofs.Numbered
import SourceScribe.Proofs.Preorder

/-!
# Nested documents read back

The graph of a document of the tree shape can be unfolded again, as long as the
document has no more nodes than there are identities. Its nodes are
numbered as they are met when the child lists are followed from the root, so the
nodes of a subtree have consecutive numbers; each node but the root is listed once,
under the parent that it links to; and unfolded from its root the graph is the tree
of the document, with its constructs, its order and its positions.
-/

namespace SourceScribe

namespace TreeNode

mutual

/-- The constructs of a tree and where they were read, each in front of those inside it. -/
def labels : TreeNode → List (Construct × Option SourcePosition)
  | .node construct children position => (construct, position) :: labelsAll children

/-- The constructs of trees and where they were read, tree by tree. -/
def labelsAll : List TreeNode → List (Construct × Option SourcePosition)
  | [] => []
  | t :: rest => t.labels ++ labelsAll rest

end

/-- So many identities from a number on. -/
def span (start length : Nat) : List NodeId := (List.range' start length).map NodeId.mk

/-- The first of some identities stands in front of the others. -/
theorem span_succ (start length : Nat) :
    span start (length + 1) = ⟨start⟩ :: span (start + 1) length := by
  rw [span, List.range'_succ, List.map_cons, span]

/-- Identities behind each other are identities from the first of them on. -/
theorem span_append (start length more : Nat) :
    span start length ++ span (start + length) more = span start (length + more) := by
  have happend : List.range' start length ++ List.range' (start + 1 * length) more =
      List.range' start (length + more) := List.range'_append
  rw [Nat.one_mul] at happend
  rw [span, span, span, ← List.map_append, happend]

/-- An identity among those from a number on has its place there. -/
theorem mem_span {id : NodeId} {start length : Nat} (h : id ∈ span start length) :
    start ≤ id.index ∧ id.index < start + length := by
  obtain ⟨i, hi, rfl⟩ := List.mem_map.mp h
  have hrange := List.mem_range'_1.mp hi
  exact ⟨hrange.1, hrange.2⟩

mutual

/-- A tree is no higher than it has nodes. -/
theorem height_le_count (t : TreeNode) : t.height ≤ t.count := by
  cases t with
  | node construct children position =>
    have hall := heights_le_countAll children
    rw [height, count]
    omega

/-- Trees are no higher than they have nodes. -/
theorem heights_le_countAll (ts : List TreeNode) : heights ts ≤ countAll ts := by
  cases ts with
  | nil => exact Nat.le_refl 0
  | cons t rest =>
    have ht := height_le_count t
    have hrest := heights_le_countAll rest
    rw [heights, countAll]
    omega

end

mutual

/-- The nodes of a tree are laid out as its constructs are met. -/
theorem labels_layOut (start : Nat) (parent : Option NodeId) (t : TreeNode) :
    (t.layOut start parent).map (fun n => (n.construct, n.position)) = t.labels := by
  cases t with
  | node construct children position =>
    rw [layOut, List.map_cons, labels_layOutAll, labels]

/-- The nodes of trees are laid out as their constructs are met. -/
theorem labels_layOutAll (start : Nat) (parent : NodeId) (ts : List TreeNode) :
    (layOutAll start parent ts).map (fun n => (n.construct, n.position)) = labelsAll ts := by
  cases ts with
  | nil => rfl
  | cons t rest => rw [layOutAll, List.map_append, labels_layOut, labels_layOutAll, labelsAll]

end

mutual

/-- The lists of a tree that is laid out name all of its nodes but the first, each once. -/
theorem mentions_layOut (start : Nat) (parent : Option NodeId) (t : TreeNode) :
    (⟨start⟩ :: (t.layOut start parent).flatMap Node.children).Perm (span start t.count) := by
  cases t with
  | node construct children position =>
    have hall := mentions_layOutAll (start + 1) ⟨start⟩ children
    rw [layOut, List.flatMap_cons, count, span_succ]
    exact hall.cons _

/-- The lists of trees that are laid out name all of their nodes but the first ones. -/
theorem mentions_layOutAll (start : Nat) (parent : NodeId) (ts : List TreeNode) :
    (places start ts ++ (layOutAll start parent ts).flatMap Node.children).Perm
      (span start (countAll ts)) := by
  cases ts with
  | nil => exact .refl _
  | cons t rest =>
    have ht := mentions_layOut start (some parent) t
    have hrest := mentions_layOutAll (start + t.count) parent rest
    have hboth := ht.append hrest
    rw [span_append] at hboth
    rw [places, layOutAll, List.flatMap_append, countAll]
    refine List.Perm.trans ?_ hboth
    rw [List.cons_append, List.cons_append]
    exact List.Perm.cons _ (List.perm_append_comm_assoc _ _ _)

end

variable {ast : Ast}

mutual

/-- A tree that is laid out is met as it is numbered. -/
theorem explore_layOut {start : Nat} {parent : Option NodeId} {t : TreeNode}
    (h : ast.Holds start (t.layOut start parent)) {seen : List NodeId}
    (hseen : ∀ id ∈ seen, id.index < start) (pending : List NodeId) :
    ast.explore seen (⟨start⟩ :: pending) = ast.explore (seen ++ span start t.count) pending := by
  cases t with
  | node construct children position =>
    obtain ⟨hnode, hall⟩ := h.cons
    have hlist : ast.children ⟨start⟩ = places (start + 1) children := Ast.children_of_node hnode
    have hnew : (⟨start⟩ : NodeId) ∉ seen := by
      intro hm
      have hlt : start < start := hseen _ hm
      omega
    have hseen' : ∀ id ∈ seen ++ [⟨start⟩], id.index < start + 1 := by
      intro id hid
      rcases List.mem_append.mp hid with hid | hid
      · have hlt := hseen id hid
        omega
      · rw [List.mem_singleton.mp hid]
        exact Nat.lt_succ_self start
    rw [Ast.explore_new hnew, hlist, explore_layOutAll hall hseen', List.append_assoc,
      List.singleton_append, ← span_succ, count]

/-- Trees that are laid out are met as they are numbered. -/
theorem explore_layOutAll {start : Nat} {parent : NodeId} {ts : List TreeNode}
    (h : ast.Holds start (layOutAll start parent ts)) {seen : List NodeId}
    (hseen : ∀ id ∈ seen, id.index < start) (pending : List NodeId) :
    ast.explore seen (places start ts ++ pending) =
      ast.explore (seen ++ span start (countAll ts)) pending := by
  cases ts with
  | nil => rw [places, countAll, List.nil_append, span, List.range'_zero, List.map_nil,
      List.append_nil]
  | cons t rest =>
    obtain ⟨ht, hrest⟩ := h.append
    rw [length_layOut] at hrest
    have hseen' : ∀ id ∈ seen ++ span start t.count, id.index < start + t.count := by
      intro id hid
      rcases List.mem_append.mp hid with hid | hid
      · have hlt := hseen id hid
        omega
      · exact (mem_span hid).2
    rw [places, List.cons_append, explore_layOut ht hseen, explore_layOutAll hrest hseen',
      List.append_assoc, span_append, countAll]

end

mutual

/-- A node of a tree that is laid out is its first node or listed by its parent. -/
theorem listed_layOut {start : Nat} {parent : Option NodeId} {t : TreeNode}
    (h : ast.Holds start (t.layOut start parent)) {i : Nat} {node : Node} {p : NodeId}
    (hn : (t.layOut start parent)[i]? = some node) (hp : node.parent = some p) :
    (i = 0 ∧ parent = some p) ∨ ⟨start + i⟩ ∈ ast.children p := by
  cases t with
  | node construct children position =>
    obtain ⟨hnode, hall⟩ := h.cons
    cases i with
    | zero =>
      cases hn
      exact .inl ⟨rfl, hp⟩
    | succ i =>
      have hlist : ast.children ⟨start⟩ = places (start + 1) children := Ast.children_of_node hnode
      have hi : start + (i + 1) = start + 1 + i := by omega
      rw [hi]
      rcases listed_layOutAll hall hn hp with ⟨rfl, hplace⟩ | hlisted
      · exact .inr (hlist ▸ hplace)
      · exact .inr hlisted

/-- A node of trees that are laid out under a parent is one of their first nodes or listed
by its parent. -/
theorem listed_layOutAll {start : Nat} {parent : NodeId} {ts : List TreeNode}
    (h : ast.Holds start (layOutAll start parent ts)) {i : Nat} {node : Node} {p : NodeId}
    (hn : (layOutAll start parent ts)[i]? = some node) (hp : node.parent = some p) :
    (parent = p ∧ ⟨start + i⟩ ∈ places start ts) ∨ ⟨start + i⟩ ∈ ast.children p := by
  cases ts with
  | nil => cases hn
  | cons t rest =>
    obtain ⟨ht, hrest⟩ := h.append
    rw [length_layOut] at hrest
    rw [layOutAll, List.getElem?_append, length_layOut] at hn
    rw [places]
    split at hn
    next =>
      rcases listed_layOut ht hn hp with ⟨rfl, hparent⟩ | hlisted
      · exact .inl ⟨Option.some.inj hparent, List.mem_cons_self⟩
      · exact .inr hlisted
    next hle =>
      have hi : start + i = start + t.count + (i - t.count) := by omega
      rw [hi]
      rcases listed_layOutAll hrest hn hp with ⟨hparent, hplace⟩ | hlisted
      · exact .inl ⟨hparent, List.mem_cons_of_mem _ hplace⟩
      · exact .inr hlisted

end

mutual

/-- A tree that is laid out is found again at its first node. -/
theorem treeAt_layOut {start : Nat} {parent : Option NodeId} {t : TreeNode}
    (h : ast.Holds start (t.layOut start parent)) {bound : Nat} (hbound : t.height ≤ bound) :
    ast.treeAt bound ⟨start⟩ = some t := by
  cases t with
  | node construct children position =>
    obtain ⟨hnode, hall⟩ := h.cons
    rw [height] at hbound
    cases bound with
    | zero => omega
    | succ bound =>
      have hbelow : heights children ≤ bound := by omega
      exact Ast.treeAt_succ.mpr ⟨_, children, hnode, treeAt_layOutAll hall hbelow, rfl⟩

/-- Trees that are laid out are found again at their first nodes. -/
theorem treeAt_layOutAll {start : Nat} {parent : NodeId} {ts : List TreeNode}
    (h : ast.Holds start (layOutAll start parent ts)) {bound : Nat} (hbound : heights ts ≤ bound) :
    (places start ts).map (ast.treeAt bound) = ts.map some := by
  cases ts with
  | nil => rfl
  | cons t rest =>
    obtain ⟨ht, hrest⟩ := h.append
    rw [length_layOut] at hrest
    rw [heights] at hbound
    have hfirst : t.height ≤ bound := by omega
    have hothers : heights rest ≤ bound := by omega
    rw [places, List.map_cons, List.map_cons, treeAt_layOut ht hfirst,
      treeAt_layOutAll hrest hothers]

end

end TreeNode

namespace TreeDocument

/-- The document of a graph, if the graph unfolds into a tree from its root. -/
def ofAst (ast : Ast) : Option TreeDocument := do
  let root ← ast.root
  return ⟨ast.file, ← ast.treeAt ast.size root⟩

variable {d : TreeDocument}

section Numbers

variable (h : d.root.count ≤ 2 ^ 32)

include h

/-- The graph of a document has as many nodes as its tree. -/
theorem size_toAst : d.toAst.size = d.root.count := by
  rw [toAst_eq h, Ast.size, List.size_toArray, TreeNode.length_layOut]

/-- The first node links nowhere. -/
theorem parent?_root : d.toAst.parent? ⟨0⟩ = none := by
  have hholds := holds_toAst h
  cases hroot : d.root with
  | node construct children position =>
    rw [hroot] at hholds
    rw [Ast.parent?, hholds.cons.1]
    rfl

/-- A node that links to a parent is listed there. -/
theorem mem_children_of_parent? {child parent : NodeId}
    (hlink : d.toAst.parent? child = some parent) : child ∈ d.toAst.children parent := by
  obtain ⟨node, hnode, hparent⟩ := Option.bind_eq_some_iff.mp hlink
  have hn : (d.root.layOut 0 none)[child.index]? = some node := by
    rw [Ast.node?, toAst_eq h] at hnode
    simpa using hnode
  rcases TreeNode.listed_layOut (holds_toAst h) hn hparent with ⟨-, hnone⟩ | hlisted
  · cases hnone
  · rwa [Nat.zero_add] at hlisted

/-- A node that is listed links to the node that lists it. -/
theorem parent?_of_mem_children {child parent : NodeId}
    (hlisted : child ∈ d.toAst.children parent) : d.toAst.parent? child = some parent := by
  obtain ⟨c, hc, hparent⟩ := Ast.Agrees.parent_of_links (agrees_toAst h) hlisted
  rw [Ast.parent?, hc]
  exact hparent

/-- All lists together name every node but the first, each once. -/
theorem mentions_toAst :
    d.toAst.mentions.Perm ((List.range' 1 (d.toAst.size - 1)).map NodeId.mk) := by
  have hpos : d.root.count = d.root.count - 1 + 1 :=
    (Nat.sub_add_cancel d.root.count_pos).symm
  have hperm := TreeNode.mentions_layOut 0 none d.root
  rw [hpos, TreeNode.span_succ] at hperm
  rw [size_toAst h, Ast.mentions, toAst_eq h]
  exact hperm.cons_inv

/-- The nodes are met in the order of their numbers. -/
theorem preorder_toAst : d.toAst.preorder ⟨0⟩ = (List.range d.toAst.size).map NodeId.mk := by
  have hexplore : d.toAst.explore [] [⟨0⟩] =
      d.toAst.explore ([] ++ TreeNode.span 0 d.root.count) [] :=
    TreeNode.explore_layOut (holds_toAst h) (by simp) []
  rw [Ast.preorder, hexplore, Ast.explore_nil, List.nil_append, size_toAst h, TreeNode.span,
    List.range_eq_range']

/-- Unfolded from its root the graph is the document. -/
theorem ofAst_toAst : ofAst d.toAst = some d := by
  have hheight : d.root.height ≤ d.toAst.size := by
    rw [size_toAst h]
    exact TreeNode.height_le_count d.root
  have htree : d.toAst.treeAt d.toAst.size ⟨0⟩ = some d.root :=
    TreeNode.treeAt_layOut (holds_toAst h) hheight
  have hfile : d.toAst.file = d.file := by rw [toAst_eq h]
  rw [ofAst, root_toAst]
  simp only [Option.bind_eq_bind, Option.bind_some, htree, hfile, Option.pure_def]

end Numbers

/-- **Nothing of a nested document is lost** that has no more nodes than there are
identities. The nodes of its graph are numbered from zero on as the constructs of the tree
are met, and as the child lists are followed from the root, which is the first node. A node
links to a parent exactly when it is listed there, the root links nowhere, and all lists
together name every other node, each once. Unfolded from its root the graph is the document
again. -/
theorem toAst_unfolds (h : d.root.count ≤ 2 ^ 32) :
    d.toAst.root = some ⟨0⟩ ∧
    d.toAst.nodes.toList.map (fun n => (n.construct, n.position)) = d.root.labels ∧
    d.toAst.preorder ⟨0⟩ = (List.range d.toAst.size).map NodeId.mk ∧
    (∀ child parent,
      d.toAst.parent? child = some parent ↔ child ∈ d.toAst.children parent) ∧
    d.toAst.parent? ⟨0⟩ = none ∧
    d.toAst.mentions.Perm ((List.range' 1 (d.toAst.size - 1)).map NodeId.mk) ∧
    ofAst d.toAst = some d := by
  have hlabels : d.toAst.nodes.toList.map (fun n => (n.construct, n.position)) =
      d.root.labels := by
    rw [toAst_eq h]
    exact TreeNode.labels_layOut 0 none d.root
  have hlinks (child parent : NodeId) :
      d.toAst.parent? child = some parent ↔ child ∈ d.toAst.children parent :=
    ⟨mem_children_of_parent? h, parent?_of_mem_children h⟩
  exact ⟨d.root_toAst, hlabels, preorder_toAst h, hlinks, parent?_root h, mentions_toAst h,
    ofAst_toAst h⟩

/-- A file with two functions, of which the first has a statement in it. -/
def twoFunctions : TreeDocument where
  file := some ⟨"main.bal", none⟩
  root := .node .compilationUnit
    [.node (.functionDefinition "f" ⟨0⟩) [.node .returnStatement [] (some ⟨1, 4⟩)] none,
      .node (.functionDefinition "g" ⟨1⟩) [] (some ⟨3, 0⟩)] none

/-- The statement links to the first function, and the graph is the file again. -/
theorem toAst_unfolds_twoFunctions :
    twoFunctions.root.count ≤ 2 ^ 32 ∧ (⟨2⟩ : NodeId) ∈ twoFunctions.toAst.children ⟨1⟩ ∧
      twoFunctions.toAst.parent? ⟨2⟩ = some ⟨1⟩ ∧ ofAst twoFunctions.toAst = some twoFunctions := by
  have hcount : twoFunctions.root.count ≤ 2 ^ 32 := by decide
  have hlisted : (⟨2⟩ : NodeId) ∈ twoFunctions.toAst.children ⟨1⟩ := by decide +kernel
  obtain ⟨-, -, -, hlinks, -, -, hback⟩ := toAst_unfolds hcount
  exact ⟨hcount, hlisted, (hlinks ⟨2⟩ ⟨1⟩).mpr hlisted, hback⟩

end TreeDocument

end SourceScribe
