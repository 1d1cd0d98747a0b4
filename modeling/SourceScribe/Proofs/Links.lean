import Mathlib.Logic.Relation
import Mathlib.Data.List.Chain
import Mathlib.Data.List.Nodup
import Mathlib.Data.List.Perm.Subperm
import SourceScribe.Ast.Basic

/-!
# Child links

The child links of a syntax tree make a graph in which nodes may be shared,
links may lead nowhere and cycles may occur. A simple path never has more nodes
than the tree, and a trail is a simple path along the links. From a node that
starts no endless descent no cycle can be reached.
-/

namespace SourceScribe.Ast

open Relation (ReflTransGen TransGen)

variable {ast : Ast}

/-- The second node is listed under the first. -/
def Links (ast : Ast) (parent child : NodeId) : Prop := child ∈ ast.children parent

/-- The second node is the first, or lies below it. -/
def Reaches (ast : Ast) : NodeId → NodeId → Prop := ReflTransGen ast.Links

/-- Some node that can be reached lies below itself. -/
def ReachesCycle (ast : Ast) (start : NodeId) : Prop :=
  ∃ id, ast.Reaches start id ∧ TransGen ast.Links id id

/-- No endless descent starts at the node. -/
def Founded (ast : Ast) (id : NodeId) : Prop := Acc (fun child parent => ast.Links parent child) id

/-- A node is there exactly when it is found. -/
theorem has_iff {id : NodeId} : ast.has id = true ↔ ∃ node, ast.node? id = some node := by
  simp only [has, size, node?, Array.getElem?_eq_some_iff]
  constructor
  · intro h
    exact ⟨_, of_decide_eq_true h, rfl⟩
  · rintro ⟨_, h, _⟩
    exact decide_eq_true h

/-- The children of a node that is found are those it lists. -/
theorem children_of_node {id : NodeId} {node : Node} (h : ast.node? id = some node) :
    ast.children id = node.children := by
  simp only [children, h, Option.map_some, Option.getD_some]

/-- The kind of a node that is found is the one it has. -/
theorem tag_of_node {id : NodeId} {node : Node} (h : ast.node? id = some node) :
    ast.tag? id = some node.tag := by
  simp only [tag?, h, Option.map_some]

/-- A node that is not there lists nothing. -/
theorem children_eq_nil {id : NodeId} (h : ast.has id = false) : ast.children id = [] := by
  have hn : ast.node? id = none := by
    rw [Option.eq_none_iff_forall_ne_some]
    intro node hnode
    rw [has_iff.mpr ⟨node, hnode⟩] at h
    contradiction
  simp only [children, hn, Option.map_none, Option.getD_none]

/-- What lies below a founded node is founded. -/
theorem Founded.reaches {start id : NodeId} (hf : ast.Founded start) (h : ast.Reaches start id) :
    ast.Founded id := by
  induction h with
  | refl => exact hf
  | tail _ hl ih => exact ih.inv hl

/-- No founded node lies below itself. -/
theorem Founded.not_below_itself {id : NodeId} (hf : ast.Founded id) :
    ¬TransGen ast.Links id id := by
  have ht : Acc (TransGen fun child parent => ast.Links parent child) id := hf.transGen
  induction ht with
  | intro id _ ih =>
    intro hc
    have hback : TransGen (fun child parent => ast.Links parent child) id id :=
      Relation.transGen_swap.mp hc
    exact ih id hback hf hc

/-- No cycle can be reached from a founded node. -/
theorem Founded.not_reachesCycle {start : NodeId} (hf : ast.Founded start) :
    ¬ast.ReachesCycle start := by
  rintro ⟨id, hr, hc⟩
  exact (hf.reaches hr).not_below_itself hc

/-- A cycle below a child lies below its parent too. -/
theorem ReachesCycle.of_link {parent child : NodeId} (hl : ast.Links parent child)
    (h : ast.ReachesCycle child) : ast.ReachesCycle parent := by
  obtain ⟨id, hr, hc⟩ := h
  exact ⟨id, ReflTransGen.head hl hr, hc⟩

/-- A path on which no node stands twice. -/
structure Simple (ast : Ast) (path : List NodeId) : Prop where
  /-- No node stands on the path twice. -/
  nodup : path.Nodup
  /-- Every node of the path is there. -/
  known : ∀ id ∈ path, ast.has id = true

namespace Simple

/-- The path without nodes. -/
theorem nil : ast.Simple [] := ⟨List.nodup_nil, by simp⟩

/-- A path goes on with a new node. -/
theorem push {path : List NodeId} {id : NodeId} (hs : ast.Simple path) (hk : ast.has id = true)
    (hn : id ∉ path) : ast.Simple (id :: path) where
  nodup := List.nodup_cons.mpr ⟨hn, hs.nodup⟩
  known := by
    intro x hx
    rcases List.mem_cons.mp hx with rfl | hx
    · exact hk
    · exact hs.known x hx

/-- The path behind the first node. -/
theorem pop {path : List NodeId} {id : NodeId} (hs : ast.Simple (id :: path)) :
    ast.Simple path where
  nodup := (List.nodup_cons.mp hs.nodup).2
  known x hx := hs.known x (List.mem_cons_of_mem id hx)

/-- A path has no more nodes than the tree. -/
theorem length_le {path : List NodeId} (hs : ast.Simple path) : path.length ≤ ast.size := by
  have hinj : Function.Injective NodeId.index := by
    rintro ⟨a⟩ ⟨b⟩ hab
    exact congrArg NodeId.mk hab
  have hnodup : (path.map NodeId.index).Nodup := hs.nodup.map hinj
  have hsub : path.map NodeId.index ⊆ List.range ast.size := by
    intro i hi
    obtain ⟨id, hid, rfl⟩ := List.mem_map.mp hi
    have hk := hs.known id hid
    simpa only [has, decide_eq_true_eq, List.mem_range] using hk
  have hle := (List.subperm_of_subset hnodup hsub).length_le
  simpa only [List.length_map, List.length_range] using hle

end Simple

/-- A simple path along child links, from its last node down to its first. -/
structure Trail (ast : Ast) (path : List NodeId) : Prop extends ast.Simple path where
  /-- Every node is listed under the one behind it. -/
  linked : path.IsChain fun inner outer => ast.Links outer inner

namespace Trail

/-- The path without nodes. -/
theorem nil : ast.Trail [] := ⟨Simple.nil, List.isChain_nil⟩

/-- A path goes on with a new node that is listed under its first. -/
theorem push {path : List NodeId} {id : NodeId} (ht : ast.Trail path) (hk : ast.has id = true)
    (hn : id ∉ path) (hl : ∀ outer ∈ path.head?, ast.Links outer id) : ast.Trail (id :: path) where
  toSimple := ht.toSimple.push hk hn
  linked := List.isChain_cons.mpr ⟨hl, ht.linked⟩

/-- The path behind the first node. -/
theorem pop {path : List NodeId} {id : NodeId} (ht : ast.Trail (id :: path)) : ast.Trail path where
  toSimple := ht.toSimple.pop
  linked := ht.linked.tail

/-- The first node of a path lies below all others. -/
theorem below_all {path : List NodeId} {id : NodeId} (ht : ast.Trail (id :: path)) :
    ∀ outer ∈ path, TransGen ast.Links outer id := by
  induction path generalizing id with
  | nil => simp
  | cons next path ih =>
    have hl : ast.Links next id := ht.linked.rel
    intro outer ho
    rcases List.mem_cons.mp ho with rfl | ho
    · exact TransGen.single hl
    · exact (ih ht.pop outer ho).tail hl

/-- A node of a path that is listed under its first node lies below itself. -/
theorem closes {path : List NodeId} {id : NodeId} (ht : ast.Trail path) (hm : id ∈ path)
    (hl : ∀ outer ∈ path.head?, ast.Links outer id) : TransGen ast.Links id id := by
  cases path with
  | nil => simp at hm
  | cons first path =>
    have hfirst : ast.Links first id := hl first rfl
    rcases List.mem_cons.mp hm with rfl | hm
    · exact TransGen.single hfirst
    · exact (ht.below_all id hm).tail hfirst

/-- The nodes of a path are reached from its last. -/
theorem reaches {path : List NodeId} {root : NodeId} (ht : ast.Trail path)
    (hroot : ∀ id ∈ path.getLast?, id = root) : ∀ id ∈ path, ast.Reaches root id := by
  induction path with
  | nil => simp
  | cons id path ih =>
    rw [List.forall_mem_cons]
    cases path with
    | nil =>
      refine ⟨?_, by simp⟩
      rw [hroot id rfl]
      exact .refl
    | cons outer path =>
      have houter := ih ht.pop hroot
      exact ⟨(houter outer List.mem_cons_self).tail ht.linked.rel, houter⟩

end Trail

end SourceScribe.Ast
