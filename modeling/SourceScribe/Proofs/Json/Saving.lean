import SourceScribe.Generator
import SourceScribe.Proofs.Json.Fitting

/-!
# Saved trees are loaded

A tree whose root is set and whose links stay inside it is saved as a document
that fits and passes all checks, so it is loaded again as it was: with the same
nodes, shared ones and links that do not agree included, the same root and the
same file. What has been parsed from any text, in either shape, is parsed again
from its compact text.
-/

namespace SourceScribe

open Json (Value)

/-- The root is set, the root and all links are in range, and identities and places
fit into their words. -/
structure Ast.InRange (ast : Ast) : Prop where
  /-- The root is set and in range. -/
  root : ∃ root, ast.root = some root ∧ ast.has root = true
  /-- The children are in range. -/
  children : ∀ n ∈ ast.nodes, ∀ id ∈ n.children, ast.has id = true
  /-- The parents are in range. -/
  parent : ∀ n ∈ ast.nodes, ∀ id ∈ n.parent, ast.has id = true
  /-- There are no more nodes than identities. -/
  size : ast.size ≤ Nat.pow 2 32
  /-- The places fit. -/
  position : ∀ n ∈ ast.nodes, ∀ p ∈ n.position, p.Fits

namespace ArenaDocument

/-- Every node of a tree is there. -/
theorem length_nodesFrom (index : Nat) (nodes : List Node) :
    (nodesFrom index nodes).length = nodes.length := by
  induction nodes generalizing index with
  | nil => rfl
  | cons n nodes ih => rw [nodesFrom, List.length_cons, List.length_cons, ih]

/-- Without their identities, the nodes are those of the tree. -/
theorem map_toNode_nodesFrom (index : Nat) (nodes : List Node) :
    (nodesFrom index nodes).map ArenaNode.toNode = nodes := by
  induction nodes generalizing index with
  | nil => rfl
  | cons n nodes ih => rw [nodesFrom, List.map_cons, ih]; rfl

/-- As long as there are identities, nodes of a tree declare their places, so they pass if
their links are in range. -/
theorem checkFrom_nodesFrom {size : Nat} {nodes : List Node}
    (h : ∀ n ∈ nodes, ∀ id ∈ n.children ++ n.parent.toList, id.index < size) (index : Nat)
    (hroom : index + nodes.length ≤ Nat.pow 2 32) :
    checkFrom size index (nodesFrom index nodes) = .ok () := by
  induction nodes generalizing index with
  | nil => rfl
  | cons n nodes ih =>
    obtain ⟨hn, hnodes⟩ := List.forall_mem_cons.mp h
    have hfind : (n.children ++ n.parent.toList).find? (fun id => size ≤ id.index) = none :=
      List.find?_eq_none.mpr fun id hid => by simpa using hn id hid
    rw [List.length_cons] at hroom
    have hid : index % Nat.pow 2 32 = index := Nat.mod_eq_of_lt (by omega)
    rw [nodesFrom, checkFrom, if_neg (fun h => h hid)]
    simp only [ArenaNode.links, hfind]
    exact ih hnodes (index + 1) (by omega)

/-- A node stands for a node of the tree, at its place. -/
theorem of_mem_nodesFrom {index : Nat} {nodes : List Node} {n : ArenaNode}
    (h : n ∈ nodesFrom index nodes) :
    n.toNode ∈ nodes ∧ n.id.index < index + nodes.length := by
  induction nodes generalizing index with
  | nil => cases h
  | cons m nodes ih =>
    rcases List.mem_cons.mp h with rfl | h
    · have hle : index % Nat.pow 2 32 ≤ index := Nat.mod_le _ _
      refine ⟨List.mem_cons_self, ?_⟩
      rw [List.length_cons]
      dsimp only
      omega
    · obtain ⟨hmem, hindex⟩ := ih h
      exact ⟨List.mem_cons_of_mem _ hmem, by rw [List.length_cons]; omega⟩

end ArenaDocument

namespace Ast.InRange

variable {ast : Ast}

/-- A node in range fits into the word of an identity. -/
theorem fits_of_has (h : ast.InRange) {id : NodeId} (hid : ast.has id = true) : id.Fits :=
  Nat.lt_of_lt_of_le (of_decide_eq_true hid) h.size

/-- The document of a tree fits. -/
theorem fits (h : ast.InRange) {root : NodeId} (hroot : ast.has root = true) :
    ArenaDocument.Fits ⟨ast.file, root, ArenaDocument.nodesFrom 0 ast.nodes.toList⟩ := by
  refine ⟨h.fits_of_has hroot, fun n hn => ?_⟩
  obtain ⟨hmem, hindex⟩ := ArenaDocument.of_mem_nodesFrom hn
  have hnode : n.toNode ∈ ast.nodes := Array.mem_toList_iff.mp hmem
  rw [Nat.zero_add, Array.length_toList] at hindex
  exact ⟨Nat.lt_of_lt_of_le hindex h.size,
    fun id hid => h.fits_of_has (h.children _ hnode id hid),
    fun id hid => h.fits_of_has (h.parent _ hnode id hid), h.position _ hnode⟩

/-- The document of a tree passes all checks and is the tree. -/
theorem toAst_nodesFrom (h : ast.InRange) {root : NodeId} (heq : ast.root = some root)
    (hroot : ast.has root = true) :
    ArenaDocument.toAst ⟨ast.file, root, ArenaDocument.nodesFrom 0 ast.nodes.toList⟩ = .ok ast := by
  have hlinks : ∀ n ∈ ast.nodes.toList, ∀ id ∈ n.children ++ n.parent.toList,
      id.index < ast.size := by
    intro n hn id hid
    have hnode : n ∈ ast.nodes := Array.mem_toList_iff.mp hn
    rcases List.mem_append.mp hid with hid | hid
    · exact of_decide_eq_true (h.children n hnode id hid)
    · exact of_decide_eq_true (h.parent n hnode id (Option.mem_toList.mp hid))
  have hlength : (ArenaDocument.nodesFrom 0 ast.nodes.toList).length = ast.size := by
    rw [ArenaDocument.length_nodesFrom, Array.length_toList]
    rfl
  have hindex : root.index < ast.size := of_decide_eq_true hroot
  have hroom : 0 + ast.nodes.toList.length ≤ 2 ^ 32 := by
    rw [Nat.zero_add, Array.length_toList]
    exact h.size
  obtain ⟨nodes, astRoot, file⟩ := ast
  simp only [ArenaDocument.toAst, hlength, ArenaDocument.checkFrom_nodesFrom hlinks 0 hroom, bind,
    Except.bind, hindex, if_true, ArenaDocument.map_toNode_nodesFrom, ← heq]
  rfl

/-- A tree is saved, and what is saved is loaded as the tree. -/
theorem save_load (h : ast.InRange) :
    ∃ text, Document.save ast = .ok text ∧ Document.load text = .ok ast := by
  obtain ⟨root, heq, hroot⟩ := h.root
  let d : Document := .arena ⟨ast.file, root, ArenaDocument.nodesFrom 0 ast.nodes.toList⟩
  have hparse : Document.parse d.toValue.pretty = .ok d :=
    Document.Fits.parse_pretty (h.fits hroot)
  refine ⟨d.toValue.pretty, ?_, ?_⟩
  · simp only [Document.save, ArenaDocument.ofAst, heq]
    rfl
  · rw [Document.load, hparse]
    exact h.toAst_nodesFrom heq hroot

end Ast.InRange

/-- Every tree in range is saved as a text that is loaded as a tree with the same
nodes, root and file, which is saved as the same text and generated in the same
way. Every document that is parsed from a text is parsed again, in the same shape,
from its compact text. -/
theorem Document.texts_restore_documents :
    (∀ ast : Ast, ast.InRange → ∃ text loaded, save ast = .ok text ∧ load text = .ok loaded ∧
      loaded.nodes = ast.nodes ∧ loaded.root = ast.root ∧ loaded.file = ast.file ∧
      save loaded = .ok text ∧ (∀ g : Generator, g.generate loaded = g.generate ast) ∧
      ∀ (g : Generator) (file : String),
        g.generateWithMap loaded file = g.generateWithMap ast file) ∧
    ∀ (text : String) (d : Document), parse text = .ok d → parse d.toValue.compact = .ok d := by
  refine ⟨fun ast h => ?_, fun text d h => parse_compact_of_parse h⟩
  obtain ⟨text, hsave, hload⟩ := h.save_load
  exact ⟨text, ast, hsave, hload, rfl, rfl, rfl, hsave, fun _ => rfl, fun _ _ => rfl⟩

/-- A tree in which a node stands twice below the root, names itself as its parent and
has a flag without a name. -/
def sharedTree : Ast where
  nodes := #[⟨.compilationUnit, [⟨1⟩, ⟨1⟩], none, none⟩,
    ⟨.functionDefinition "main" ⟨7⟩, [], some ⟨1⟩, some ⟨0, 2⟩⟩]
  root := some ⟨0⟩
  file := some ⟨"main.bal", none⟩

/-- The tree is in range. -/
theorem sharedTree_inRange : sharedTree.InRange := by
  refine ⟨⟨⟨0⟩, rfl, rfl⟩, ?_, ?_, ?_, ?_⟩
  · simp [sharedTree, Ast.has, Ast.size]
  · simp [sharedTree, Ast.has, Ast.size]
  · simp [sharedTree, Ast.size]
  · simp [sharedTree, SourcePosition.Fits]

/-- A document of the tree shape whose root is written as an array. -/
def nestedText : String :=
  "\x7b\"root\":[[\"CompilationUnit\"],[\x7b\"kind\":\x7b\"name\":\"f\"," ++
    "\"type\":\"StructDefinition\"\x7d\x7d]]\x7d"

/-- What the document holds. -/
def nestedDocument : Document :=
  .tree ⟨none, .node .compilationUnit [.node (.structDefinition "f") [] none] none⟩

/-- Whether that document has been parsed. -/
def parsesNested : Except Json.Error Document → Bool
  | .ok (.tree ⟨none, .node .compilationUnit [.node (.structDefinition name) [] none] none⟩) =>
    name == "f"
  | _ => false

/-- The document is parsed. -/
theorem parse_nestedText : Document.parse nestedText = .ok nestedDocument := by
  have hnested : parsesNested (Document.parse nestedText) = true := by decide +kernel
  unfold parsesNested at hnested
  split at hnested
  next name heq => rw [heq, eq_of_beq hnested, nestedDocument]
  next => cases hnested

/-- The shared node is loaded as it was saved, and the nested document is parsed
again as it was parsed. -/
theorem Document.texts_restore_documents_sharedTree :
    (∃ text loaded, save sharedTree = .ok text ∧ load text = .ok loaded ∧
      loaded.nodes = sharedTree.nodes ∧ save loaded = .ok text) ∧
    parse nestedDocument.toValue.compact = .ok nestedDocument := by
  obtain ⟨text, loaded, hsave, hload, hnodes, _, _, hagain, _⟩ :=
    texts_restore_documents.1 sharedTree sharedTree_inRange
  exact ⟨⟨text, loaded, hsave, hload, hnodes, hagain⟩,
    texts_restore_documents.2 nestedText nestedDocument parse_nestedText⟩

end SourceScribe
