import SourceScribe.Proofs.Atomicity
import SourceScribe.Proofs.Loading

/-!
# Graphs made by calls

A graph that is made by calls alone cannot be broken. What a call leaves, be it done
or refused, keeps the links in order: all that is named is there, and what has a
parent is listed under it. As long as no call shares a child and there are no more
nodes than identities, each node is listed at most once, and exactly under its parent.
-/

namespace SourceScribe

namespace Ast

variable {ast : Ast} {edits more : List Edit}

/-- The graph behind some calls, refused ones among them. -/
def edited (ast : Ast) : List Edit → Ast
  | [] => ast
  | e :: rest =>
    match e.perform ast with
    | .ok _ next => next.edited rest
    | .error _ next => next.edited rest

/-- Whether some of the calls shares a child and is not refused. -/
def sharesIn (ast : Ast) : List Edit → Bool
  | [] => false
  | e :: rest =>
    match e.perform ast with
    | .ok _ next => e.shares || next.sharesIn rest
    | .error _ next => next.sharesIn rest

/-- A call that is done leaves what it makes. -/
theorem edited_of_ok {e : Edit} {id : Option NodeId} {next : Ast} (h : e.perform ast = .ok id next)
    (rest : List Edit) : ast.edited (e :: rest) = next.edited rest := by
  rw [edited, h]

/-- A call that is refused leaves what it has made before. -/
theorem edited_of_error {e : Edit} {stop : Stop} {next : Ast} (h : e.perform ast = .error stop next)
    (rest : List Edit) : ast.edited (e :: rest) = next.edited rest := by
  rw [edited, h]

/-- A call that is done shares, or one of the others does. -/
theorem sharesIn_of_ok {e : Edit} {id : Option NodeId} {next : Ast}
    (h : e.perform ast = .ok id next) (rest : List Edit) :
    ast.sharesIn (e :: rest) = (e.shares || next.sharesIn rest) := by
  rw [sharesIn, h]

/-- A call that is refused does not share. -/
theorem sharesIn_of_error {e : Edit} {stop : Stop} {next : Ast}
    (h : e.perform ast = .error stop next) (rest : List Edit) :
    ast.sharesIn (e :: rest) = next.sharesIn rest := by
  rw [sharesIn, h]

/-- No call takes a node away. -/
theorem size_le_edited (ast : Ast) (edits : List Edit) : ast.size ≤ (ast.edited edits).size := by
  induction edits generalizing ast with
  | nil => exact Nat.le_refl _
  | cons e rest ih =>
    rcases e.perform_cases ast with ⟨error, h, -⟩ | ⟨next, h, hok⟩ | ⟨error, construct, h, -, -⟩
    · rw [edited_of_error h]
      exact ih ast
    · rw [edited_of_ok h]
      exact Nat.le_trans (size_apply hok).1 (ih next)
    · rw [edited_of_error h]
      have hle := ih (ast.add construct).1
      rw [size_add] at hle
      exact Nat.le_of_succ_le hle

/-- Calls keep the links in order. -/
theorem Linked.edited (h : ast.Linked) (edits : List Edit) : (ast.edited edits).Linked := by
  induction edits generalizing ast with
  | nil => exact h
  | cons e rest ih =>
    rcases e.perform_cases ast with
      ⟨error, hp, -⟩ | ⟨next, hp, hok⟩ | ⟨error, construct, hp, -, -⟩
    · rw [edited_of_error hp]
      exact ih h
    · rw [edited_of_ok hp]
      exact ih (h.apply hok)
    · rw [edited_of_error hp]
      exact ih (h.add construct)

/-- Calls of which none shares keep the lists unshared, as long as there are no more nodes
than identities. -/
theorem Unshared.edited (h : ast.Unshared) (hl : ast.Linked)
    (hshares : ast.sharesIn edits = false) (hroom : (ast.edited edits).size ≤ 2 ^ 32) :
    (ast.edited edits).Unshared := by
  induction edits generalizing ast with
  | nil => exact h
  | cons e rest ih =>
    rcases e.perform_cases ast with
      ⟨error, hp, -⟩ | ⟨next, hp, hok⟩ | ⟨error, construct, hp, -, -⟩
    · rw [edited_of_error hp] at hroom ⊢
      rw [sharesIn_of_error hp] at hshares
      exact ih h hl hshares hroom
    · rw [edited_of_ok hp] at hroom ⊢
      rw [sharesIn_of_ok hp, Bool.or_eq_false_iff] at hshares
      have hsize : next.size ≤ 2 ^ 32 := Nat.le_trans (next.size_le_edited rest) hroom
      exact ih (h.apply hl hok hshares.1 hsize) (hl.apply hok) hshares.2 hroom
    · rw [edited_of_error hp] at hroom ⊢
      rw [sharesIn_of_error hp] at hshares
      exact ih (h.add construct) (hl.add construct) hshares hroom

end Ast

/-- No request about a graph fails for want of a node. -/
structure Generator.FindsAll (g : Generator) (ast : Ast) : Prop where
  /-- The text of the graph does not. -/
  text : ∀ node path, g.generate ast ≠ .error (.unknownNode node path)
  /-- The text with its map does not. -/
  map : ∀ file node path, g.generateWithMap ast file ≠ .error (.unknownNode node path)
  /-- The text of a node that is there does not. -/
  node : ∀ id, ast.has id = true → ∀ node path,
    g.generateNode ast id ≠ .error (.unknownNode node path)

/-- When the root and all children are there, no request fails for want of a node. -/
theorem Ast.Contained.findsAll {ast : Ast} (h : ast.Contained) {g : Generator}
    (hg : g.registry.Stock) : g.FindsAll ast := by
  have hnode : ∀ id, ast.has id = true → ∀ node path,
      g.generateNode ast id ≠ .error (.unknownNode node path) := by
    intro id hid node path herror
    obtain ⟨p, hrun⟩ := Generator.generateNode_eq_error.mp herror
    obtain ⟨m, next, raised, hfailure⟩ := Request.exists_failure hg hrun
    exact hfailure.ne_unknown hid h.children node path rfl
  refine ⟨?_, ?_, hnode⟩
  · intro node path herror
    cases hroot : ast.root with
    | none => simp [Generator.generate, Generator.rootOf, hroot, bind, Except.bind] at herror
    | some root =>
      refine hnode root (h.root root hroot) node path ?_
      simpa only [Generator.generate, Generator.rootOf, hroot, bind, Except.bind] using herror
  · intro file node path herror
    cases hroot : ast.root with
    | none => simp [Generator.generateWithMap, Generator.rootOf, hroot, bind, Except.bind] at herror
    | some root =>
      rcases Generator.generateWithMap_eq_error hroot herror with he | ⟨refusal, hmap⟩
      · refine hnode root (h.root root hroot) node path ?_
        simp only [Generator.generateNode, he, bind, Except.bind]
      · cases hmap

/-- **What calls keep.** However a graph is made from a new one by calls, refused ones
among them: the children, the parents and the root that it names are there, so that no
request fails for want of a node, and a node that has a parent is listed under it. As
long as no child has been shared and there are no more nodes than identities, each node
is listed at most once in all lists together, and exactly under its parent. -/
theorem edits_keep_links (start : Option Construct) (edits : List Edit) :
    ((Ast.created start).edited edits).Contained ∧
    (∀ g : Generator, g.registry.Stock → g.FindsAll ((Ast.created start).edited edits)) ∧
    (∀ child parent, ((Ast.created start).edited edits).parent? child = some parent →
      child ∈ ((Ast.created start).edited edits).children parent) ∧
    ((Ast.created start).sharesIn edits = false →
      ((Ast.created start).edited edits).size ≤ 2 ^ 32 →
      ((Ast.created start).edited edits).mentions.Nodup ∧
      ∀ child parent, child ∈ ((Ast.created start).edited edits).children parent ↔
        ((Ast.created start).edited edits).parent? child = some parent) := by
  have hlinked := (Ast.linked_created start).edited edits
  refine ⟨hlinked.contained, fun g hg => hlinked.contained.findsAll hg, hlinked.listed, ?_⟩
  intro hshares hroom
  have hunshared := (Ast.unshared_created start).edited (Ast.linked_created start) hshares hroom
  exact ⟨hunshared.nodup_mentions, fun child parent =>
    ⟨hunshared.back parent child, hlinked.listed child parent⟩⟩

/-- Statements that are inserted, moved from one block to another and put into
themselves; the last two calls are refused. -/
def movedStatements : List Edit :=
  [.appendChild ⟨0⟩ .breakStatement, .add .blockStatement, .removeChild ⟨0⟩ ⟨1⟩,
    .attach ⟨2⟩ ⟨1⟩, .insertChild ⟨0⟩ 0 .returnStatement, .attach ⟨2⟩ ⟨2⟩, .attach ⟨0⟩ ⟨2⟩,
    .setRoot ⟨7⟩]

/-- A statement that is shared by its own parent and removed once. -/
def sharedStatement : List Edit :=
  [.appendChild ⟨0⟩ .breakStatement, .shareChild ⟨0⟩ ⟨1⟩, .removeChild ⟨0⟩ ⟨1⟩]

/-- The moved statements are listed where they are linked to, the block under itself; the
shared statement is still listed under its parent. -/
theorem edits_keep_links_movedStatements :
    ((Ast.created (some .blockStatement)).sharesIn movedStatements = false ∧
      ((Ast.created (some .blockStatement)).edited movedStatements).size ≤ 2 ^ 32 ∧
      ((Ast.created (some .blockStatement)).edited movedStatements).mentions.Nodup ∧
      (⟨2⟩ : NodeId) ∈
        ((Ast.created (some .blockStatement)).edited movedStatements).children ⟨2⟩) ∧
    (Generator.FindsAll {} ((Ast.created (some .blockStatement)).edited sharedStatement) ∧
      (⟨1⟩ : NodeId) ∈
        ((Ast.created (some .blockStatement)).edited sharedStatement).children ⟨0⟩) := by
  have hmoved := edits_keep_links (some .blockStatement) movedStatements
  have hshared := edits_keep_links (some .blockStatement) sharedStatement
  have hshares : (Ast.created (some .blockStatement)).sharesIn movedStatements = false := by
    decide +kernel
  have hroom : ((Ast.created (some .blockStatement)).edited movedStatements).size ≤ 2 ^ 32 := by
    decide +kernel
  obtain ⟨hnodup, hiff⟩ := hmoved.2.2.2 hshares hroom
  exact ⟨⟨hshares, hroom, hnodup, (hiff ⟨2⟩ ⟨2⟩).mpr (by decide +kernel)⟩,
    hshared.2.1 {} Registry.stock_standard, hshared.2.2.1 ⟨1⟩ ⟨0⟩ (by decide +kernel)⟩

/-! ### When identities begin again -/

/-- So many statements without links, of which the first is attached to the second; then a
statement is inserted under the third. -/
def crowding (n : Nat) : List Edit :=
  List.replicate n (.add .breakStatement) ++
    [.attach ⟨1⟩ ⟨0⟩, .insertChild ⟨2⟩ 0 .breakStatement]

namespace Ast

variable {ast : Ast}

/-- Nodes that are added stand behind the others, and nothing is shared. -/
theorem edited_adds (ast : Ast) (n : Nat) (construct : Construct) (rest : List Edit) :
    ast.edited (List.replicate n (.add construct) ++ rest) =
        (ast.laid (List.replicate n { construct := construct })).edited rest ∧
      ast.sharesIn (List.replicate n (.add construct) ++ rest) =
        (ast.laid (List.replicate n { construct := construct })).sharesIn rest := by
  induction n generalizing ast with
  | zero =>
    have hsame : ast.laid [] = ast := ext_toList (by simp) rfl rfl
    rw [List.replicate_zero, List.replicate_zero, List.nil_append, hsame]
    exact ⟨rfl, rfl⟩
  | succ n ih =>
    have hadded : (ast.add construct).1 = ast.laid [{ construct := construct }] :=
      ext_toList (by simp [add, push]) rfl rfl
    have hperformed : (Edit.add construct).perform ast = .ok (some ast.nextId)
        (ast.laid [{ construct := construct }]) := hadded ▸ rfl
    obtain ⟨hedited, hshares⟩ := ih (ast.laid [{ construct := construct }])
    rw [laid_laid, List.singleton_append, ← List.replicate_succ] at hedited hshares
    rw [List.replicate_succ, List.cons_append, edited_of_ok hperformed, sharesIn_of_ok hperformed]
    exact ⟨hedited, hshares⟩

/-- In a graph with as many nodes as identities, whose first node is free, the first node is
listed twice behind the last calls of the crowding. -/
theorem edited_crowded (hsize : ast.size = 2 ^ 32) (hfree : ast.parent? ⟨0⟩ = none) :
    ast.sharesIn [.attach ⟨1⟩ ⟨0⟩, .insertChild ⟨2⟩ 0 .breakStatement] = false ∧
      ∃ next, ast.edited [.attach ⟨1⟩ ⟨0⟩, .insertChild ⟨2⟩ 0 .breakStatement] = next ∧
        (⟨0⟩ : NodeId) ∈ next.children ⟨1⟩ ∧ (⟨0⟩ : NodeId) ∈ next.children ⟨2⟩ ∧
          next.parent? ⟨0⟩ = some ⟨2⟩ := by
  have hhas (i : Nat) (hi : i < 2 ^ 32) : ast.has ⟨i⟩ = true := by
    rw [has, hsize]
    exact decide_eq_true hi
  -- The first node is attached to the second.
  have hattach := attach_of_free (hhas 1 (by decide)) (hhas 0 (by decide)) hfree
  obtain ⟨-, -, -, hlinks⟩ := attach_eq_ok hattach
  have hfirst := Edit.perform_eq ast (.attach ⟨1⟩ ⟨0⟩) fun h => absurd h (by decide)
  rw [Edit.apply, hattach] at hfirst
  generalize (ast.modify ⟨0⟩ _).modify ⟨1⟩ _ = linked at hattach hlinks hfirst
  -- The inserted node gets the identity of the first.
  have hstays : linked.size = 2 ^ 32 := hsize ▸ Nat.le_antisymm
    (size_le_of_has fun x hx => (hlinks.has x).symm.trans hx)
    (size_le_of_has fun x hx => (hlinks.has x).trans hx)
  have hid : linked.nextId = ⟨0⟩ := nextId_of_eq hstays
  have hinsert := insertChild_of_le ((hlinks.has ⟨2⟩).trans (hhas 2 (by decide)))
    (Nat.zero_le _) .breakStatement
  obtain ⟨-, -, hlinks'⟩ := insertChild_eq_ok hinsert
  have hsecond := Edit.perform_eq linked (.insertChild ⟨2⟩ 0 .breakStatement) fun h =>
    absurd h (by decide)
  rw [Edit.apply, hinsert] at hsecond
  generalize linked.adopted ⟨2⟩ .breakStatement _ = next at hinsert hlinks' hsecond
  rw [edited_of_ok hfirst, edited_of_ok hsecond, sharesIn_of_ok hfirst, sharesIn_of_ok hsecond]
  rw [hid] at hlinks'
  refine ⟨rfl, next, rfl, ?_, ?_, ?_⟩
  · rw [hlinks'.children, if_neg (by decide), children_add, hlinks.children, if_pos rfl]
    exact List.mem_append_right _ List.mem_cons_self
  · rw [hlinks'.children, if_pos rfl, List.insertIdx_zero]
    exact List.mem_cons_self
  · rw [hlinks'.parents, if_pos rfl]

/-- A graph of statements that have just been added has as many as it should, and the first is
free. -/
theorem crowd_added (n : Nat) (construct : Construct) :
    ((created none).laid (List.replicate n { construct := construct })).size = n ∧
      ((created none).laid (List.replicate n { construct := construct })).parent? ⟨0⟩ = none := by
  constructor
  · rw [size_laid, List.length_replicate]
    exact Nat.zero_add n
  · cases n <;> simp [parent?, node?, laid, created, empty, List.replicate_succ]

end Ast

/-- Where there are as many statements as identities, a statement that is inserted gets the
identity of the first: that is listed twice then, and under one of the two it is not linked
back, although no call has shared a child. -/
theorem insertChild_lists_again :
    (Ast.created none).sharesIn (crowding (2 ^ 32)) = false ∧
      ∃ ast, (Ast.created none).edited (crowding (2 ^ 32)) = ast ∧
        (⟨0⟩ : NodeId) ∈ ast.children ⟨1⟩ ∧ (⟨0⟩ : NodeId) ∈ ast.children ⟨2⟩ ∧
          ast.parent? ⟨0⟩ = some ⟨2⟩ := by
  obtain ⟨hedited, hshares⟩ := (Ast.created none).edited_adds (2 ^ 32) .breakStatement
    [.attach ⟨1⟩ ⟨0⟩, .insertChild ⟨2⟩ 0 .breakStatement]
  obtain ⟨hsize, hfree⟩ := Ast.crowd_added (2 ^ 32) .breakStatement
  rw [crowding, hedited, hshares]
  exact Ast.edited_crowded hsize hfree

end SourceScribe
