import SourceScribe.Proofs.Printer
import SourceScribe.Proofs.Settled

/-!
# Graphs that are trees

The child links below a root make a tree when every node that can be reached is
there and is listed at exactly one place, the root at none. A way down from the
root then never comes back to a node that it has passed, because the node would
be listed at two places; so the graph unfolds into a tree whose nodes stand
inside each other. What lies below two children of a node is disjoint.
-/

namespace SourceScribe

open Relation (ReflTransGen TransGen)

namespace Ast

variable {ast : Ast} {root : NodeId}

/-- The child links below a root make a tree, and the parent links are there. -/
structure TreeShaped (ast : Ast) (root : NodeId) : Prop where
  /-- Every node that can be reached is there. -/
  known : ∀ id, ast.Reaches root id → ast.has id = true
  /-- Every node but the root is listed at one place. -/
  once : ∀ id, ast.Reaches root id → id ≠ root →
    ∃! place : NodeId × Nat, ast.Reaches root place.1 ∧ (ast.children place.1)[place.2]? = some id
  /-- Every node but the root has a parent link. -/
  attached : ∀ id, ast.Reaches root id → id ≠ root → ast.Attached id
  /-- The root is not listed. -/
  rootless : ∀ id, ast.Reaches root id → root ∉ ast.children id

namespace TreeShaped

variable (h : ast.TreeShaped root) {id c d x a b : NodeId}

include h

/-- What is listed is not the root. -/
theorem ne_root (ha : ast.Reaches root a) (hl : ast.Links a c) : c ≠ root := by
  rintro rfl
  exact h.rootless a ha hl

/-- A child is attached. -/
theorem attached_child (ha : ast.Reaches root a) (hl : ast.Links a c) : ast.Attached c :=
  h.attached c (ha.tail hl) (h.ne_root ha hl)

/-- A node is listed under one node only. -/
theorem parent_unique (ha : ast.Reaches root a) (hb : ast.Reaches root b) (hac : ast.Links a c)
    (hbc : ast.Links b c) : a = b := by
  obtain ⟨i, hi⟩ := List.mem_iff_getElem?.mp hac
  obtain ⟨j, hj⟩ := List.mem_iff_getElem?.mp hbc
  have hplaces : (a, i) = (b, j) :=
    (h.once c (ha.tail hac) (h.ne_root ha hac)).unique ⟨ha, hi⟩ ⟨hb, hj⟩
  exact congrArg Prod.fst hplaces

/-- No node lists a child twice. -/
theorem nodup_children (ha : ast.Reaches root a) : (ast.children a).Nodup := by
  rw [List.nodup_iff_getElem?_ne_getElem?]
  intro i j hij hj heq
  have hc : (ast.children a)[j]? = some (ast.children a)[j] := List.getElem?_eq_getElem hj
  have hl : ast.Links a (ast.children a)[j] := List.getElem_mem hj
  have hplaces : (a, i) = (a, j) :=
    (h.once _ (ha.tail hl) (h.ne_root ha hl)).unique ⟨ha, heq.trans hc⟩ ⟨ha, hc⟩
  have hsame : i = j := congrArg Prod.snd hplaces
  omega

/-- No node below the root lies below itself. -/
theorem acyclic (hr : ast.Reaches root id) : ¬TransGen ast.Links id id := by
  induction hr with
  | refl =>
    intro hc
    obtain ⟨parent, hparent, hl⟩ := (TransGen.tail'_iff).mp hc
    exact h.rootless parent hparent hl
  | @tail a c ha hl ih =>
    intro hc
    obtain ⟨parent, hparent, hl'⟩ := (TransGen.tail'_iff).mp hc
    have hsame : parent = a := h.parent_unique ((ha.tail hl).trans hparent) ha hl' hl
    rw [hsame] at hparent
    exact ih (TransGen.head' hl hparent)

/-- What lies below two children of a node is disjoint. -/
theorem disjoint (ha : ast.Reaches root a) (hc : ast.Links a c) (hd : ast.Links a d) (hne : c ≠ d)
    (hcx : ast.Reaches c x) : ¬ast.Reaches d x := by
  -- the parent of a child is the node itself, and no child leads back to it
  have hback : ∀ {y z}, ast.Links a y → ast.Reaches y z → ¬ast.Links z c ∧ ¬ast.Links z d := by
    intro y z hy hz
    have hrz : ast.Reaches root z := (ha.tail hy).trans hz
    constructor
    · intro hl
      have hsame : z = a := h.parent_unique hrz ha hl hc
      exact h.acyclic ha (TransGen.head' hy (hsame ▸ hz))
    · intro hl
      have hsame : z = a := h.parent_unique hrz ha hl hd
      exact h.acyclic ha (TransGen.head' hy (hsame ▸ hz))
  induction hcx with
  | refl =>
    intro hdc
    rcases ReflTransGen.cases_tail hdc with heq | ⟨z, hz, hl⟩
    · exact hne heq
    · exact (hback hd hz).1 hl
  | @tail y x hcy hl ih =>
    intro hdx
    rcases ReflTransGen.cases_tail hdx with heq | ⟨z, hz, hl'⟩
    · rw [heq] at hl
      exact (hback hc hcy).2 hl
    · have hy : ast.Reaches root y := (ha.tail hc).trans hcy
      have hz' : ast.Reaches root z := (ha.tail hd).trans hz
      rw [h.parent_unique hz' hy hl' hl] at hz
      exact ih hz

end TreeShaped

/-- A list of trees is found when each of them is. -/
theorem mapM_eq_some {α β : Type} {f : α → Option β} {as : List α} {bs : List β} :
    as.mapM f = some bs ↔ as.map f = bs.map some := by
  induction as generalizing bs with
  | nil => cases bs <;> simp
  | cons a as ih =>
    simp only [List.mapM_cons, Option.bind_eq_bind, Option.bind_eq_some_iff, Option.pure_def,
      Option.some.injEq, ih, List.map_cons]
    constructor
    · rintro ⟨b, hb, rest, hrest, rfl⟩
      rw [hb, hrest, List.map_cons]
    · intro h
      cases bs with
      | nil => cases h
      | cons b bs =>
        obtain ⟨hb, hrest⟩ := List.cons.inj h
        exact ⟨b, hb, bs, hrest, rfl⟩

/-- Trees that are found one by one are found together. -/
theorem exists_map_some {α β : Type} {f : α → Option β} {as : List α}
    (h : ∀ a ∈ as, ∃ b, f a = some b) : ∃ bs : List β, as.map f = bs.map some := by
  induction as with
  | nil => exact ⟨[], rfl⟩
  | cons a as ih =>
    obtain ⟨b, hb⟩ := h a List.mem_cons_self
    obtain ⟨bs, hbs⟩ := ih fun a ha => h a (List.mem_cons_of_mem _ ha)
    exact ⟨b :: bs, by rw [List.map_cons, List.map_cons, hb, hbs]⟩

/-- What the tree at a node says of the node. -/
theorem treeAt_succ {height : Nat} {id : NodeId} {t : TreeNode} :
    ast.treeAt (height + 1) id = some t ↔ ∃ node ts, ast.node? id = some node ∧
      node.children.map (ast.treeAt height) = ts.map some ∧
        t = .node node.construct ts node.position := by
  simp only [treeAt, Option.bind_eq_bind, Option.bind_eq_some_iff, Option.pure_def,
    Option.some.injEq, mapM_eq_some]
  constructor
  · rintro ⟨node, hn, ts, hts, rfl⟩
    exact ⟨node, ts, hn, hts, rfl⟩
  · rintro ⟨node, ts, hn, hts, rfl⟩
    exact ⟨node, hn, ts, hts, rfl⟩

/-- The graph unfolds into a tree below every node of a way down from the root. -/
theorem TreeShaped.exists_treeAt (h : ast.TreeShaped root) {n : Nat} {id : NodeId}
    {path : List NodeId} (ht : ast.Trail (id :: path)) (hr : ast.Reaches root id)
    (hn : ast.size ≤ n + path.length) : ∃ t, ast.treeAt n id = some t := by
  induction n generalizing id path with
  | zero =>
    have hle := ht.length_le
    rw [List.length_cons] at hle
    omega
  | succ n ih =>
    obtain ⟨node, hnode⟩ := has_iff.mp (h.known id hr)
    have hchild : ∀ c ∈ node.children, ∃ t, ast.treeAt n c = some t := by
      intro c hc
      have hl : ast.Links id c := by rwa [Links, children_of_node hnode]
      have hrc : ast.Reaches root c := hr.tail hl
      have hfresh : c ∉ id :: path := by
        intro hm
        refine h.acyclic hrc (ht.closes hm ?_)
        rintro outer ⟨⟩
        exact hl
      refine ih (ht.push (h.known c hrc) hfresh ?_) hrc ?_
      · rintro outer ⟨⟩
        exact hl
      · rw [List.length_cons]
        omega
    obtain ⟨ts, hts⟩ := exists_map_some hchild
    exact ⟨_, treeAt_succ.mpr ⟨node, ts, hnode, hts, rfl⟩⟩

end Ast

end SourceScribe
