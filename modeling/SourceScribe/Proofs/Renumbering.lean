import SourceScribe.Proofs.Carrying
import SourceScribe.Proofs.Loading

/-!
# Names do not matter

Generation says the same about two graphs that are the same under other names: it
gives the same text, or fails with the same error under the other names. Two graphs
that are trees and show the same document are the same under other names: the nodes
are paired from the root on, child by child, and because every node is listed at one
place only, no node gets two partners.
-/

namespace SourceScribe

open Relation (ReflTransGen)

variable {f : NodeId → NodeId} {ast ast' : Ast} {options : Options} {root root' id : NodeId}

namespace Request

open Moment

/-- Where a traversal has stopped, no other moment follows. -/
theorem Leads.eq_of_stopped {q : Request} {m last : Moment} (h : q.Leads m last)
    (hm : q.step m = none) : last = m := by
  rcases ReflTransGen.cases_head h with heq | ⟨next, hnext, -⟩
  · exact heq.symm
  · rw [hm] at hnext
    cases hnext

/-- A traversal alone, under other names, comes to the same end. -/
theorem run_alike (options : Options) (halike : ast.Alike f root ast') :
    (∀ {buffer p}, (standard ast options).run root {} = .ok buffer p →
        ∃ p', (standard ast' options).run (f root) {} = .ok (buffer.rename f) p') ∧
      ∀ {e p}, (standard ast options).run root {} = .error e p →
        ∃ p', (standard ast' options).run (f root) {} = .error (e.rename f) p' := by
  have hapart : ast.Apart f root [] #[] := ⟨by simp, by simp⟩
  obtain ⟨last, hl, -, hdelivers⟩ := (standard ast options).run_delivered root #[]
  obtain ⟨last', hl', hlast', hdelivers'⟩ := (standard ast' options).run_delivered (f root) #[]
  change last.Delivers _ root ((standard ast options).run root {}) at hdelivers
  change last'.Delivers _ (f root) ((standard ast' options).run (f root) {}) at hdelivers'
  have hcarried : (standard ast' options).Leads (.start (f root) #[]) (last.carry f [] #[]) := by
    rcases hl.carries halike hapart with h | ⟨hne, -⟩
    · exact h
    · exact absurd rfl hne
  have hrest : (standard ast' options).Leads (last.carry f [] #[]) last' :=
    hcarried.to_last hl' hlast'
  constructor
  · intro buffer p hrun
    rw [hrun] at hdelivers
    obtain ⟨-, result, rfl, rfl⟩ := hdelivers
    have heq := hrest.eq_of_stopped rfl
    cases hrun' : (standard ast' options).run (f root) {} with
    | error e p' =>
      rw [hrun', heq] at hdelivers'
      cases congrArg Moment.control hdelivers'.2
    | ok buffer' p' =>
      rw [hrun', heq] at hdelivers'
      obtain ⟨-, result', hresult, rfl⟩ := hdelivers'
      have hcontrol := congrArg Moment.control hresult
      cases hcontrol
      refine ⟨p', ?_⟩
      cases result with
      | none =>
        rw [Option.map_none, Option.getD_none, Option.getD_none, Buffer.rename_ofNode]
        rfl
      | some written => rfl
  · intro e p hrun
    rw [hrun] at hdelivers
    obtain ⟨-, rfl⟩ := hdelivers
    have heq := hrest.eq_of_stopped rfl
    cases hrun' : (standard ast' options).run (f root) {} with
    | ok buffer' p' =>
      rw [hrun', heq] at hdelivers'
      obtain ⟨-, result, hresult, -⟩ := hdelivers'
      cases congrArg Moment.control hresult
    | error e' p' =>
      rw [hrun', heq] at hdelivers'
      cases congrArg Moment.control hdelivers'.2
      exact ⟨_, rfl⟩

end Request

namespace Generator

/-- The text of a node is the same under other names, or generation fails with the same
error. -/
theorem generateNode_alike (halike : ast.Alike f root ast') :
    (⟨.standard, options⟩ : Generator).generateNode ast' (f root) =
      ((⟨.standard, options⟩ : Generator).generateNode ast root).mapError
        (GenerateError.rename f) := by
  obtain ⟨hok, herror⟩ := Request.run_alike options halike
  cases h : (⟨.standard, options⟩ : Generator).generateNode ast root with
  | ok text =>
    obtain ⟨buffer, p, hrun, rfl⟩ := generateNode_eq_ok.mp h
    obtain ⟨p', hrun'⟩ := hok hrun
    exact generateNode_eq_ok.mpr ⟨_, p', hrun', Buffer.source_rename buffer⟩
  | error e =>
    obtain ⟨p, hrun⟩ := generateNode_eq_error.mp h
    exact generateNode_eq_error.mpr (herror hrun)

/-- The text of a tree is the same under other names, or generation fails with the same
error. -/
theorem generate_alike (halike : ast.Alike f root ast') (hroot : ast.root = some root)
    (hroot' : ast'.root = some (f root)) :
    (⟨.standard, options⟩ : Generator).generate ast' =
      ((⟨.standard, options⟩ : Generator).generate ast).mapError (GenerateError.rename f) := by
  simp only [generate, rootOf, hroot, hroot', bind, Except.bind]
  exact generateNode_alike halike

end Generator

namespace Ast

/-- Nodes of two graphs that stand at the same place below the roots. -/
inductive Paired (ast ast' : Ast) (root root' : NodeId) : NodeId → NodeId → Prop
  | root : Paired ast ast' root root' root root'
  | child {a a' c c' : NodeId} {i : Nat} : Paired ast ast' root root' a a' →
    (ast.children a)[i]? = some c → (ast'.children a')[i]? = some c' →
    Paired ast ast' root root' c c'

namespace Paired

variable {a a' b' : NodeId}

/-- The graphs may change places. -/
theorem swap (h : Paired ast ast' root root' a a') : Paired ast' ast root' root a' a := by
  induction h with
  | root => exact .root
  | child _ hc hc' ih => exact .child ih hc' hc

/-- What is paired is reached. -/
theorem reaches (h : Paired ast ast' root root' a a') : ast.Reaches root a := by
  induction h with
  | root => exact .refl
  | child _ hc _ ih => exact ih.tail (List.mem_of_getElem? hc)

/-- A node of a tree has one partner. -/
theorem unique (ht : ast.TreeShaped root) (h : Paired ast ast' root root' a a')
    (h' : Paired ast ast' root root' a b') : a' = b' := by
  have hroot {x x' i} (hx : Paired ast ast' root root' x x')
      (hc : (ast.children x)[i]? = some root) : False :=
    ht.rootless x hx.reaches (List.mem_of_getElem? hc)
  induction h generalizing b' with
  | root =>
    cases h' with
    | root => rfl
    | child hy hd _ => exact (hroot hy hd).elim
  | @child x x' c c' i hx hc hc' ih =>
    cases h' with
    | root => exact (hroot hx hc).elim
    | @child y y' _ _ j hy hd hd' =>
      have hlinks : ast.Links x c := List.mem_of_getElem? hc
      have hplaces : (x, i) = (y, j) :=
        (ht.once c (hx.reaches.tail hlinks) (ht.ne_root hx.reaches hlinks)).unique
          ⟨hx.reaches, hc⟩ ⟨hy.reaches, hd⟩
      cases hplaces
      rw [ih hy, hd'] at hc'
      exact (Option.some.inj hc').symm

end Paired

/-- Nodes that show trees one by one show as many, each the one at its place. -/
theorem ShowsAll.get {ids : List NodeId} {ts : List TreeNode} (h : ast.ShowsAll ids ts) :
    ids.length = ts.length ∧
      ∀ {i : Nat} {c : NodeId}, ids[i]? = some c → ∃ t, ts[i]? = some t ∧ ast.Shows c t := by
  induction ts generalizing ids with
  | nil =>
    rw [ShowsAll] at h
    subst h
    exact ⟨rfl, by simp⟩
  | cons t ts ih =>
    rw [ShowsAll] at h
    obtain ⟨id, others, rfl, ht, hothers⟩ := h
    obtain ⟨hlength, hget⟩ := ih hothers
    refine ⟨by simp [hlength], fun {i} {c} hc => ?_⟩
    cases i with
    | zero =>
      cases hc
      exact ⟨t, rfl, ht⟩
    | succ i => exact hget hc

/-- Two nodes that show the same tree have the same construct, as many children, and
children at the same place show the same tree. -/
structure ShowSame (ast ast' : Ast) (a a' : NodeId) (node node' : Node) : Prop where
  /-- The first node is there. -/
  found : ast.node? a = some node
  /-- The second node is there. -/
  found' : ast'.node? a' = some node'
  /-- The construct is the same. -/
  construct : node'.construct = node.construct
  /-- There are as many children. -/
  length : node'.children.length = node.children.length
  /-- Children at the same place show the same tree. -/
  children : ∀ {i : Nat} {c c' : NodeId}, node.children[i]? = some c →
    node'.children[i]? = some c' → ∃ t, ast.Shows c t ∧ ast'.Shows c' t

/-- Two nodes show the same tree. -/
theorem exists_showSame {a a' : NodeId} {t : TreeNode} (h : ast.Shows a t) (h' : ast'.Shows a' t) :
    ∃ node node', ShowSame ast ast' a a' node node' := by
  cases t with
  | node construct ts position =>
    rw [Shows] at h h'
    obtain ⟨node, hnode, rfl, hall⟩ := h
    obtain ⟨node', hnode', hconstruct, hall'⟩ := h'
    obtain ⟨hlength, hget⟩ := hall.get
    obtain ⟨hlength', hget'⟩ := hall'.get
    refine ⟨node, node', hnode, hnode', hconstruct, hlength'.trans hlength.symm, ?_⟩
    intro i c c' hc hc'
    obtain ⟨t, ht, hshows⟩ := hget hc
    obtain ⟨t', ht', hshows'⟩ := hget' hc'
    rw [ht] at ht'
    cases ht'
    exact ⟨t, hshows, hshows'⟩

section Trees

variable {t : TreeNode} (hshows : ast.Shows root t) (hshows' : ast'.Shows root' t)
include hshows hshows'

/-- Nodes at the same place show the same tree. -/
theorem Paired.exists_showSame {a a' : NodeId} (h : Paired ast ast' root root' a a') :
    ∃ node node', ShowSame ast ast' a a' node node' := by
  have htree : ∃ t, ast.Shows a t ∧ ast'.Shows a' t := by
    induction h with
    | root => exact ⟨t, hshows, hshows'⟩
    | child _ hc hc' ih =>
      obtain ⟨t, ht, ht'⟩ := ih
      obtain ⟨node, node', hsame⟩ := Ast.exists_showSame ht ht'
      rw [children_of_node hsame.found] at hc
      rw [children_of_node hsame.found'] at hc'
      exact hsame.children hc hc'
  obtain ⟨t, ht, ht'⟩ := htree
  exact Ast.exists_showSame ht ht'

/-- Every node that is reached has a partner. -/
theorem exists_paired {a : NodeId} (hr : ast.Reaches root a) :
    ∃ a', Paired ast ast' root root' a a' := by
  induction hr with
  | refl => exact ⟨root', .root⟩
  | @tail b c _ hl ih =>
    obtain ⟨b', hb⟩ := ih
    obtain ⟨node, node', hsame⟩ := hb.exists_showSame hshows hshows'
    obtain ⟨i, hc⟩ := List.mem_iff_getElem?.mp hl
    have hi : i < node'.children.length := by
      rw [children_of_node hsame.found] at hc
      rw [hsame.length]
      exact (List.getElem?_eq_some_iff.mp hc).1
    refine ⟨node'.children[i], .child hb hc ?_⟩
    rw [children_of_node hsame.found', List.getElem?_eq_getElem hi]

/-- Two trees that show the same document are the same under other names. -/
theorem TreeShaped.exists_alike (ht : ast.TreeShaped root) (ht' : ast'.TreeShaped root') :
    ∃ f, f root = root' ∧ ast.Alike f root ast' := by
  have hpartner (a : NodeId) : ∃ a', ast.Reaches root a → Paired ast ast' root root' a a' := by
    by_cases hr : ast.Reaches root a
    · obtain ⟨a', ha⟩ := exists_paired hshows hshows' hr
      exact ⟨a', fun _ => ha⟩
    · exact ⟨a, fun h => absurd h hr⟩
  choose f hf using hpartner
  have hroot : f root = root' := (hf root .refl).unique ht .root
  refine ⟨f, hroot, ?_, ?_, ?_⟩
  · intro a hr
    obtain ⟨node, node', hsame⟩ := (hf a hr).exists_showSame hshows hshows'
    rw [hsame.found, hsame.found']
    refine .some ⟨hsame.construct, List.ext_getElem? fun i => ?_⟩
    rw [List.getElem?_map]
    cases hc : node.children[i]? with
    | none =>
      rw [List.getElem?_eq_none_iff] at hc
      rw [Option.map_none, List.getElem?_eq_none_iff, hsame.length]
      exact hc
    | some c =>
      have hi : i < node'.children.length := by
        rw [hsame.length]
        exact (List.getElem?_eq_some_iff.mp hc).1
      rw [← children_of_node hsame.found] at hc
      have hc' : (ast'.children (f a))[i]? = some node'.children[i] := by
        rw [children_of_node hsame.found', List.getElem?_eq_getElem hi]
      have hpaired : Paired ast ast' root root' c node'.children[i] := .child (hf a hr) hc hc'
      have hlinks : ast.Links a c := List.mem_of_getElem? hc
      rw [List.getElem?_eq_getElem hi, Option.map_some, (hf c (hr.tail hlinks)).unique ht hpaired]
  · intro a hr hne
    have hne' : f a ≠ root' := by
      intro heq
      have hswapped := (hf a hr).swap
      rw [heq] at hswapped
      exact hne (hswapped.unique ht' .root)
    obtain ⟨node, hnode, hparent⟩ := ht.attached a hr hne
    obtain ⟨node', hnode', hparent'⟩ := ht'.attached (f a) (hf a hr).swap.reaches hne'
    simp only [parent?, hnode, hnode', Option.bind_some, hparent, hparent']
  · intro a b ha hb heq
    have hb' := hf b hb
    rw [← heq] at hb'
    exact (hf a ha).swap.unique ht' hb'.swap

end Trees

end Ast

/-- **Names do not matter.** Where two graphs are the same below their roots under other
names, generation gives the same text for both, or fails with the same error under the
other names. A document of the tree shape, with no more nodes than there are identities,
and any document of the arena shape whose graph is a tree and shows the same are the
same under other names. -/
theorem Generator.generate_ignores_names :
    (∀ (f : NodeId → NodeId) (ast ast' : Ast) (root : NodeId), ast.Alike f root ast' →
      ∀ options : Options,
        (⟨.standard, options⟩ : Generator).generateNode ast' (f root) =
            ((⟨.standard, options⟩ : Generator).generateNode ast root).mapError
              (GenerateError.rename f) ∧
          (ast.root = some root → ast'.root = some (f root) →
            (⟨.standard, options⟩ : Generator).generate ast' =
              ((⟨.standard, options⟩ : Generator).generate ast).mapError
                (GenerateError.rename f))) ∧
      ∀ (d : TreeDocument) (d' : ArenaDocument) (ast : Ast), d.root.count ≤ 2 ^ 32 →
        d'.toAst = .ok ast → ast.TreeShaped d'.root → ast.Shows d'.root d.root →
          ∃ f : NodeId → NodeId, f ⟨0⟩ = d'.root ∧ d.toAst.Alike f ⟨0⟩ ast ∧
            ∀ options : Options, (⟨.standard, options⟩ : Generator).generate ast =
              ((⟨.standard, options⟩ : Generator).generate d.toAst).mapError
                (GenerateError.rename f) := by
  constructor
  · intro f ast ast' root halike options
    exact ⟨generateNode_alike halike, generate_alike halike⟩
  · intro d d' ast hcount hast htree hshows
    obtain ⟨f, hroot, halike⟩ := Ast.TreeShaped.exists_alike (TreeDocument.shows_toAst hcount)
      hshows (TreeDocument.treeShaped_toAst hcount) htree
    have hroot' : ast.root = some (f ⟨0⟩) := by
      rw [(ArenaDocument.toAst_eq_ok.mp hast).2, hroot]
      rfl
    exact ⟨f, hroot, halike, fun options => generate_alike halike d.root_toAst hroot'⟩

/-- A document of the tree shape: a file with a structure. -/
def plainDocument : TreeDocument where
  root := .node .compilationUnit [.node (.structDefinition "f") [] none] none

/-- The same document in the arena shape, from its end to its beginning, with a node
that stands nowhere in it. -/
def turnedDocument : ArenaDocument where
  root := ⟨2⟩
  nodes := [⟨⟨0⟩, .structDefinition "f", [], some ⟨2⟩, some ⟨4, 1⟩⟩,
    ⟨⟨1⟩, .breakStatement, [], none, none⟩, ⟨⟨2⟩, .compilationUnit, [⟨0⟩], none, none⟩]

/-- The graph of the document is a tree. -/
theorem treeShaped_turnedDocument : turnedDocument.graph.TreeShaped ⟨2⟩ := by
  refine Ast.TreeShaped.of_agrees ?_ rfl rfl
  rintro ⟨_ | _ | _ | n⟩ node hnode <;> cases hnode
  · exact ⟨List.nodup_nil, fun _ hmem => nomatch hmem⟩
  · exact ⟨List.nodup_nil, fun _ hmem => nomatch hmem⟩
  · exact ⟨List.nodup_singleton _, List.forall_mem_singleton.mpr ⟨_, rfl, rfl⟩⟩

/-- The graph of the document shows the same as the document of the tree shape. -/
theorem shows_turnedDocument : turnedDocument.graph.Shows ⟨2⟩ plainDocument.root :=
  ⟨_, rfl, rfl, ⟨0⟩, [], rfl, ⟨_, rfl, rfl, rfl⟩, rfl⟩

/-- With a depth of one the structure is too deep in both documents, and the errors
name it by its name in each. -/
theorem Generator.generate_ignores_names_turnedDocument :
    (⟨.standard, { maxDepth := 1 }⟩ : Generator).generate turnedDocument.graph =
        .error (.depthExceeded ⟨0⟩ 1 [(⟨2⟩, .compilationUnit), (⟨0⟩, .structDefinition)]) ∧
      ∃ f : NodeId → NodeId, f ⟨0⟩ = ⟨2⟩ ∧ plainDocument.toAst.Alike f ⟨0⟩ turnedDocument.graph ∧
        ∀ options : Options, (⟨.standard, options⟩ : Generator).generate turnedDocument.graph =
          ((⟨.standard, options⟩ : Generator).generate plainDocument.toAst).mapError
            (GenerateError.rename f) := by
  refine ⟨by decide +kernel, ?_⟩
  exact generate_ignores_names.2 plainDocument turnedDocument turnedDocument.graph (by decide) rfl
    treeShaped_turnedDocument shows_turnedDocument

end SourceScribe
