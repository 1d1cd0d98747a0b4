import SourceScribe.Proofs.Expressions
import SourceScribe.Proofs.Failures
import SourceScribe.Proofs.Numbered
import SourceScribe.Proofs.Preorder

/-!
# Generated expressions

The text of an expression determines its tree. When a graph that is a tree has been
generated, no way down from its root was too long, every node has accepted its children,
and the text is the one of the printer. From this text the reader brings the tree back.
-/

namespace SourceScribe

open Relation (ReflTransGen)

namespace Request

variable {q : Request} {ast : Ast} {options : Options} {root id : NodeId} {p p' : Progress}

/-- A call that succeeds enters nothing but nodes below its node. -/
theorem reaches_of_render (hq : q.registry.Thorough) {limit : Nat} {first : Bool} {indent : Nat}
    {result : Option Buffer} (h : q.render limit first id indent p = .ok result p') :
    ∀ x ∈ p'.visited, x ∈ p.visited ∨ q.ast.Reaches id x := by
  intro x hx
  have hexplore := render_explores hq h []
  rw [Ast.explore_nil] at hexplore
  rw [← Array.mem_toList_iff, ← hexplore] at hx
  rcases Ast.reaches_of_mem_explore hx with hx | ⟨start, hstart, hr⟩
  · exact .inl (Array.mem_toList_iff.mp hx)
  · exact .inr (List.mem_singleton.mp hstart ▸ hr)

/-- When a walk goes over the children of a node in a tree and the calls for them went no
deeper than allowed, neither did the walk. -/
theorem depth_of_walk (ht : ast.TreeShaped root) (hr : ast.Reaches root id)
    (hnew : ∀ x, ast.Reaches id x → x ∉ p.visited) {limit height : Nat}
    (hcalls : ∀ {c a b}, ast.Links id c → (∀ x, ast.Reaches c x → x ∉ a.visited) →
      ((standard ast options).render limit false).Passes c a b →
        ∀ t, ast.treeAt height c = some t → a.path.length + t.height ≤ options.maxDepth)
    {done ids : List NodeId} {a b : Progress}
    (hw : ((standard ast options).render limit false).Walk ids a b)
    (hlisted : ast.children id = done ++ ids) (hwithin : Within ast id p done a) :
    ∀ c ∈ ids, ∀ t, ast.treeAt height c = some t →
      p.path.length + 1 + t.height ≤ options.maxDepth := by
  induction hw generalizing done with
  | nil => simp
  | @cons child ids a b _ hpass _ ih =>
    have hl : ast.Links id child := by
      rw [Ast.Links, hlisted]
      simp
    have hdepth := hcalls hl (hwithin.untouched ht hr hlisted hnew) hpass
    rw [hwithin.path, List.length_cons] at hdepth
    obtain ⟨indent, result, hcall⟩ := hpass
    have hnext : Within ast id p (done ++ [child]) b :=
      hwithin.next (((standard ast options).render_path limit false child indent a).1 hcall)
        (reaches_of_render Registry.thorough_standard hcall)
    exact List.forall_mem_cons.mpr ⟨hdepth, ih (by rw [hlisted]; simp) hnext⟩

/-- **What has been written was not too deep.** A call for a node in a tree that succeeds
when nothing below the node has been entered has gone down to every leaf below the node; so
the longest way down fits into the depth that the options allow. -/
theorem depth_of_render (ht : ast.TreeShaped root) {limit : Nat} {first : Bool} {height : Nat}
    {t : TreeNode} {indent : Nat} {result : Option Buffer} (hr : ast.Reaches root id)
    (htree : ast.treeAt height id = some t) (hnew : ∀ x, ast.Reaches id x → x ∉ p.visited)
    (h : (standard ast options).render limit first id indent p = .ok result p') :
    p.path.length + t.height ≤ options.maxDepth := by
  induction limit generalizing first id height t indent result p p' with
  | zero => cases h
  | succ limit ih =>
    cases height with
    | zero => cases htree
    | succ height =>
      obtain ⟨node, ts, hnode, hts, rfl⟩ := Ast.treeAt_succ.mp htree
      obtain ⟨found, visitor, ha, ⟨hold, _⟩ | ⟨_, _, p₁, hwalk, _⟩⟩ :=
        render_eq_ok Registry.thorough_standard h
      · exact absurd hold (hnew id .refl)
      have hcalls : ∀ {c a b}, ast.Links id c → (∀ x, ast.Reaches c x → x ∉ a.visited) →
          ((standard ast options).render limit false).Passes c a b →
            ∀ t, ast.treeAt height c = some t → a.path.length + t.height ≤ options.maxDepth := by
        rintro c a b hl hfresh ⟨indent, result, hcall⟩ t htree
        exact ih (hr.tail hl) htree hfresh hcall
      have hchildren := depth_of_walk ht hr hnew hcalls hwalk rfl (.start p)
      have hshallow : p.path.length < options.maxDepth := ha.shallow
      have hheights : TreeNode.heights ts ≤ options.maxDepth - (p.path.length + 1) := by
        refine TreeNode.heights_le fun u hu => ?_
        obtain ⟨c, hc, htree⟩ := Ast.exists_mem_children hts hu
        have hl : ast.Links id c := by rwa [Ast.Links, Ast.children_of_node hnode]
        have hdepth := hchildren c hl u htree
        omega
      rw [TreeNode.height]
      omega

end Request

namespace Ast

variable {ast : Ast} {root id : NodeId} {height : Nat} {t : TreeNode}

/-- The kinds of the trees at children are those of the children. -/
theorem filterMap_tag_eq {ids : List NodeId} {ts : List TreeNode}
    (h : ids.map (ast.treeAt height) = ts.map some) :
    ids.filterMap ast.tag? = ts.map TreeNode.tag := by
  induction ids generalizing ts with
  | nil =>
    rw [List.map_nil, eq_comm, List.map_eq_nil_iff] at h
    rw [h]
    rfl
  | cons id ids ih =>
    cases ts with
    | nil => cases h
    | cons t ts =>
      obtain ⟨ht, hts⟩ := List.cons.inj h
      rw [List.filterMap_cons, tag_of_treeAt ht, ih hts]
      rfl

/-- When every node below a node accepts its children, the tree at the node may be
written. -/
theorem accepted_of_treeAt (h : ast.treeAt height id = some t)
    (hfits : ∀ x, ast.Reaches id x → ast.Fits x) : t.Accepted := by
  induction height generalizing id t with
  | zero => cases h
  | succ height ih =>
    obtain ⟨node, ts, hnode, hts, rfl⟩ := treeAt_succ.mp h
    have haccepts := hfits id .refl node hnode
    rw [filterMap_tag_eq hts] at haccepts
    refine .node haccepts fun u hu => ?_
    obtain ⟨c, hc, htree⟩ := exists_mem_children hts hu
    have hl : ast.Links id c := by rwa [Links, children_of_node hnode]
    exact ih htree fun x hx => hfits x (.head hl hx)

/-- Every node below an expression is an expression. -/
theorem expression_of_reaches (htree : ast.treeAt height root = some t) (h : t.Expression)
    (hr : ast.Reaches root id) :
    ∃ k u, ast.treeAt k id = some u ∧ u.Expression := by
  induction hr with
  | refl => exact ⟨height, t, htree, h⟩
  | @tail a c _ hl ih =>
    obtain ⟨k, u, htree, h⟩ := ih
    cases k with
    | zero => cases htree
    | succ k =>
      obtain ⟨node, ts, hnode, hts, rfl⟩ := treeAt_succ.mp htree
      rw [Links, children_of_node hnode] at hl
      obtain ⟨v, hv, htree⟩ := exists_mem_trees hts hl
      exact ⟨k, v, htree, h.inside v hv⟩

/-- Below an expression there are no packages and no imports. -/
theorem bareHeads_of_expression (htree : ast.treeAt height root = some t) (h : t.Expression) :
    ast.BareHeads root := by
  intro id node hr hnode htag
  obtain ⟨k, u, htree, h⟩ := expression_of_reaches htree h hr
  have hu : node.tag = u.tag := by
    have htagged := tag_of_treeAt htree
    rw [tag_of_node hnode] at htagged
    exact Option.some.inj htagged
  rw [hu] at htag
  rcases htag with htag | htag
  · cases h <;> cases htag
  · cases h <;> cases htag

end Ast

namespace Generator

variable {ast : Ast} {options : Options} {root : NodeId} {t : TreeNode} {text : String}

/-- When a graph that is a tree has been generated, its tree may be written, and the text is
the one that the printer has for it. -/
theorem printed_of_generateNode (ht : ast.TreeShaped root) (hb : ast.BareHeads root)
    (htree : ast.treeAt ast.size root = some t)
    (h : (⟨.standard, options⟩ : Generator).generateNode ast root = .ok text) :
    t.Accepted ∧ text = t.source options := by
  obtain ⟨buffer, p, hrun, rfl⟩ := generateNode_eq_ok.mp h
  have hfits : ∀ id, ast.Reaches root id → ast.Fits id :=
    fun id hr node hn => Request.accepts_of_run hrun hr hn (hb id node hr hn)
  refine ⟨Ast.accepted_of_treeAt htree hfits, ?_⟩
  obtain ⟨result, hrender, -⟩ := Request.run_eq_ok hrun
  have hdepth := Request.depth_of_render ht .refl htree (by simp) hrender
  have hprints : ∃ printed p', (Request.standard ast options).render (ast.size + 1) true root 0 {} =
        .ok (some printed) p' ∧ p'.path = [] ∧
      (∀ x ∈ p'.visited, x ∈ #[] ∨ ast.Reaches root x) ∧
      (Buffer.ofNode root 0 options.indent).Extends (t.layout options) printed :=
    Request.render_prints ht hb (Nat.le_succ ast.size) .refl htree hfits (.inl rfl) (by simp)
      hdepth (by simp) 0
  obtain ⟨printed, p', hcall, -, -, hext⟩ := hprints
  cases hrun.symm.trans (Request.run_of_render hcall)
  exact hext.source_eq

/-- **The text of an expression determines its tree.** When two expressions that are trees
are generated as the same text, with a comma and a space between arguments, they are the
same tree of constructs: operators, names and values of literals agree, and only the
identities of the nodes and the places at which they were read may differ. -/
theorem generateNode_determines_tree {ast ast' : Ast} {options options' : Options}
    {root root' : NodeId} {t t' : TreeNode} {text : String}
    (ho : options.argumentSeparator = ", ") (ho' : options'.argumentSeparator = ", ")
    (ht : ast.TreeShaped root) (ht' : ast'.TreeShaped root')
    (htree : ast.treeAt ast.size root = some t) (htree' : ast'.treeAt ast'.size root' = some t')
    (he : t.Expression) (he' : t'.Expression)
    (h : (⟨.standard, options⟩ : Generator).generateNode ast root = .ok text)
    (h' : (⟨.standard, options'⟩ : Generator).generateNode ast' root' = .ok text) :
    t.bare = t'.bare := by
  obtain ⟨ha, htext⟩ :=
    printed_of_generateNode ht (Ast.bareHeads_of_expression htree he) htree h
  obtain ⟨ha', htext'⟩ :=
    printed_of_generateNode ht' (Ast.bareHeads_of_expression htree' he') htree' h'
  refine he.bare_eq ho ho' ha he' ha' ?_
  have hsame : t.source options = t'.source options' := htext.symm.trans htext'
  rw [TreeNode.source, TreeNode.source, (he.flat options).source_eq,
    (he'.flat options').source_eq] at hsame
  exact String.ofList_injective hsame

/-- An item of the result of an invocation, behind a sign; the index is a field of a sum
between parentheses, and the item may have a place. -/
def signedItem (position : Option SourcePosition) : TreeNode :=
  .node (.unaryExpression .minus) [.node .indexAccessExpression [
    .node (.functionInvocationExpression "f:g(") [
      .node (.basicLiteralExpression .string "a\"") [] none] none,
    .node (.fieldAccessExpression "c") [.node .parenthesizedExpression [
      .node (.binaryExpression .plus) [.node (.variableReferenceExpression none "a") [] none,
        .node (.variableReferenceExpression none "b") [] none] none] none] none] position] none

/-- The item is an expression. -/
theorem expression_signedItem (position : Option SourcePosition) :
    (signedItem position).Expression := by
  have hliteral := TreeNode.Expression.literal "a\"" none
  have hcall := TreeNode.Expression.invocation "f:g" _ none (List.forall_mem_singleton.mpr hliteral)
  have hsum := TreeNode.Expression.binary .plus _ _ none (.reference "a" none) (by decide)
    (.reference "b" none) (by decide)
  have hfield := TreeNode.Expression.field "c" _ none (.parenthesized _ none hsum) (by decide)
  exact .unary .minus _ none (.index _ _ position hcall (by decide) hfield) nofun

/-- The nodes of the item from its end to its beginning. -/
def turnedItem : Ast where
  nodes := #[
    { construct := .variableReferenceExpression none "b", parent := some ⟨2⟩ },
    { construct := .variableReferenceExpression none "a", parent := some ⟨2⟩ },
    { construct := .binaryExpression .plus, children := [⟨1⟩, ⟨0⟩], parent := some ⟨3⟩ },
    { construct := .parenthesizedExpression, children := [⟨2⟩], parent := some ⟨4⟩ },
    { construct := .fieldAccessExpression "c", children := [⟨3⟩], parent := some ⟨7⟩ },
    { construct := .basicLiteralExpression .string "a\"", parent := some ⟨6⟩ },
    { construct := .functionInvocationExpression "f:g(", children := [⟨5⟩], parent := some ⟨7⟩ },
    { construct := .indexAccessExpression, children := [⟨6⟩, ⟨4⟩], parent := some ⟨8⟩,
      position := some ⟨1, 2⟩ },
    { construct := .unaryExpression .minus, children := [⟨7⟩] }]

/-- The nodes from the end to the beginning make a tree. -/
theorem treeShaped_turnedItem : turnedItem.TreeShaped ⟨8⟩ := by
  refine Ast.TreeShaped.of_agrees ?_ rfl rfl
  rintro ⟨_ | _ | _ | _ | _ | _ | _ | _ | _ | n⟩ node hnode <;> cases hnode
  all_goals
    exact ⟨by decide, by simp [turnedItem, Ast.node?]⟩

/-- The item has one text, whichever way its nodes are numbered, and from this text one tree. -/
theorem generateNode_determines_tree_signedItem :
    (⟨.standard, {}⟩ : Generator).generateNode (TreeDocument.mk none (signedItem none)).toAst ⟨0⟩ =
        .ok "-f:g(\"a\\\"\")[(a + b).c]" ∧
      (⟨.standard, {}⟩ : Generator).generateNode turnedItem ⟨8⟩ =
        .ok "-f:g(\"a\\\"\")[(a + b).c]" ∧
      (signedItem none).bare = (signedItem (some ⟨1, 2⟩)).bare := by
  have h : (⟨.standard, {}⟩ : Generator).generateNode
      (TreeDocument.mk none (signedItem none)).toAst ⟨0⟩ =
        .ok "-f:g(\"a\\\"\")[(a + b).c]" := by decide +kernel
  have h' : (⟨.standard, {}⟩ : Generator).generateNode turnedItem ⟨8⟩ =
      .ok "-f:g(\"a\\\"\")[(a + b).c]" := by decide +kernel
  have hcount : (signedItem none).count ≤ 2 ^ 32 := by decide
  have htree : (TreeDocument.mk none (signedItem none)).toAst.TreeShaped ⟨0⟩ :=
    TreeDocument.treeShaped_toAst hcount
  exact ⟨h, h', generateNode_determines_tree rfl rfl htree treeShaped_turnedItem rfl rfl
    (expression_signedItem none) (expression_signedItem (some ⟨1, 2⟩)) h h'⟩

end Generator

end SourceScribe
