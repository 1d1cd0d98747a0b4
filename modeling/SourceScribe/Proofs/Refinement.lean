import SourceScribe.Generator
import SourceScribe.Proofs.Printing
import SourceScribe.Proofs.Shapes
import SourceScribe.Proofs.Wording

/-!
# Generation prints trees

On a graph that is a tree nothing that a traversal remembers ever gets in its
way: no node has been written before it is asked for, and none is being written.
So the text of a tree is the one that the printer has for it, and it is
generated exactly when every node accepts its children, as long as the tree is
no higher than the options allow.
-/

namespace SourceScribe

open Relation (ReflTransGen TransGen)

namespace TreeNode

/-- What a node needs to know of a tree inside it. -/
def kid (o : Options) (t : TreeNode) : Kid := ⟨t.tag, t.layout o⟩

/-- What a node needs to know of the trees inside it, tree by tree. -/
theorem kids_eq_map (o : Options) (ts : List TreeNode) : kids o ts = ts.map (kid o) := by
  induction ts with
  | nil => rfl
  | cons t ts ih =>
    rw [kids, ih]
    rfl

/-- A tree among others is no higher than the highest of them. -/
theorem height_le_heights {t : TreeNode} {ts : List TreeNode} (h : t ∈ ts) :
    t.height ≤ heights ts := by
  induction ts with
  | nil => cases h
  | cons first ts ih =>
    rw [heights]
    rcases List.mem_cons.mp h with rfl | h
    · exact Nat.le_max_left _ _
    · exact (ih h).trans (Nat.le_max_right _ _)

/-- Trees none of which is higher than a number are no higher than it together. -/
theorem heights_le {ts : List TreeNode} {n : Nat} (h : ∀ t ∈ ts, t.height ≤ n) :
    heights ts ≤ n := by
  induction ts with
  | nil => exact Nat.zero_le n
  | cons first ts ih =>
    obtain ⟨hfirst, hrest⟩ := List.forall_mem_cons.mp h
    exact Nat.max_le.mpr ⟨hfirst, ih hrest⟩

/-- One of several trees is as high as the highest of them. -/
theorem exists_height_eq {ts : List TreeNode} (h : ts ≠ []) : ∃ t ∈ ts, t.height = heights ts := by
  induction ts with
  | nil => exact absurd rfl h
  | cons first ts ih =>
    rw [heights]
    by_cases hle : heights ts ≤ first.height
    · exact ⟨first, List.mem_cons_self, (Nat.max_eq_left hle).symm⟩
    · have hne : ts ≠ [] := by
        rintro rfl
        exact hle (Nat.zero_le _)
      obtain ⟨t, ht, heq⟩ := ih hne
      refine ⟨t, List.mem_cons_of_mem _ ht, ?_⟩
      rw [heq]
      exact (Nat.max_eq_right (by omega)).symm

end TreeNode

namespace Ast

variable {ast : Ast} {root : NodeId}

/-- A way along child links from a node down to a leaf. -/
structure Descent (ast : Ast) (start : NodeId) (path : List NodeId) : Prop where
  /-- The way starts at the node. -/
  starts : path.head? = some start
  /-- Every node is listed under the one in front of it. -/
  linked : path.IsChain ast.Links
  /-- The last node lists nothing. -/
  ends : ∀ last ∈ path.getLast?, ast.children last = []

/-- A node accepts the kinds of its children. -/
def Fits (ast : Ast) (id : NodeId) : Prop :=
  ∀ node, ast.node? id = some node → node.construct.Accepts (node.children.filterMap ast.tag?)

/-- Packages and imports that can be reached have no children. -/
def BareHeads (ast : Ast) (root : NodeId) : Prop :=
  ∀ id node, ast.Reaches root id → ast.node? id = some node →
    node.tag = .packageDeclaration ∨ node.tag = .importDeclaration → node.children = []

/-- The tree at a node has its kind. -/
theorem tag_of_treeAt {height : Nat} {id : NodeId} {t : TreeNode}
    (h : ast.treeAt height id = some t) : ast.tag? id = some t.tag := by
  cases height with
  | zero => cases h
  | succ height =>
    obtain ⟨node, ts, hnode, _, rfl⟩ := treeAt_succ.mp h
    exact tag_of_node hnode

/-- A child has one of the trees. -/
theorem exists_mem_trees {height : Nat} {ids : List NodeId} {ts : List TreeNode}
    (h : ids.map (ast.treeAt height) = ts.map some) {id : NodeId} (hid : id ∈ ids) :
    ∃ t ∈ ts, ast.treeAt height id = some t := by
  have hm : ast.treeAt height id ∈ ts.map some := h ▸ List.mem_map_of_mem hid
  obtain ⟨t, ht, heq⟩ := List.mem_map.mp hm
  exact ⟨t, ht, heq.symm⟩

/-- Each of the trees is that of a child. -/
theorem exists_mem_children {height : Nat} {ids : List NodeId} {ts : List TreeNode}
    (h : ids.map (ast.treeAt height) = ts.map some) {t : TreeNode} (ht : t ∈ ts) :
    ∃ id ∈ ids, ast.treeAt height id = some t := by
  have hm : some t ∈ ids.map (ast.treeAt height) := h ▸ List.mem_map_of_mem ht
  exact List.mem_map.mp hm

/-- The height of the tree at a node is the length of a way down to a leaf. -/
theorem exists_descent {height : Nat} {id : NodeId} {t : TreeNode}
    (h : ast.treeAt height id = some t) : ∃ path, ast.Descent id path ∧ path.length = t.height := by
  induction height generalizing id t with
  | zero => cases h
  | succ height ih =>
    obtain ⟨node, ts, hnode, hts, rfl⟩ := treeAt_succ.mp h
    rw [TreeNode.height]
    by_cases hne : ts = []
    · have hnone : node.children = [] := by
        rw [hne, List.map_nil, List.map_eq_nil_iff] at hts
        exact hts
      refine ⟨[id], ⟨rfl, List.isChain_singleton id, ?_⟩, by rw [hne]; rfl⟩
      rintro last ⟨⟩
      exact (children_of_node hnode).trans hnone
    · obtain ⟨t, ht, heq⟩ := TreeNode.exists_height_eq hne
      obtain ⟨c, hc, htree⟩ := exists_mem_children hts ht
      obtain ⟨path, hd, hlength⟩ := ih htree
      have hl : ast.Links id c := by rwa [Links, children_of_node hnode]
      refine ⟨id :: path, ⟨rfl, List.isChain_cons.mpr ⟨?_, hd.linked⟩, ?_⟩, ?_⟩
      · intro first hfirst
        rw [hd.starts] at hfirst
        cases hfirst
        exact hl
      · intro last hlast
        cases path with
        | nil => cases hd.starts
        | cons first path => exact hd.ends last (by rwa [List.getLast?_cons_cons] at hlast)
      · rw [List.length_cons, hlength, heq]

/-- The kinds of children that are known. -/
theorem filterMap_tag {ids : List NodeId} {kid : NodeId → Kid}
    (h : ∀ id ∈ ids, ast.tag? id = some (kid id).tag) :
    ids.filterMap ast.tag? = ids.map (Kid.tag ∘ kid) := by
  induction ids with
  | nil => rfl
  | cons id ids ih =>
    rw [List.filterMap_cons, h id List.mem_cons_self, List.map_cons,
      ih fun c hc => h c (List.mem_cons_of_mem id hc)]
    rfl

/-- What a node needs to know of the tree at a child. -/
def kidAt (ast : Ast) (o : Options) (height : Nat) (id : NodeId) : Kid :=
  ((ast.treeAt height id).map (TreeNode.kid o)).getD ⟨.compilationUnit, []⟩

/-- The trees at children. -/
theorem map_kidAt (o : Options) {height : Nat} {ids : List NodeId} {ts : List TreeNode}
    (h : ids.map (ast.treeAt height) = ts.map some) :
    ids.map (ast.kidAt o height) = TreeNode.kids o ts := by
  have hall : ids.map (ast.kidAt o height) =
      (ids.map (ast.treeAt height)).map fun found =>
        (found.map (TreeNode.kid o)).getD ⟨.compilationUnit, []⟩ := by
    rw [List.map_map]
    rfl
  rw [hall, h, List.map_map, TreeNode.kids_eq_map]
  rfl

end Ast

namespace Request

variable {ast : Ast} {options : Options} {root id : NodeId}

/-- A node that can be reached shows its construct. -/
theorem shows_node (hb : ast.BareHeads root) (hr : ast.Reaches root id) {node : Node}
    (hn : ast.node? id = some node) {kid : NodeId → Kid}
    (hk : ∀ c ∈ node.children, ast.tag? c = some (kid c).tag) :
    Setting.Shows ⟨ast, options, id, node⟩ kid node.construct where
  construct := rfl
  knows := hk
  bare := hb id node hr hn

/-- A node below the root that is written accepts its children, unless it is a
package or an import with children. -/
theorem accepts_of_run {buffer : Buffer} {p : Progress}
    (h : (Request.standard ast options).run root {} = .ok buffer p) (hr : ast.Reaches root id)
    {node : Node} (hn : ast.node? id = some node)
    (hbare : node.tag = .packageDeclaration ∨ node.tag = .importDeclaration → node.children = []) :
    node.construct.Accepts (node.children.filterMap ast.tag?) := by
  have hknown : ∀ c ∈ node.children, ast.tag? c = some
      (Kid.mk ((ast.tag? c).getD .compilationUnit) []).tag := by
    intro c hc
    have hl : ast.Links id c := by rwa [Ast.Links, Ast.children_of_node hn]
    obtain ⟨child, hchild, -⟩ := (run_sound h).attached id c hr hl
    rw [Ast.tag_of_node hchild]
    rfl
  have hshows : Setting.Shows ⟨ast, options, id, node⟩ _ node.construct := ⟨rfl, hknown, hbare⟩
  have hclean : Script.Clean (Grammar.rule node.tag ⟨ast, options, id, node⟩) := run_clean h hr hn
  rw [Ast.filterMap_tag hknown]
  exact ((Grammar.realizes_rule node.construct).clean hshows).mp hclean

/-- A node that nothing speaks against is entered. -/
theorem render_eq_enter {node : Node} (hn : ast.node? id = some node) {first : Bool}
    (hlinked : first = true ∨ ast.Attached id) {p : Progress} (hpath : id ∉ p.path)
    (hdepth : p.path.length < options.maxDepth) (hnew : id ∉ p.visited) (limit indent : Nat) :
    (Request.standard ast options).render (limit + 1) first id indent p =
      (Request.standard ast options).enter ((Request.standard ast options).render limit false)
        (.standard node.tag) id node indent p := by
  rcases (Request.standard ast options).render_cases limit first id indent p with
    ⟨e, hrefuses, _⟩ | ⟨found, visitor, ha, hcases⟩
  · cases hrefuses with
    | unknown h => exact absurd (hn.symm.trans h) (by simp)
    | cycle h => exact absurd h hpath
    | depth _ _ h => exact absurd hdepth (Nat.not_lt_of_le h)
    | orphan other h _ hfirst horphan =>
      rcases hlinked with hlinked | ⟨attached, hattached, hparent⟩
      · rw [hlinked] at hfirst
        cases hfirst
      · rw [Option.some.inj (h.symm.trans hattached)] at horphan
        rw [horphan] at hparent
        cases hparent
    | unsupported tag h => cases h
  · have hsame : found = node := Option.some.inj (ha.found.symm.trans hn)
    have hvisitor : Visitor.standard found.tag = visitor := Option.some.inj ha.supported
    rw [← hvisitor, hsame] at hcases
    rcases hcases with ⟨hguard, _⟩ | ⟨_, henter⟩
    · have hadmits : Guard.once.admits p.visited id = true := Guard.admits_once.mpr hnew
      rw [Visitor.standard, hadmits] at hguard
      cases hguard
    · exact henter

/-- A node is being written and some of its children have been: the path goes on
with the node, and nothing has been entered but the node and what lies below
these children. -/
structure Within (ast : Ast) (id : NodeId) (p : Progress) (done : List NodeId) (p₁ : Progress) :
    Prop where
  /-- The path goes on with the node. -/
  path : p₁.path = id :: p.path
  /-- What has been entered. -/
  visited : ∀ x ∈ p₁.visited, x ∈ p.visited ∨ x = id ∨ ∃ d ∈ done, ast.Reaches d x

/-- A node that has been entered is being written. -/
theorem Within.start (p : Progress) : Within ast id p [] (p.enter id) where
  path := rfl
  visited x hx := by
    simp only [Progress.enter] at hx
    split at hx
    · exact .inl hx
    · rcases Array.mem_push.mp hx with hx | hx
      · exact .inl hx
      · exact .inr (.inl hx)

/-- One more child has been written. -/
theorem Within.next {p p₁ p₂ : Progress} {done : List NodeId} {c : NodeId}
    (hw : Within ast id p done p₁) (hpath : p₂.path = p₁.path)
    (hvisited : ∀ x ∈ p₂.visited, x ∈ p₁.visited ∨ ast.Reaches c x) :
    Within ast id p (done ++ [c]) p₂ where
  path := hpath.trans hw.path
  visited x hx := by
    rcases hvisited x hx with hx | hx
    · rcases hw.visited x hx with hx | hx | ⟨d, hd, hdx⟩
      · exact .inl hx
      · exact .inr (.inl hx)
      · exact .inr (.inr ⟨d, List.mem_append_left _ hd, hdx⟩)
    · exact .inr (.inr ⟨c, List.mem_append_right _ (List.mem_singleton_self c), hx⟩)

/-- Nothing below the next child of a node in a tree has been entered. -/
theorem Within.untouched (ht : ast.TreeShaped root) (hr : ast.Reaches root id) {p p₁ : Progress}
    {done rest : List NodeId} {c : NodeId} (hw : Within ast id p done p₁)
    (hc : ast.children id = done ++ c :: rest) (hnew : ∀ x, ast.Reaches id x → x ∉ p.visited) :
    ∀ x, ast.Reaches c x → x ∉ p₁.visited := by
  have hl : ast.Links id c := by
    rw [Ast.Links, hc]
    simp
  intro x hx hm
  rcases hw.visited x hm with hold | rfl | ⟨d, hd, hdx⟩
  · exact hnew x (.head hl hx) hold
  · exact ht.acyclic hr (TransGen.head' hl hx)
  · have hnodup := ht.nodup_children hr
    rw [hc] at hnodup
    have hne : d ≠ c := by
      rintro rfl
      exact (List.disjoint_of_nodup_append hnodup) hd List.mem_cons_self
    have hld : ast.Links id d := by
      rw [Ast.Links, hc]
      simp [hd]
    exact ht.disjoint hr hld hl hne hdx hx

/-- A node that accepts its children, and whose children bring their layouts, is
written as the printer does. -/
theorem enter_prints (hb : ast.BareHeads root) (hr : ast.Reaches root id) {node : Node}
    (hn : ast.node? id = some node) (hfits : ast.Fits id) {render : Renderer} {kid : NodeId → Kid}
    {p : Progress} (hcalls : render.Prints options.indent node.children kid (Within ast id p))
    (htags : ∀ c ∈ node.children, ast.tag? c = some (kid c).tag) (indent : Nat) :
    ∃ buffer p', (Request.standard ast options).enter render (.standard node.tag) id node indent p =
        .ok (some buffer) p' ∧ p'.path = p.path ∧
      (∀ x ∈ p'.visited, x ∈ p.visited ∨ ast.Reaches id x) ∧
      (Buffer.ofNode id indent options.indent).Extends
        (node.construct.layout options (node.children.map kid)) buffer := by
  have hshows : Setting.Shows ⟨ast, options, id, node⟩ kid node.construct :=
    shows_node hb hr hn htags
  have haccepts : node.construct.Accepts (node.children.map (Kid.tag ∘ kid)) := by
    rw [← Ast.filterMap_tag htags]
    exact hfits node hn
  have hclean : Script.Clean (Grammar.rule node.tag ⟨ast, options, id, node⟩) :=
    ((Grammar.realizes_rule node.construct).clean hshows).mpr haccepts
  have hasks : Script.calls (Grammar.rule node.tag ⟨ast, options, id, node⟩) = node.children :=
    (Grammar.covers_rule node.tag ⟨ast, options, id, node⟩).all hclean
  have hchildren : node.children =
      [] ++ (Script.calls (Grammar.rule node.tag ⟨ast, options, id, node⟩) ++ []) := by
    rw [hasks, List.nil_append, List.append_nil]
  have hmeans : Script.layout? options.blankLineBetweenDefinitions kid
      (Grammar.rule node.tag ⟨ast, options, id, node⟩) =
        some (node.construct.layout options (node.children.map kid)) :=
    (Grammar.realizes_rule node.construct).layout hshows haccepts
  have hscript := Writing.prints_script (q := Request.standard ast options) hcalls htags id node.tag
    hmeans hchildren
  obtain ⟨_, f, hf, hwithin, hext⟩ :=
    hscript ⟨p.enter id, .ofNode id indent options.indent⟩ (.start p) rfl
  rw [hasks, List.nil_append] at hwithin
  refine ⟨f.buffer, f.progress.leave, enter_of_script hf, ?_, ?_, hext⟩
  · simp only [Progress.leave, hwithin.path, List.tail_cons]
  · intro x hx
    rcases hwithin.visited x hx with hx | rfl | ⟨d, hd, hdx⟩
    · exact .inl hx
    · exact .inr .refl
    · have hl : ast.Links id d := by rwa [Ast.Links, Ast.children_of_node hn]
      exact .inr (.head hl hdx)

/-- **A tree that fits is printed.** A call for a node below the root of a tree
brings the layout of the tree at the node, and enters nothing but nodes below
it. -/
theorem render_prints (ht : ast.TreeShaped root) (hb : ast.BareHeads root) {height limit : Nat}
    (hlimit : height ≤ limit) {first : Bool} {t : TreeNode} (hr : ast.Reaches root id)
    (htree : ast.treeAt height id = some t) (hfits : ∀ x, ast.Reaches id x → ast.Fits x)
    (hlinked : first = true ∨ ast.Attached id) {p : Progress}
    (habove : ∀ x ∈ p.path, TransGen ast.Links x id)
    (hdepth : p.path.length + t.height ≤ options.maxDepth)
    (hnew : ∀ x, ast.Reaches id x → x ∉ p.visited) (indent : Nat) :
    ∃ buffer p', (Request.standard ast options).render limit first id indent p =
        .ok (some buffer) p' ∧ p'.path = p.path ∧
      (∀ x ∈ p'.visited, x ∈ p.visited ∨ ast.Reaches id x) ∧
      (Buffer.ofNode id indent options.indent).Extends (t.layout options) buffer := by
  induction height generalizing limit first id t p indent with
  | zero => cases htree
  | succ height ih =>
    obtain ⟨node, ts, hnode, hts, rfl⟩ := Ast.treeAt_succ.mp htree
    obtain ⟨limit, rfl⟩ : ∃ l, limit = l + 1 := ⟨limit - 1, by omega⟩
    rw [TreeNode.height] at hdepth
    have hlisted := Ast.children_of_node hnode
    have htags : ∀ c ∈ node.children, ast.tag? c = some (ast.kidAt options height c).tag := by
      intro c hc
      obtain ⟨tree, _, htree⟩ := Ast.exists_mem_trees hts hc
      simp only [Ast.kidAt, Ast.tag_of_treeAt htree, htree]
      rfl
    have hcalls : ((Request.standard ast options).render limit false).Prints options.indent
        node.children (ast.kidAt options height) (Within ast id p) := by
      intro done c rest hc indent p₁ hwithin
      have hmem : c ∈ node.children := by
        rw [hc]
        simp
      have hl : ast.Links id c := by rwa [Ast.Links, hlisted]
      obtain ⟨tree, hin, htree⟩ := Ast.exists_mem_trees hts hmem
      have habove' : ∀ x ∈ p₁.path, TransGen ast.Links x c := by
        intro x hx
        rw [hwithin.path] at hx
        rcases List.mem_cons.mp hx with rfl | hx
        · exact .single hl
        · exact (habove x hx).tail hl
      have hdepth' : p₁.path.length + tree.height ≤ options.maxDepth := by
        have hheight := TreeNode.height_le_heights hin
        rw [hwithin.path, List.length_cons]
        omega
      obtain ⟨buffer, p', hcall, hpath, hvisited, hext⟩ :=
        ih (Nat.le_of_succ_le_succ hlimit) (hr.tail hl) htree (fun x hx => hfits x (.head hl hx))
          (.inr (ht.attached_child hr hl)) habove' hdepth'
          (hwithin.untouched ht hr (hlisted.trans hc) hnew) indent
      refine ⟨buffer, p', hcall, hwithin.next hpath hvisited, ?_⟩
      simp only [Ast.kidAt, htree]
      exact hext
    rw [render_eq_enter hnode hlinked (fun hm => ht.acyclic hr (habove id hm)) (by omega)
      (hnew id .refl), TreeNode.layout, ← Ast.map_kidAt options hts]
    exact enter_prints hb hr hnode (hfits id .refl) hcalls htags indent

end Request

namespace Generator

variable {ast : Ast} {root : NodeId}

/-- The text of a graph is that of its root. -/
theorem generate_eq (options : Options) (hroot : ast.root = some root) :
    Generator.generate ⟨.standard, options⟩ ast =
      match (Request.standard ast options).run root {} with
      | .ok buffer _ => .ok buffer.source
      | .error e _ => .error e := by
  simp only [generate, rootOf, hroot, generateNode, render, Request.standard, bind, Except.bind]
  cases (Request.mk ast .standard options).run root {} with
  | ok buffer p => rfl
  | error e p => rfl

/-- **Generation prints trees.** A graph that is a tree below its root, in which
packages and imports have no children, unfolds into a tree. If no way from the
root down to a leaf is longer than the options allow, generation succeeds exactly
when every node accepts its children, and the text is the one that the printer
has for the tree. -/
theorem generate_prints_tree (options : Options) (hroot : ast.root = some root)
    (ht : ast.TreeShaped root) (hb : ast.BareHeads root)
    (hdepth : ∀ path, ast.Descent root path → path.length ≤ options.maxDepth) :
    ∃ t, ast.treeAt ast.size root = some t ∧
      ((∃ text, Generator.generate ⟨.standard, options⟩ ast = .ok text) ↔
          ∀ id, ast.Reaches root id → ast.Fits id) ∧
        ∀ text, Generator.generate ⟨.standard, options⟩ ast = .ok text →
          text = t.source options := by
  have htrail : ast.Trail [root] := Ast.Trail.nil.push (ht.known root .refl) (by simp) (by simp)
  obtain ⟨t, htree⟩ := ht.exists_treeAt htrail .refl (Nat.le_refl ast.size)
  have hheight : t.height ≤ options.maxDepth := by
    obtain ⟨path, hd, hlength⟩ := Ast.exists_descent htree
    rw [← hlength]
    exact hdepth path hd
  have hprints : (∀ id, ast.Reaches root id → ast.Fits id) →
      Generator.generate ⟨.standard, options⟩ ast = .ok (t.source options) := by
    intro hfits
    have hrender : ∃ buffer p',
        (Request.standard ast options).render (ast.size + 1) true root 0 {} =
          .ok (some buffer) p' ∧ p'.path = [] ∧
        (∀ x ∈ p'.visited, x ∈ #[] ∨ ast.Reaches root x) ∧
        (Buffer.ofNode root 0 options.indent).Extends (t.layout options) buffer :=
      Request.render_prints ht hb (Nat.le_succ ast.size) .refl htree hfits (.inl rfl) (by simp)
        (by simpa using hheight) (by simp) 0
    obtain ⟨buffer, p, hcall, _, _, hext⟩ := hrender
    have htidy : buffer.Tidy := hext.tidy (Buffer.tidy_ofNode root 0 options.indent)
    have hpage := hext.page (Buffer.tidy_ofNode root 0 options.indent)
    have hunit : buffer.unit = options.indent := hext.unit
    rw [generate_eq options hroot, Request.run_of_render hcall]
    simp only [htidy.source_eq, hpage, hunit]
    rfl
  have hfits : (∃ text, Generator.generate ⟨.standard, options⟩ ast = .ok text) →
      ∀ id, ast.Reaches root id → ast.Fits id := by
    rintro ⟨text, htext⟩ id hr
    rw [generate_eq options hroot] at htext
    cases h : (Request.standard ast options).run root {} with
    | ok buffer p => exact fun node hn => Request.accepts_of_run h hr hn (hb id node hr hn)
    | error e p =>
      rw [h] at htext
      cases htext
  refine ⟨t, htree, ⟨hfits, fun h => ⟨_, hprints h⟩⟩, fun text htext => ?_⟩
  rw [hprints (hfits ⟨text, htext⟩)] at htext
  exact (Except.ok.inj htext).symm

end Generator

namespace Ast

/-- A file with a package and a function that has a parameter and a body. -/
def shortFile : Ast where
  nodes := #[
    { construct := .compilationUnit, children := [⟨1⟩, ⟨2⟩] },
    { construct := .packageDeclaration "a.b", parent := some ⟨0⟩ },
    { construct := .functionDefinition "f" .isPublic, children := [⟨3⟩, ⟨4⟩], parent := some ⟨0⟩ },
    { construct := .parameterDefinition "int" "n", parent := some ⟨2⟩ },
    { construct := .breakStatement, parent := some ⟨2⟩ }]
  root := some ⟨0⟩

/-- The places of the file at which nodes are listed. -/
theorem shortFile_place {a c : NodeId} {i : Nat} :
    (shortFile.children a)[i]? = some c ↔
      (a = ⟨0⟩ ∧ i = 0 ∧ c = ⟨1⟩) ∨ (a = ⟨0⟩ ∧ i = 1 ∧ c = ⟨2⟩) ∨ (a = ⟨2⟩ ∧ i = 0 ∧ c = ⟨3⟩) ∨
        (a = ⟨2⟩ ∧ i = 1 ∧ c = ⟨4⟩) := by
  rcases a with ⟨_ | _ | _ | _ | _ | n⟩ <;> rcases i with _ | _ | i <;>
    simp [children, node?, shortFile, eq_comm]

/-- The links of the file. -/
theorem shortFile_links {a c : NodeId} :
    shortFile.Links a c ↔
      (a = ⟨0⟩ ∧ c = ⟨1⟩) ∨ (a = ⟨0⟩ ∧ c = ⟨2⟩) ∨ (a = ⟨2⟩ ∧ c = ⟨3⟩) ∨ (a = ⟨2⟩ ∧ c = ⟨4⟩) := by
  rw [Links, List.mem_iff_getElem?]
  simp only [shortFile_place]
  grind

/-- The nodes of the file that can be reached. -/
theorem shortFile_reaches {id : NodeId} (h : shortFile.Reaches ⟨0⟩ id) :
    id = ⟨0⟩ ∨ id = ⟨1⟩ ∨ id = ⟨2⟩ ∨ id = ⟨3⟩ ∨ id = ⟨4⟩ := by
  induction h with
  | refl => exact .inl rfl
  | tail _ hl _ =>
    rw [shortFile_links] at hl
    grind

/-- The file is a tree. -/
theorem shortFile_treeShaped : shortFile.TreeShaped ⟨0⟩ where
  known id hr := by
    rcases shortFile_reaches hr with rfl | rfl | rfl | rfl | rfl <;> rfl
  once id hr hne := by
    have hfirst : shortFile.Reaches ⟨0⟩ ⟨2⟩ := .single (shortFile_links.mpr (by simp))
    simp only [shortFile_place]
    rcases shortFile_reaches hr with rfl | rfl | rfl | rfl | rfl
    · exact absurd rfl hne
    · exact ⟨(⟨0⟩, 0), ⟨.refl, by simp⟩, by simp +contextual⟩
    · exact ⟨(⟨0⟩, 1), ⟨.refl, by simp⟩, by simp +contextual⟩
    · exact ⟨(⟨2⟩, 0), ⟨hfirst, by simp⟩, by simp +contextual⟩
    · exact ⟨(⟨2⟩, 1), ⟨hfirst, by simp⟩, by simp +contextual⟩
  attached id hr hne := by
    rcases shortFile_reaches hr with rfl | rfl | rfl | rfl | rfl
    · exact absurd rfl hne
    all_goals exact ⟨_, rfl, rfl⟩
  rootless id _ hl := by
    have hlinks : shortFile.Links id ⟨0⟩ := hl
    simp [shortFile_links] at hlinks

/-- The package of the file has no children. -/
theorem shortFile_bareHeads : shortFile.BareHeads ⟨0⟩ := by
  intro id node hr hn htag
  rcases shortFile_reaches hr with rfl | rfl | rfl | rfl | rfl <;> cases hn
  · rcases htag with h | h <;> cases h
  · rfl
  · rcases htag with h | h <;> cases h
  · rfl
  · rfl

/-- No way down has more than three nodes. -/
theorem shortFile_descent {path : List NodeId} (h : shortFile.Descent ⟨0⟩ path) :
    path.length ≤ 3 := by
  obtain ⟨hstart, hlinked, _⟩ := h
  match path with
  | [] | [_] | [_, _] | [_, _, _] => simp
  | a :: b :: c :: d :: rest =>
    simp only [List.isChain_cons_cons, shortFile_links] at hlinked
    simp only [List.head?_cons, Option.some.injEq] at hstart
    grind

end Ast

namespace Generator

/-- The file is generated as it is printed, even if no more than three nodes may
lie on a path. -/
theorem generate_prints_shortFile :
    Ast.shortFile.root = some ⟨0⟩ ∧ Ast.shortFile.TreeShaped ⟨0⟩ ∧ Ast.shortFile.BareHeads ⟨0⟩ ∧
      (∀ path, Ast.shortFile.Descent ⟨0⟩ path → path.length ≤ 3) ∧
      Generator.generate ⟨.standard, { maxDepth := 3 }⟩ Ast.shortFile =
        .ok "package a.b;\n\npublic function f (int n) \x7b\n    break;\n\x7d" ∧
      ∃ t, Ast.shortFile.treeAt 5 ⟨0⟩ = some t ∧
        ((∃ text, Generator.generate ⟨.standard, { maxDepth := 3 }⟩ Ast.shortFile = .ok text) ↔
          ∀ id, Ast.shortFile.Reaches ⟨0⟩ id → Ast.shortFile.Fits id) ∧
        ∀ text, Generator.generate ⟨.standard, { maxDepth := 3 }⟩ Ast.shortFile = .ok text →
          text = t.source { maxDepth := 3 } := by
  have htext : (Generator.generate ⟨.standard, { maxDepth := 3 }⟩ Ast.shortFile).toOption =
      some "package a.b;\n\npublic function f (int n) \x7b\n    break;\n\x7d" := by decide +kernel
  refine ⟨rfl, Ast.shortFile_treeShaped, Ast.shortFile_bareHeads,
    fun _ => Ast.shortFile_descent, ?_, generate_prints_tree { maxDepth := 3 } rfl
      Ast.shortFile_treeShaped Ast.shortFile_bareHeads fun _ => Ast.shortFile_descent⟩
  cases h : Generator.generate ⟨.standard, { maxDepth := 3 }⟩ Ast.shortFile with
  | ok text =>
    rw [h] at htext
    rw [Option.some.inj htext]
  | error e =>
    rw [h] at htext
    cases htext

end Generator

end SourceScribe
