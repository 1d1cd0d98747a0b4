import SourceScribe.Proofs.Changes

/-!
# What edits do to links

A link between a parent and a child is stored twice, in the list of the parent
and at the child; every edit that is accepted changes at most one list and one
parent link, and keeps the two in step. Sharing lists a node without linking it
back, so only without it do the lists name every node once and nothing that is
not linked back; and where identities have begun again, a child that is inserted
is one that may be listed elsewhere.
-/

namespace SourceScribe

/-- A call that changes a graph. -/
inductive Edit where
  /-- Adds a node without links. -/
  | add (construct : Construct)
  /-- Makes a node the root. -/
  | setRoot (id : NodeId)
  /-- Sets the file that the tree was read from. -/
  | setFile (file : Option SourceFile)
  /-- Sets where a node was read. -/
  | setPosition (id : NodeId) (position : SourcePosition)
  /-- Makes a node the last child of another. -/
  | attach (parent child : NodeId)
  /-- Adds a node as the last child of another. -/
  | appendChild (parent : NodeId) (construct : Construct)
  /-- Adds a node at a place among the children of another. -/
  | insertChild (parent : NodeId) (index : Nat) (construct : Construct)
  /-- Lists a node under another. -/
  | shareChild (parent child : NodeId)
  /-- Removes the first mention of a child. -/
  | removeChild (parent child : NodeId)
deriving DecidableEq, Repr

namespace Edit

/-- What a call makes of a graph. -/
def apply (ast : Ast) : Edit → Except EditError Ast
  | .add construct => .ok (ast.add construct).1
  | .setRoot id => ast.setRoot id
  | .setFile file => .ok (ast.setFile file)
  | .setPosition id position => ast.setPosition id position
  | .attach parent child => ast.attach parent child
  | .appendChild parent construct => do return (← ast.appendChild parent construct).1
  | .insertChild parent index construct => do return (← ast.insertChild parent index construct).1
  | .shareChild parent child => ast.shareChild parent child
  | .removeChild parent child => ast.removeChild parent child

/-- Whether a call lists a node without linking it back. -/
def shares : Edit → Bool
  | .shareChild _ _ => true
  | _ => false

end Edit

/-- Two computations in a row succeed when both do. -/
theorem bind_eq_ok {ε α β : Type} {first : Except ε α} {second : α → Except ε β} {b : β} :
    first >>= second = .ok b ↔ ∃ a, first = .ok a ∧ second a = .ok b := by
  cases first with
  | error e => simp [bind, Except.bind]
  | ok a => simp [bind, Except.bind]

namespace Ast

variable {ast next : Ast} {parent child id x : NodeId}

/-- A new graph: one without nodes, or with a root of the given construct. -/
def created : Option Construct → Ast
  | none => empty
  | some construct => (withRoot construct).1

/-- The nodes that are listed as children, list by list. -/
def mentions (ast : Ast) : List NodeId := ast.nodes.toList.flatMap Node.children

/-- Every node that a graph names is there. -/
structure Contained (ast : Ast) : Prop where
  /-- Children are there. -/
  children : ∀ parent, ∀ child ∈ ast.children parent, ast.has child = true
  /-- Parents are there. -/
  parents : ∀ child parent, ast.parent? child = some parent → ast.has parent = true
  /-- The root is there. -/
  root : ∀ id, ast.root = some id → ast.has id = true

/-- The links that edits keep. -/
structure Linked (ast : Ast) : Prop where
  /-- Children are there. -/
  children : ∀ parent, ∀ child ∈ ast.children parent, ast.has child = true
  /-- The root is there. -/
  root : ∀ id, ast.root = some id → ast.has id = true
  /-- A node is listed under its parent. -/
  listed : ∀ child parent, ast.parent? child = some parent → child ∈ ast.children parent

/-- The links that edits keep which do not share. -/
structure Unshared (ast : Ast) : Prop where
  /-- No child is listed twice. -/
  nodup : ∀ parent, (ast.children parent).Nodup
  /-- Children link back. -/
  back : ∀ parent, ∀ child ∈ ast.children parent, ast.parent? child = some parent

/-- What lists a child is there. -/
theorem has_of_mem_children (h : child ∈ ast.children parent) : ast.has parent = true := by
  by_contra hn
  rw [children_eq_nil (by simpa using hn)] at h
  cases h

/-- Where nodes are listed under their parents, parents are there. -/
theorem Linked.contained (h : ast.Linked) : ast.Contained where
  children := h.children
  parents := fun child parent hp => has_of_mem_children (h.listed child parent hp)
  root := h.root

/-- A node that is there stands at its place. -/
theorem exists_node_of_mem {node : Node} (h : node ∈ ast.nodes.toList) :
    ∃ id, ast.node? id = some node ∧ ast.children id = node.children := by
  obtain ⟨i, hi⟩ := List.mem_iff_getElem?.mp h
  have hnode : ast.node? ⟨i⟩ = some node := by simpa [node?] using hi
  exact ⟨⟨i⟩, hnode, children_of_node hnode⟩

/-- Where children link back and no list names a child twice, no two lists name
the same child. -/
theorem Unshared.nodup_mentions (h : ast.Unshared) : ast.mentions.Nodup := by
  have hone (i : Nat) (node : Node) (hi : ast.nodes.toList[i]? = some node) :
      ast.children ⟨i⟩ = node.children := by
    apply children_of_node
    simpa [node?] using hi
  rw [mentions, List.nodup_flatMap]
  constructor
  · intro node hnode
    obtain ⟨id, -, hchildren⟩ := exists_node_of_mem hnode
    exact hchildren ▸ h.nodup id
  · rw [List.pairwise_iff_getElem]
    intro i j hi hj hij child hci hcj
    rw [← hone i _ (List.getElem?_eq_getElem hi)] at hci
    rw [← hone j _ (List.getElem?_eq_getElem hj)] at hcj
    have hsame : (⟨i⟩ : NodeId) = ⟨j⟩ :=
      Option.some.inj ((h.back _ _ hci).symm.trans (h.back _ _ hcj))
    have : i = j := congrArg NodeId.index hsame
    omega

/-! ### What an edit changes -/

/-- The second graph has the nodes and the root of the first, but for the list of
one node and the parent link of one. -/
structure Relinks (ast next : Ast) (parent : NodeId) (list : List NodeId) (child : NodeId)
    (link : Option NodeId) : Prop where
  /-- The nodes stay. -/
  has : ∀ x, next.has x = ast.has x
  /-- The root stays. -/
  root : next.root = ast.root
  /-- One list changes. -/
  children : ∀ x, next.children x = if x = parent then list else ast.children x
  /-- One parent link changes. -/
  parents : ∀ x, next.parent? x = if x = child then link else ast.parent? x

/-- The links stay in order when the list gains and loses nothing but the child,
and the child is listed where its parent link leads. -/
theorem Relinks.linked {list : List NodeId} {link : Option NodeId}
    (h : ast.Relinks next parent list child link) (hl : ast.Linked) (hchild : ast.has child = true)
    (hgains : ∀ c ∈ list, c = child ∨ c ∈ ast.children parent)
    (hkeeps : ∀ c ∈ ast.children parent, c ≠ child → c ∈ list)
    (hlink : ∀ p, link = some p → child ∈ next.children p) : next.Linked where
  children := by
    intro p c hc
    rw [h.has]
    rw [h.children] at hc
    split at hc
    · rcases hgains c hc with rfl | hold
      · exact hchild
      · exact hl.children _ c hold
    · exact hl.children p c hc
  root := by
    intro id hid
    rw [h.has]
    exact hl.root id (h.root ▸ hid)
  listed := by
    intro c p hp
    rw [h.parents] at hp
    split at hp
    next hc => exact hc ▸ hlink p hp
    next hne =>
      have hold : c ∈ ast.children p := hl.listed c p hp
      rw [h.children]
      split
      next hpp => exact hkeeps c (hpp ▸ hold) hne
      next => exact hold

/-- Lists stay unshared when the child is listed under its parent alone. -/
theorem Relinks.unshared {list : List NodeId} {link : Option NodeId}
    (h : ast.Relinks next parent list child link) (hu : ast.Unshared) (hnodup : list.Nodup)
    (hgains : ∀ c ∈ list, c = child ∨ c ∈ ast.children parent)
    (hlink : ∀ p, child ∈ next.children p → link = some p) : next.Unshared where
  nodup := by
    intro p
    rw [h.children]
    split
    · exact hnodup
    · exact hu.nodup p
  back := by
    intro p c hc
    rw [h.parents]
    split
    next hchild => exact hlink p (hchild ▸ hc)
    next hne =>
      rw [h.children] at hc
      split at hc
      next hp => exact hp ▸ hu.back _ c ((hgains c hc).resolve_left hne)
      next => exact hu.back p c hc

/-- The links stay in order when a child is listed once more, and is linked to where it
is listed or stays linked as it was. -/
theorem Relinks.linked_of_perm {list : List NodeId} {link : Option NodeId}
    (h : ast.Relinks next parent list child link) (hl : ast.Linked) (hchild : ast.has child = true)
    (hperm : list.Perm (child :: ast.children parent))
    (hlink : link = some parent ∨ link = ast.parent? child) : next.Linked := by
  have hmem (c : NodeId) : c ∈ list ↔ c = child ∨ c ∈ ast.children parent :=
    hperm.mem_iff.trans List.mem_cons
  refine h.linked hl hchild (fun c => (hmem c).mp) (fun c hc _ => (hmem c).mpr (.inr hc)) ?_
  intro p hp
  rw [h.children]
  split
  next => exact (hmem child).mpr (.inl rfl)
  next hne =>
    rcases hlink with rfl | rfl
    · exact absurd (Option.some.inj hp).symm hne
    · exact hl.listed child p hp

/-- Lists stay unshared when a child that no list names is listed and linked. -/
theorem Relinks.unshared_of_perm {list : List NodeId}
    (h : ast.Relinks next parent list child (some parent)) (hu : ast.Unshared)
    (hnew : ∀ p, child ∉ ast.children p) (hperm : list.Perm (child :: ast.children parent)) :
    next.Unshared := by
  refine h.unshared hu ?_ (fun c hc => List.mem_cons.mp (hperm.mem_iff.mp hc)) ?_
  · exact hperm.nodup_iff.mpr (List.nodup_cons.mpr ⟨hnew parent, hu.nodup parent⟩)
  · intro p hp
    rw [h.children] at hp
    split at hp
    next hsame => rw [hsame]
    next => exact absurd hp (hnew p)

/-- What is checked is there. -/
theorem check_eq_ok {u : Unit} : ast.check id = .ok u ↔ ast.has id = true := by
  unfold check
  split <;> simp_all

/-- To attach is to list the child last and to link it. -/
theorem attach_eq_ok (h : ast.attach parent child = .ok next) :
    ast.has parent = true ∧ ast.has child = true ∧ ast.parent? child = none ∧
      ast.Relinks next parent (ast.children parent ++ [child]) child (some parent) := by
  obtain ⟨u, hparent, h⟩ := bind_eq_ok.mp h
  obtain ⟨v, hchild, h⟩ := bind_eq_ok.mp h
  rw [check_eq_ok] at hparent hchild
  split at h
  next => cases h
  next hfree =>
    cases h
    refine ⟨hparent, hchild, hfree, ?_, rfl, fun x => ?_, fun x => ?_⟩
    · simp
    · rw [children_modify_list (· ++ [child]) (by simpa using hparent)]
      simp only [children_modify_link]
    · rw [parent?_modify_list (· ++ [child]), parent?_modify_link hchild]

/-- To share is to list the child last. -/
theorem shareChild_eq_ok (h : ast.shareChild parent child = .ok next) :
    ast.has child = true ∧
      ast.Relinks next parent (ast.children parent ++ [child]) child (ast.parent? child) := by
  obtain ⟨u, hparent, h⟩ := bind_eq_ok.mp h
  obtain ⟨v, hchild, h⟩ := bind_eq_ok.mp h
  rw [check_eq_ok] at hparent hchild
  cases h
  refine ⟨hchild, ?_, rfl, fun x => ?_, fun x => ?_⟩
  · simp
  · exact children_modify_list (· ++ [child]) hparent x
  · rw [parent?_modify_list (· ++ [child])]
    split
    next hx => rw [hx]
    next => rfl

/-- To remove is to take the first mention of the child off the list, and its parent
link away when that leads here and no mention is left. -/
theorem removeChild_eq_ok (h : ast.removeChild parent child = .ok next) :
    child ∈ ast.children parent ∧
      ast.Relinks next parent ((ast.children parent).erase child) child
        (if ast.parent? child = some parent ∧ child ∉ (ast.children parent).erase child then none
          else ast.parent? child) := by
  obtain ⟨u, hchild, h⟩ := bind_eq_ok.mp h
  obtain ⟨v, hparent, h⟩ := bind_eq_ok.mp h
  rw [check_eq_ok] at hparent hchild
  dsimp only at h
  split at h
  next => cases h
  next hmem =>
    have hmem : child ∈ ast.children parent := by simpa using hmem
    refine ⟨hmem, ?_⟩
    rw [parent?_modify_list (fun _ => (ast.children parent).erase child)] at h
    have hlist := children_modify_list (fun _ => (ast.children parent).erase child) hparent
    have hlink (x : NodeId) : (ast.modify parent fun n =>
        { n with children := (ast.children parent).erase child }).parent? x = ast.parent? x :=
      parent?_modify_list (fun _ => (ast.children parent).erase child) x
    split at h
    next hfree =>
      cases h
      have hfree : ast.parent? child = some parent ∧
          child ∉ (ast.children parent).erase child := by simpa using hfree
      rw [if_pos hfree]
      refine ⟨by simp, rfl, fun x => ?_, fun x => ?_⟩
      · rw [children_modify_link, hlist]
      · rw [parent?_modify_link (by simpa using hchild), hlink]
    next hheld =>
      cases h
      have hheld : ¬(ast.parent? child = some parent ∧
          child ∉ (ast.children parent).erase child) := by simpa using hheld
      rw [if_neg hheld]
      refine ⟨by simp, rfl, hlist, fun x => ?_⟩
      rw [hlink]
      split
      next hx => rw [hx]
      next => rfl

/-- To append is to add the child and to attach it. -/
theorem appendChild_eq_ok {construct : Construct} {made : Ast × NodeId}
    (h : ast.appendChild parent construct = .ok made) :
    (ast.add construct).1.attach parent ast.nextId = .ok made.1 := by
  obtain ⟨u, -, h⟩ := bind_eq_ok.mp h
  obtain ⟨attached, hattach, h⟩ := bind_eq_ok.mp h
  cases h
  exact hattach

/-- To insert is to add the child, to list it at its place and to link it. -/
theorem insertChild_eq_ok {index : Nat} {construct : Construct} {made : Ast × NodeId}
    (h : ast.insertChild parent index construct = .ok made) :
    index ≤ (ast.children parent).length ∧ ast.has parent = true ∧
      (ast.add construct).1.Relinks made.1 parent
        ((ast.children parent).insertIdx index ast.nextId) ast.nextId (some parent) := by
  obtain ⟨u, hparent, h⟩ := bind_eq_ok.mp h
  rw [check_eq_ok] at hparent
  dsimp only at h
  split at h
  next => cases h
  next hindex =>
    cases h
    have hstays : (ast.add construct).1.has parent = true := (has_push _ _ _).mpr (.inr hparent)
    have hchild : (ast.add construct).1.has ast.nextId = true := has_nextId _ _
    refine ⟨by omega, hparent, fun x => ?_, rfl, fun x => ?_, fun x => ?_⟩
    · simp [add, push]
    · change (((ast.add construct).1.modify ast.nextId fun n =>
        { n with parent := some parent }).modify parent fun n =>
          { n with children := n.children.insertIdx index ast.nextId }).children x = _
      rw [children_modify_list (·.insertIdx index ast.nextId) (by simpa using hstays)]
      simp only [children_modify_link, children_add]
    · change (((ast.add construct).1.modify ast.nextId fun n =>
        { n with parent := some parent }).modify parent fun n =>
          { n with children := n.children.insertIdx index ast.nextId }).parent? x = _
      rw [parent?_modify_list (·.insertIdx index ast.nextId), parent?_modify_link hchild]

/-! ### What edits keep -/

/-- The links stay in order when a node is added. -/
theorem Linked.add (h : ast.Linked) (construct : Construct) : (ast.add construct).1.Linked where
  children := fun p c hc => (has_push _ _ _).mpr (.inr (h.children p c (children_add .. ▸ hc)))
  root := fun id hid => (has_push _ _ _).mpr (.inr (h.root id hid))
  listed := by
    intro c p hp
    rw [parent?_add] at hp
    rw [children_add]
    exact h.listed c p hp

/-- Lists stay unshared when a node is added. -/
theorem Unshared.add (h : ast.Unshared) (construct : Construct) :
    (ast.add construct).1.Unshared where
  nodup := fun p => (children_add ast construct p).symm ▸ h.nodup p
  back := by
    intro p c hc
    rw [children_add] at hc
    rw [parent?_add]
    exact h.back p c hc

/-- In a graph whose links are in order no list names the node that comes next. -/
theorem Linked.size_not_listed (h : ast.Linked) (p : NodeId) :
    (⟨ast.size⟩ : NodeId) ∉ ast.children p := by
  intro hc
  have hhas := h.children p _ hc
  rw [has_size] at hhas
  cases hhas

/-- The links stay in order when a child is attached. -/
theorem Linked.attach (h : ast.Linked) (hok : ast.attach parent child = .ok next) :
    next.Linked := by
  obtain ⟨-, hchild, -, hr⟩ := attach_eq_ok hok
  exact hr.linked_of_perm h hchild (List.perm_append_singleton _ _) (.inl rfl)

/-- Lists stay unshared when a child is attached: without a parent link, no list
has named it. -/
theorem Unshared.attach (h : ast.Unshared) (hok : ast.attach parent child = .ok next) :
    next.Unshared := by
  obtain ⟨-, -, hfree, hr⟩ := attach_eq_ok hok
  have hnew (p : NodeId) : child ∉ ast.children p := by
    intro hc
    rw [h.back p child hc] at hfree
    cases hfree
  exact hr.unshared_of_perm h hnew (List.perm_append_singleton _ _)

/-- The links stay in order when a child is shared. -/
theorem Linked.shareChild (h : ast.Linked) (hok : ast.shareChild parent child = .ok next) :
    next.Linked := by
  obtain ⟨hchild, hr⟩ := shareChild_eq_ok hok
  exact hr.linked_of_perm h hchild (List.perm_append_singleton _ _) (.inr rfl)

/-- The links stay in order when a child is inserted. -/
theorem Linked.insertChild (h : ast.Linked) {index : Nat} {construct : Construct}
    {made : Ast × NodeId} (hok : ast.insertChild parent index construct = .ok made) :
    made.1.Linked := by
  obtain ⟨hindex, hparent, hr⟩ := insertChild_eq_ok hok
  refine hr.linked_of_perm (h.add construct) (has_nextId _ _) ?_ (.inl rfl)
  rw [(ast.children_add construct) parent]
  exact List.perm_insertIdx _ _ hindex

/-- Lists stay unshared when a child is inserted that is new. -/
theorem Unshared.insertChild (h : ast.Unshared) (hl : ast.Linked) {index : Nat}
    {construct : Construct} {made : Ast × NodeId}
    (hok : ast.insertChild parent index construct = .ok made) (hroom : ast.size < 2 ^ 32) :
    made.1.Unshared := by
  obtain ⟨hindex, hparent, hr⟩ := insertChild_eq_ok hok
  refine hr.unshared_of_perm (h.add construct) (fun p => ?_) ?_
  · rw [children_add, nextId_of_lt hroom]
    exact hl.size_not_listed p
  · rw [children_add]
    exact List.perm_insertIdx _ _ hindex

/-- The links stay in order when a mention is removed: the parent link goes when it led
here and no mention is left. -/
theorem Linked.removeChild (h : ast.Linked) (hok : ast.removeChild parent child = .ok next) :
    next.Linked := by
  obtain ⟨hmem, hr⟩ := removeChild_eq_ok hok
  refine hr.linked h (h.children parent child hmem) (fun c hc => .inr (List.mem_of_mem_erase hc))
    (fun c hc hne => (List.mem_erase_of_ne hne).mpr hc) (fun p hp => ?_)
  split at hp
  next => cases hp
  next hheld =>
    rw [hr.children]
    split
    next hsame =>
      -- the link leads here, so it would have gone without another mention
      rw [hsame] at hp
      by_contra hgone
      exact hheld ⟨hp, hgone⟩
    next => exact h.listed child p hp

/-- Lists stay unshared when a mention is removed. -/
theorem Unshared.removeChild (h : ast.Unshared) (hok : ast.removeChild parent child = .ok next) :
    next.Unshared := by
  obtain ⟨hmem, hr⟩ := removeChild_eq_ok hok
  refine hr.unshared h ((h.nodup parent).erase child)
    (fun c hc => .inr (List.mem_of_mem_erase hc)) (fun p hp => ?_)
  have hparent : ast.parent? child = some parent := h.back parent child hmem
  have hgone : child ∉ (ast.children parent).erase child := (h.nodup parent).not_mem_erase
  rw [hr.children] at hp
  split at hp
  next => exact absurd hp hgone
  next hne =>
    -- another list that names the child would be linked back to as well
    exact absurd (Option.some.inj ((h.back p child hp).symm.trans hparent)) hne

/-- The links stay in order when they stay as they are and the root is there. -/
theorem Linked.unmoved (h : ast.Linked) (hhas : ∀ x, next.has x = ast.has x)
    (hchildren : ∀ x, next.children x = ast.children x)
    (hparents : ∀ x, next.parent? x = ast.parent? x)
    (hroot : ∀ id, next.root = some id → ast.has id = true) : next.Linked where
  children := fun p c hc => (hhas c).trans (h.children p c (hchildren p ▸ hc))
  root := fun id hid => (hhas id).trans (hroot id hid)
  listed := fun c p hp => (hchildren p).symm ▸ h.listed c p (hparents c ▸ hp)

/-- Lists stay unshared when the links stay as they are. -/
theorem Unshared.unmoved (h : ast.Unshared) (hchildren : ∀ x, next.children x = ast.children x)
    (hparents : ∀ x, next.parent? x = ast.parent? x) : next.Unshared where
  nodup := fun p => (hchildren p).symm ▸ h.nodup p
  back := fun p c hc => (hparents c).trans (h.back p c (hchildren p ▸ hc))

/-- To set a position leaves all links as they are. -/
theorem setPosition_eq_ok {position : SourcePosition}
    (h : ast.setPosition id position = .ok next) :
    (∀ x, next.has x = ast.has x) ∧ next.root = ast.root ∧
      (∀ x, next.children x = ast.children x) ∧ ∀ x, next.parent? x = ast.parent? x := by
  obtain ⟨u, -, h⟩ := bind_eq_ok.mp h
  cases h
  refine ⟨by simp, rfl, fun x => ?_, fun x => ?_⟩
  · simp only [Ast.children, node?_modify]
    split
    next => cases ast.node? x <;> rfl
    next => rfl
  · simp only [parent?, node?_modify]
    split
    next => cases ast.node? x <;> rfl
    next => rfl

/-- To set the root is to set it to a node that is there. -/
theorem setRoot_eq_ok (h : ast.setRoot id = .ok next) :
    ast.has id = true ∧ next = { ast with root := some id } := by
  obtain ⟨u, hid, h⟩ := bind_eq_ok.mp h
  cases h
  exact ⟨check_eq_ok.mp hid, rfl⟩

/-- The links of a new graph are in order. -/
theorem linked_created (start : Option Construct) : (created start).Linked := by
  have hempty : empty.Linked := ⟨by simp [Ast.children, node?, empty], by simp [empty],
    by simp [parent?, node?, empty]⟩
  cases start with
  | none => exact hempty
  | some construct =>
    refine (hempty.add construct).unmoved (fun _ => rfl) (fun _ => rfl) (fun _ => rfl) ?_
    rintro id hid
    cases hid
    exact has_nextId _ _

/-- Nothing is shared in a new graph. -/
theorem unshared_created (start : Option Construct) : (created start).Unshared := by
  have hempty : empty.Unshared := ⟨by simp [Ast.children, node?, empty],
    by simp [Ast.children, node?, empty]⟩
  cases start with
  | none => exact hempty
  | some construct => exact (hempty.add construct).unmoved (fun _ => rfl) (fun _ => rfl)

/-- Every call that is not refused keeps the links in order. -/
theorem Linked.apply (h : ast.Linked) {e : Edit} (hok : e.apply ast = .ok next) :
    next.Linked := by
  cases e with
  | add construct =>
    cases hok
    exact h.add construct
  | setRoot id =>
    obtain ⟨hid, rfl⟩ := setRoot_eq_ok hok
    refine h.unmoved (fun _ => rfl) (fun _ => rfl) (fun _ => rfl) (fun id' hid' => ?_)
    cases hid'
    exact hid
  | setFile file =>
    cases hok
    exact h.unmoved (fun _ => rfl) (fun _ => rfl) (fun _ => rfl) h.root
  | setPosition id position =>
    obtain ⟨hhas, hroot, hchildren, hparents⟩ := setPosition_eq_ok hok
    exact h.unmoved hhas hchildren hparents (hroot ▸ h.root)
  | attach parent child => exact h.attach hok
  | appendChild parent construct =>
    obtain ⟨made, hmade, hok⟩ := bind_eq_ok.mp hok
    cases hok
    exact (h.add construct).attach (appendChild_eq_ok hmade)
  | insertChild parent index construct =>
    obtain ⟨made, hmade, hok⟩ := bind_eq_ok.mp hok
    cases hok
    exact h.insertChild hmade
  | shareChild parent child => exact h.shareChild hok
  | removeChild parent child => exact h.removeChild hok

/-- All nodes stay, and where a child is inserted there is one node more. -/
theorem size_apply {e : Edit} (hok : e.apply ast = .ok next) :
    ast.size ≤ next.size ∧
      ∀ parent index construct, e = .insertChild parent index construct → ast.size < next.size := by
  have hadd (construct : Construct) (x : NodeId) (hx : ast.has x = true) :
      (ast.add construct).1.has x = true := (has_push _ _ _).mpr (.inr hx)
  cases e with
  | add construct =>
    cases hok
    exact ⟨size_le_of_has (hadd construct), by rintro _ _ _ ⟨⟩⟩
  | setRoot id =>
    obtain ⟨-, rfl⟩ := setRoot_eq_ok hok
    exact ⟨Nat.le_refl _, by rintro _ _ _ ⟨⟩⟩
  | setFile file =>
    cases hok
    exact ⟨Nat.le_refl _, by rintro _ _ _ ⟨⟩⟩
  | setPosition id position =>
    have hhas := (setPosition_eq_ok hok).1
    exact ⟨size_le_of_has fun x hx => (hhas x).trans hx, by rintro _ _ _ ⟨⟩⟩
  | attach parent child =>
    obtain ⟨-, -, -, hr⟩ := attach_eq_ok hok
    exact ⟨size_le_of_has fun x hx => (hr.has x).trans hx, by rintro _ _ _ ⟨⟩⟩
  | appendChild parent construct =>
    obtain ⟨made, hmade, hok⟩ := bind_eq_ok.mp hok
    cases hok
    obtain ⟨-, -, -, hr⟩ := attach_eq_ok (appendChild_eq_ok hmade)
    exact ⟨size_le_of_has fun x hx => (hr.has x).trans (hadd construct x hx),
      by rintro _ _ _ ⟨⟩⟩
  | insertChild parent index construct =>
    obtain ⟨made, hmade, hok⟩ := bind_eq_ok.mp hok
    cases hok
    obtain ⟨-, -, hr⟩ := insertChild_eq_ok hmade
    have hone : (ast.add construct).1.size ≤ made.1.size :=
      size_le_of_has fun x hx => (hr.has x).trans hx
    rw [size_add] at hone
    have hlt : ast.size < made.1.size := hone
    exact ⟨Nat.le_of_lt hlt, fun _ _ _ _ => hlt⟩
  | shareChild parent child =>
    obtain ⟨-, hr⟩ := shareChild_eq_ok hok
    exact ⟨size_le_of_has fun x hx => (hr.has x).trans hx, by rintro _ _ _ ⟨⟩⟩
  | removeChild parent child =>
    obtain ⟨-, hr⟩ := removeChild_eq_ok hok
    exact ⟨size_le_of_has fun x hx => (hr.has x).trans hx, by rintro _ _ _ ⟨⟩⟩

/-- Every call that is not refused and does not share keeps the lists unshared, as long as
there are no more nodes than identities. -/
theorem Unshared.apply (h : ast.Unshared) (hl : ast.Linked) {e : Edit}
    (hok : e.apply ast = .ok next) (hshares : e.shares = false) (hroom : next.size ≤ 2 ^ 32) :
    next.Unshared := by
  cases e with
  | add construct =>
    cases hok
    exact h.add construct
  | setRoot id =>
    obtain ⟨-, rfl⟩ := setRoot_eq_ok hok
    exact h.unmoved (fun _ => rfl) (fun _ => rfl)
  | setFile file =>
    cases hok
    exact h.unmoved (fun _ => rfl) (fun _ => rfl)
  | setPosition id position =>
    obtain ⟨-, -, hchildren, hparents⟩ := setPosition_eq_ok hok
    exact h.unmoved hchildren hparents
  | attach parent child => exact h.attach hok
  | appendChild parent construct =>
    obtain ⟨made, hmade, hok⟩ := bind_eq_ok.mp hok
    cases hok
    exact (h.add construct).attach (appendChild_eq_ok hmade)
  | insertChild parent index construct =>
    have hlt := (size_apply hok).2 _ _ _ rfl
    obtain ⟨made, hmade, hok⟩ := bind_eq_ok.mp hok
    cases hok
    exact h.insertChild hl hmade (Nat.lt_of_lt_of_le hlt hroom)
  | shareChild parent child => cases hshares
  | removeChild parent child => exact h.removeChild hok

end Ast

end SourceScribe
