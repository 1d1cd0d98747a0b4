import SourceScribe.Proofs.Edits

/-!
# Edits undone

What an accepted edit makes of a graph can be written down as a whole, node by node.
From that it can be seen that to remove a child undoes what has listed and linked it:
a child that was attached goes back to where it was, and of a child that was added
nothing is left but the node itself, behind all the others and without links.
-/

namespace SourceScribe

namespace Ast

variable {ast next : Ast} {id parent child : NodeId}

/-- A node that is there is not refused. -/
theorem check_of_node {n : Node} (h : ast.node? id = some n) : ast.check id = .ok () :=
  check_eq_ok.mpr (has_iff.mpr ⟨n, h⟩)

/-- A node that is not there is refused. -/
theorem check_of_missing (h : ast.node? id = none) :
    ast.check id = .error (.unknownNode id) := by
  have hhas : ¬ast.has id = true := by
    intro hhas
    obtain ⟨n, hn⟩ := has_iff.mp hhas
    rw [h] at hn
    cases hn
  rw [check, if_neg hhas]

/-- Only what a change makes of the node itself matters. -/
theorem modify_congr {edit edit' : Node → Node}
    (h : ∀ n, ast.node? id = some n → edit n = edit' n) :
    ast.modify id edit = ast.modify id edit' := by
  refine ext_node? (fun x => ?_) rfl rfl
  rw [node?_modify, node?_modify]
  by_cases hx : x = id
  · rw [if_pos hx, if_pos hx, hx]
    cases hnode : ast.node? id with
    | none => rfl
    | some n => exact congrArg some (h n hnode)
  · rw [if_neg hx, if_neg hx]

/-- A node without parent link can be attached. -/
theorem attach_of_free (hparent : ast.has parent = true) (hchild : ast.has child = true)
    (hfree : ast.parent? child = none) :
    ast.attach parent child =
      .ok ((ast.modify child fun n => { n with parent := some parent }).modify parent
        fun n => { n with children := n.children ++ [child] }) := by
  have hp : ast.check parent = .ok () := check_eq_ok.mpr hparent
  have hc : ast.check child = .ok () := check_eq_ok.mpr hchild
  rw [attach, hp, hc, hfree]
  rfl

/-- The graph with a further node, in which the next identity links to a parent and the list
of the parent has been changed. -/
def adopted (ast : Ast) (parent : NodeId) (construct : Construct)
    (list : List NodeId → List NodeId) : Ast :=
  ((ast.add construct).1.modify ast.nextId fun n => { n with parent := some parent }).modify parent
    fun n => { n with children := list n.children }

/-- The next identity can be attached if it has no parent link yet. -/
theorem attach_added (hparent : ast.has parent = true) (hfree : ast.parent? ast.nextId = none)
    (construct : Construct) :
    (ast.add construct).1.attach parent ast.nextId =
      .ok (ast.adopted parent construct (· ++ [ast.nextId])) := by
  have hstays : (ast.add construct).1.has parent = true := (has_push _ _ _).mpr (.inr hparent)
  have hnew : (ast.add construct).1.has ast.nextId = true := has_nextId _ _
  exact attach_of_free hstays hnew ((ast.parent?_add construct _).trans hfree)

/-- A node can be added as the last child of a node that is there. -/
theorem appendChild_of_has (hparent : ast.has parent = true)
    (hfree : ast.parent? ast.nextId = none) (construct : Construct) :
    ast.appendChild parent construct =
      .ok (ast.adopted parent construct (· ++ [ast.nextId]), ast.nextId) := by
  have hp : ast.check parent = .ok () := check_eq_ok.mpr hparent
  rw [appendChild, hp]
  change (do return (← (ast.add construct).1.attach parent ast.nextId, ast.nextId)) = _
  rw [attach_added hparent hfree]
  rfl

/-- What a child has been appended to is there. -/
theorem has_of_appendChild {construct : Construct} {made : Ast × NodeId}
    (h : ast.appendChild parent construct = .ok made) : ast.has parent = true := by
  obtain ⟨u, hcheck, -⟩ := bind_eq_ok.mp h
  exact check_eq_ok.mp hcheck

/-- A node can be added at a place that is not behind the end of a list. -/
theorem insertChild_of_le (hparent : ast.has parent = true) {index : Nat}
    (hindex : index ≤ (ast.children parent).length) (construct : Construct) :
    ast.insertChild parent index construct =
      .ok (ast.adopted parent construct (·.insertIdx index ast.nextId), ast.nextId) := by
  have hp : ast.check parent = .ok () := check_eq_ok.mpr hparent
  rw [insertChild, hp]
  change (if (ast.children parent).length < index then _ else _) = _
  rw [if_neg (Nat.not_lt.mpr hindex)]
  rfl

/-- No node can be added at a place behind the end of a list. -/
theorem insertChild_of_lt (hparent : ast.has parent = true) {index : Nat}
    (hindex : (ast.children parent).length < index) (construct : Construct) :
    ast.insertChild parent index construct =
      .error (.indexOutOfBounds parent index (ast.children parent).length) := by
  have hp : ast.check parent = .ok () := check_eq_ok.mpr hparent
  rw [insertChild, hp]
  change (if (ast.children parent).length < index then _ else _) = _
  rw [if_pos hindex]

/-- The graph in which a list of children has lost the first mention of one. -/
def unlisted (ast : Ast) (parent child : NodeId) : Ast :=
  ast.modify parent fun n => { n with children := n.children.erase child }

/-- What is not listed cannot be removed. -/
theorem removeChild_of_not_mem (hparent : ast.has parent = true) (hchild : ast.has child = true)
    (h : child ∉ ast.children parent) :
    ast.removeChild parent child = .error (.notAChild parent child) := by
  have hp : ast.check parent = .ok () := check_eq_ok.mpr hparent
  have hc : ast.check child = .ok () := check_eq_ok.mpr hchild
  have hlisted : (ast.children parent).contains child = false := by
    simpa using h
  rw [removeChild, hp, hc]
  change (if !(ast.children parent).contains child then _ else _) = _
  rw [hlisted]
  rfl

/-- What is listed loses its first mention, and its parent link when that leads here and no
mention is left. -/
theorem removeChild_of_mem (hchild : ast.has child = true) (h : child ∈ ast.children parent) :
    ast.removeChild parent child =
      .ok (if ast.parent? child = some parent ∧ child ∉ (ast.children parent).erase child
        then (ast.unlisted parent child).modify child fun n => { n with parent := none }
        else ast.unlisted parent child) := by
  have hp : ast.check parent = .ok () := check_eq_ok.mpr (has_of_mem_children h)
  have hc : ast.check child = .ok () := check_eq_ok.mpr hchild
  have hlisted : (ast.children parent).contains child = true := by
    simpa using h
  have hedited : (ast.modify parent fun n =>
      { n with children := (ast.children parent).erase child }) = ast.unlisted parent child := by
    refine modify_congr fun n hn => ?_
    rw [children_of_node hn]
  have hlink : (ast.unlisted parent child).parent? child = ast.parent? child :=
    parent?_modify_list (·.erase child) child
  rw [removeChild, hp, hc]
  change (if !(ast.children parent).contains child then _ else _) = _
  rw [hlisted]
  change (if (ast.modify parent fun n =>
      { n with children := (ast.children parent).erase child }).parent? child = some parent &&
        !((ast.children parent).erase child).contains child then _ else _) = _
  rw [hedited, hlink]
  by_cases hfreed : ast.parent? child = some parent ∧ child ∉ (ast.children parent).erase child
  · rw [if_pos hfreed, if_pos (by simpa using hfreed)]
    rfl
  · rw [if_neg hfreed, if_neg (by simpa using hfreed)]
    rfl

/-- What has been inserted into a list that did not name it is erased again. -/
theorem erase_insertIdx {ids : List NodeId} (h : id ∉ ids) {index : Nat}
    (hindex : index ≤ ids.length) : (ids.insertIdx index id).erase id = ids := by
  induction ids generalizing index with
  | nil =>
    have hzero : index = 0 := by simpa using hindex
    rw [hzero, List.insertIdx_zero, List.erase_cons_head]
  | cons first ids ih =>
    rw [List.mem_cons, not_or] at h
    obtain ⟨hne, hrest⟩ := h
    cases index with
    | zero => rw [List.insertIdx_zero, List.erase_cons_head]
    | succ index =>
      have hle : index ≤ ids.length := by
        rw [List.length_cons] at hindex
        omega
      have htail : ¬(first == id) = true := by simpa using Ne.symm hne
      rw [List.insertIdx_succ_cons, List.erase_cons_tail htail, ih hrest hle]

/-- To remove a new child leaves it as a node without links, and the rest as it was. -/
theorem removeChild_adopted (hroom : ast.size < 2 ^ 32) (hparent : ast.has parent = true)
    (construct : Construct) {list : List NodeId → List NodeId}
    (hnew : (⟨ast.size⟩ : NodeId) ∉ ast.children parent)
    (hmem : (⟨ast.size⟩ : NodeId) ∈ list (ast.children parent))
    (herase : (list (ast.children parent)).erase ⟨ast.size⟩ = ast.children parent) :
    (ast.adopted parent construct list).removeChild parent ⟨ast.size⟩ =
      .ok (ast.add construct).1 := by
  obtain ⟨p, hp⟩ := has_iff.mp hparent
  have hlist : ast.children parent = p.children := children_of_node hp
  have hne : parent ≠ ⟨ast.size⟩ := by
    rintro rfl
    rw [has_size] at hparent
    cases hparent
  have hadopted : ast.adopted parent construct list =
      ((ast.add construct).1.modify ⟨ast.size⟩ fun n => { n with parent := some parent }).modify
        parent fun n => { n with children := list n.children } := by
    rw [adopted, nextId_of_lt hroom]
  have hthere (x : NodeId) (hx : x = ⟨ast.size⟩ ∨ ast.has x = true) :
      ((ast.add construct).1.modify ⟨ast.size⟩ fun n =>
        { n with parent := some parent }).has x = true :=
    (has_modify _ _ _ _).trans ((has_push _ _ _).mpr hx)
  have hchildren : (ast.adopted parent construct list).children parent =
      list (ast.children parent) := by
    rw [hadopted, children_modify_list list (hthere parent (.inr hparent)), if_pos rfl,
      children_modify_link, children_add]
  have hadded : (ast.add construct).1.has ⟨ast.size⟩ = true := (has_push _ _ _).mpr (.inl rfl)
  have hlink : (ast.adopted parent construct list).parent? ⟨ast.size⟩ = some parent := by
    rw [hadopted, parent?_modify_list list, parent?_modify_link hadded, if_pos rfl]
  have hhas : (ast.adopted parent construct list).has ⟨ast.size⟩ = true := by
    rw [hadopted, has_modify]
    exact hthere _ (.inl rfl)
  rw [removeChild_of_mem hhas (hchildren ▸ hmem), hchildren, herase, if_pos ⟨hlink, hnew⟩]
  rw [unlisted, hadopted, add]
  refine congrArg Except.ok (ext_node? (fun x => ?_) rfl rfl)
  simp only [node?_modify, node?_push]
  by_cases hx : x = ⟨ast.size⟩
  · rw [if_pos hx, if_neg (hx ▸ hne.symm), if_neg (hx ▸ hne.symm), if_pos hx, if_pos hx]
    rfl
  · rw [if_neg hx, if_neg hx, if_neg hx]
    by_cases hxp : x = parent
    · rw [if_pos hxp, if_pos hxp, hxp, hp]
      rw [hlist] at herase
      simp only [Option.map_some, herase]
    · rw [if_neg hxp, if_neg hxp]

/-- To remove a child that has been attached leaves all as it was. -/
theorem removeChild_attached (hattach : ast.attach parent child = .ok next)
    (hnew : child ∉ ast.children parent) : next.removeChild parent child = .ok ast := by
  obtain ⟨hparent, hchild, hfree, hrelinks⟩ := attach_eq_ok hattach
  have hchildren : next.children parent = ast.children parent ++ [child] := by
    rw [hrelinks.children, if_pos rfl]
  have hlink : next.parent? child = some parent := by
    rw [hrelinks.parents, if_pos rfl]
  have herase : (ast.children parent ++ [child]).erase child = ast.children parent := by
    rw [List.erase_append_right _ hnew, List.erase_cons_head, List.append_nil]
  have hhas : next.has child = true := (hrelinks.has child).trans hchild
  have hmem : child ∈ next.children parent := by
    rw [hchildren]
    exact List.mem_append_right _ (List.mem_singleton_self child)
  rw [removeChild_of_mem hhas hmem, hchildren, herase, if_pos ⟨hlink, hnew⟩]
  rw [attach_of_free hparent hchild hfree] at hattach
  cases hattach
  refine congrArg Except.ok (ext_node? (fun x => ?_) rfl rfl)
  cases hnode : ast.node? x with
  | none =>
    rw [unlisted]
    simp only [node?_modify, hnode, Option.map_none, ite_self]
  | some n =>
    have hlisted : x = parent → (n.children ++ [child]).erase child = n.children := by
      rintro rfl
      rwa [children_of_node hnode] at herase
    have hunlinked : x = child → n.parent = none := by
      rintro rfl
      rwa [parent?, hnode, Option.bind_some] at hfree
    rw [unlisted]
    simp only [node?_modify, hnode]
    by_cases hx : x = child
    · have hlinks : ({ n with parent := none } : Node) = n := by rw [← hunlinked hx]
      by_cases hxp : x = parent
      · simp only [if_pos hx, if_pos hxp, Option.map_some, hlisted hxp, hlinks]
      · simp only [if_pos hx, if_neg hxp, Option.map_some, hlinks]
    · by_cases hxp : x = parent
      · simp only [if_neg hx, if_pos hxp, Option.map_some, hlisted hxp]
      · simp only [if_neg hx, if_neg hxp]

end Ast

end SourceScribe
