import SourceScribe.Ast.Editing
import SourceScribe.Proofs.Undoing

/-!
# Edits are made as a whole or not at all

An edit changes a graph step by step: it adds a node, lists it, links it back. No step
touches a node or a place in a list that is not there, however the links of the graph
were made before. As long as there are identities, all that can be refused is refused
before the first step, so a refused edit leaves the graph exactly as it was, and an
accepted one is the edit as a whole. Behind them a child that is appended may be one
that has a parent, which is seen only after a node has been added.
-/

namespace SourceScribe

namespace Editing

variable {α β : Type} {ast next : Ast} {id parent child : NodeId} {n : Node}

/-- How a program ends that makes an edit as a whole or not at all. -/
def whole (ast : Ast) : Except EditError (Ast × α) → EStateM.Result Stop Ast α
  | .ok (next, a) => .ok a next
  | .error e => .error (.refused e) ast

/-- A program goes on behind a part that has ended. -/
theorem bind_of_ok {first : Editing α} {a : α} (h : first ast = .ok a next)
    (rest : α → Editing β) : (first >>= rest) ast = rest a next := by
  change EStateM.bind first rest ast = _
  rw [EStateM.bind, h]

/-- A program stops with its first part. -/
theorem bind_of_error {first : Editing α} {stop : Stop} (h : first ast = .error stop next)
    (rest : α → Editing β) : (first >>= rest) ast = .error stop next := by
  change EStateM.bind first rest ast = _
  rw [EStateM.bind, h]

/-- A program begins with the graph as it is. -/
theorem get_bind (ast : Ast) (rest : Ast → Editing β) : (get >>= rest) ast = rest ast ast :=
  bind_of_ok rfl rest

/-- A node that is there is found. -/
theorem known_of_node (h : ast.node? id = some n) : known id ast = .ok n ast := by
  rw [known, get_bind, h]
  rfl

/-- A node that is not there is refused. -/
theorem known_of_missing (h : ast.node? id = none) :
    known id ast = .error (.refused (.unknownNode id)) ast := by
  rw [known, get_bind, h]
  rfl

/-- A node that is there can be touched. -/
theorem node_of_node (h : ast.node? id = some n) : node id ast = .ok n ast := by
  rw [node, get_bind, h]
  rfl

/-- A node that is there can be changed. -/
theorem change_of_has (h : ast.has id = true) (edit : Node → Node) :
    change id edit ast = .ok () (ast.modify id edit) := by
  obtain ⟨n, hnode⟩ := Ast.has_iff.mp h
  rw [change, bind_of_ok (node_of_node hnode)]
  rfl

/-- A place that is not behind the end of a list can be filled. -/
theorem listAt_of_le (h : ast.node? parent = some n) {index : Nat}
    (hindex : index ≤ n.children.length) (child : NodeId) :
    listAt parent index child ast =
      .ok () (ast.modify parent fun n =>
        { n with children := n.children.insertIdx index child }) := by
  rw [listAt, bind_of_ok (node_of_node h), if_neg (Nat.not_lt.mpr hindex)]
  exact change_of_has (Ast.has_iff.mpr ⟨n, h⟩) _

/-- An entry of a list can be taken off. -/
theorem unlistAt_of_lt (h : ast.node? parent = some n) {index : Nat}
    (hindex : index < n.children.length) :
    unlistAt parent index ast =
      .ok () (ast.modify parent fun n => { n with children := n.children.eraseIdx index }) := by
  rw [unlistAt, bind_of_ok (node_of_node h), if_neg (Nat.not_le.mpr hindex)]
  exact change_of_has (Ast.has_iff.mpr ⟨n, h⟩) _

/-- To make a node the root is done as a whole. -/
theorem setRoot_eq (ast : Ast) (id : NodeId) :
    setRoot id ast = whole ast ((ast.setRoot id).map fun next => (next, ())) := by
  cases hnode : ast.node? id with
  | none =>
    rw [setRoot, bind_of_error (known_of_missing hnode), Ast.setRoot, Ast.check_of_missing hnode]
    rfl
  | some n =>
    rw [setRoot, bind_of_ok (known_of_node hnode), Ast.setRoot, Ast.check_of_node hnode]
    rfl

/-- To set a position is done as a whole. -/
theorem setPosition_eq (ast : Ast) (id : NodeId) (position : SourcePosition) :
    setPosition id position ast =
      whole ast ((ast.setPosition id position).map fun next => (next, ())) := by
  cases hnode : ast.node? id with
  | none =>
    rw [setPosition, bind_of_error (known_of_missing hnode), Ast.setPosition,
      Ast.check_of_missing hnode]
    rfl
  | some n =>
    have hhas : ast.has id = true := Ast.has_iff.mpr ⟨n, hnode⟩
    rw [setPosition, bind_of_ok (known_of_node hnode), change_of_has hhas, Ast.setPosition,
      Ast.check_of_node hnode]
    rfl

/-- To attach is done as a whole. -/
theorem attach_eq (ast : Ast) (parent child : NodeId) :
    attach parent child ast =
      whole ast ((ast.attach parent child).map fun next => (next, ())) := by
  cases hparent : ast.node? parent with
  | none =>
    rw [attach, bind_of_error (known_of_missing hparent), Ast.attach,
      Ast.check_of_missing hparent]
    rfl
  | some p =>
    cases hchild : ast.node? child with
    | none =>
      rw [attach, bind_of_ok (known_of_node hparent), bind_of_error (known_of_missing hchild),
        Ast.attach, Ast.check_of_node hparent, Ast.check_of_missing hchild]
      rfl
    | some c =>
      have hlink : ast.parent? child = c.parent := by rw [Ast.parent?, hchild, Option.bind_some]
      rw [attach, bind_of_ok (known_of_node hparent), bind_of_ok (known_of_node hchild),
        Ast.attach, Ast.check_of_node hparent, Ast.check_of_node hchild, hlink]
      cases c.parent with
      | some existing => rfl
      | none =>
        have hhas : ast.has parent = true := Ast.has_iff.mpr ⟨p, hparent⟩
        have hlinked : link child (some parent) ast =
            .ok () (ast.modify child fun n => { n with parent := some parent }) :=
          change_of_has (Ast.has_iff.mpr ⟨c, hchild⟩) _
        change (link child (some parent) >>= fun _ => listLast parent child) ast = _
        rw [bind_of_ok hlinked]
        exact change_of_has (by rw [Ast.has_modify, hhas]) _

/-- To share is done as a whole. -/
theorem shareChild_eq (ast : Ast) (parent child : NodeId) :
    shareChild parent child ast =
      whole ast ((ast.shareChild parent child).map fun next => (next, ())) := by
  cases hparent : ast.node? parent with
  | none =>
    rw [shareChild, bind_of_error (known_of_missing hparent), Ast.shareChild,
      Ast.check_of_missing hparent]
    rfl
  | some p =>
    cases hchild : ast.node? child with
    | none =>
      rw [shareChild, bind_of_ok (known_of_node hparent),
        bind_of_error (known_of_missing hchild), Ast.shareChild, Ast.check_of_node hparent,
        Ast.check_of_missing hchild]
      rfl
    | some c =>
      rw [shareChild, bind_of_ok (known_of_node hparent), bind_of_ok (known_of_node hchild),
        Ast.shareChild, Ast.check_of_node hparent, Ast.check_of_node hchild]
      exact change_of_has (Ast.has_iff.mpr ⟨p, hparent⟩) _

/-- A node is added under the next identity. -/
theorem push_add (ast : Ast) (construct : Construct) :
    push { construct := construct } ast = .ok ast.nextId (ast.add construct).1 := rfl

/-- To append is done as a whole when the next identity has no parent link. -/
theorem appendChild_eq {parent : NodeId}
    (hfree : ast.has parent = true → ast.parent? ast.nextId = none) (construct : Construct) :
    appendChild parent construct ast = whole ast (ast.appendChild parent construct) := by
  cases hparent : ast.node? parent with
  | none =>
    rw [appendChild, bind_of_error (known_of_missing hparent), Ast.appendChild,
      Ast.check_of_missing hparent]
    rfl
  | some p =>
    have hhas : ast.has parent = true := Ast.has_iff.mpr ⟨p, hparent⟩
    have hattached := attach_eq (ast.add construct).1 parent ast.nextId
    rw [Ast.attach_added hhas (hfree hhas)] at hattached
    rw [appendChild, bind_of_ok (known_of_node hparent), bind_of_ok (push_add ast construct),
      bind_of_ok hattached, Ast.appendChild_of_has hhas (hfree hhas)]
    rfl

/-- When the next identity has a parent link, the node is added before the edit is refused. -/
theorem appendChild_of_taken {existing : NodeId} (hhas : ast.has parent = true)
    (htaken : ast.parent? ast.nextId = some existing) (construct : Construct) :
    appendChild parent construct ast =
      .error (.refused (.alreadyAttached ast.nextId existing)) (ast.add construct).1 := by
  obtain ⟨p, hparent⟩ := Ast.has_iff.mp hhas
  have hattached := attach_eq (ast.add construct).1 parent ast.nextId
  have hp : (ast.add construct).1.check parent = .ok () :=
    Ast.check_eq_ok.mpr ((Ast.has_push _ _ _).mpr (.inr hhas))
  have hc : (ast.add construct).1.check ast.nextId = .ok () :=
    Ast.check_eq_ok.mpr (Ast.has_nextId _ _)
  rw [Ast.attach, hp, hc, Ast.parent?_add, htaken] at hattached
  rw [appendChild, bind_of_ok (known_of_node hparent), bind_of_ok (push_add ast construct)]
  exact bind_of_error hattached _

/-- To insert is done as a whole. -/
theorem insertChild_eq (ast : Ast) (parent : NodeId) (index : Nat) (construct : Construct) :
    insertChild parent index construct ast =
      whole ast (ast.insertChild parent index construct) := by
  cases hparent : ast.node? parent with
  | none =>
    rw [insertChild, bind_of_error (known_of_missing hparent), Ast.insertChild,
      Ast.check_of_missing hparent]
    rfl
  | some p =>
    have hhas : ast.has parent = true := Ast.has_iff.mpr ⟨p, hparent⟩
    have hlist : ast.children parent = p.children := Ast.children_of_node hparent
    rw [insertChild, bind_of_ok (known_of_node hparent)]
    by_cases hindex : p.children.length < index
    · rw [Ast.insertChild_of_lt hhas (hlist ▸ hindex), hlist, if_pos hindex]
      rfl
    · have hle : index ≤ p.children.length := Nat.le_of_not_lt hindex
      let linked := (ast.add construct).1.modify ast.nextId fun n =>
        { n with parent := some parent }
      have hlinked : link ast.nextId (some parent) (ast.add construct).1 = .ok () linked :=
        change_of_has (Ast.has_nextId _ _) _
      have hstays : linked.has parent = true :=
        (Ast.has_modify _ _ _ _).trans ((Ast.has_push _ _ _).mpr (.inr hhas))
      obtain ⟨n, hnode⟩ := Ast.has_iff.mp hstays
      have hchildren : n.children = p.children := by
        rw [← Ast.children_of_node hnode, ← hlist, Ast.children_modify_link, Ast.children_add]
      have hlisted := listAt_of_le hnode (hchildren ▸ hle) ast.nextId
      rw [Ast.insertChild_of_le hhas (hlist ▸ hle), if_neg hindex]
      change (push { construct := construct } >>= fun child => _) ast = _
      rw [bind_of_ok (push_add ast construct), bind_of_ok hlinked, bind_of_ok hlisted]
      rfl

/-- To remove is done as a whole. -/
theorem removeChild_eq (ast : Ast) (parent child : NodeId) :
    removeChild parent child ast =
      whole ast ((ast.removeChild parent child).map fun next => (next, ())) := by
  cases hchild : ast.node? child with
  | none =>
    rw [removeChild, bind_of_error (known_of_missing hchild), Ast.removeChild,
      Ast.check_of_missing hchild]
    rfl
  | some c =>
    cases hparent : ast.node? parent with
    | none =>
      rw [removeChild, bind_of_ok (known_of_node hchild),
        bind_of_error (known_of_missing hparent), Ast.removeChild, Ast.check_of_node hchild,
        Ast.check_of_missing hparent]
      rfl
    | some p =>
      have hlist : ast.children parent = p.children := Ast.children_of_node hparent
      have hhas : ast.has child = true := Ast.has_iff.mpr ⟨c, hchild⟩
      rw [removeChild, bind_of_ok (known_of_node hchild), bind_of_ok (known_of_node hparent)]
      cases hplace : p.children.idxOf? child with
      | none =>
        have hmissing : child ∉ ast.children parent :=
          hlist ▸ List.idxOf?_eq_none_iff.mp hplace
        rw [Ast.removeChild_of_not_mem (Ast.has_iff.mpr ⟨p, hparent⟩) hhas hmissing]
        rfl
      | some index =>
        obtain ⟨hlt, hget, -⟩ := List.idxOf?_eq_some_iff.mp hplace
        have hmem : child ∈ ast.children parent := hlist ▸ hget ▸ List.getElem_mem hlt
        have herase : p.children.erase child = p.children.eraseIdx index := by
          rw [List.erase_eq_eraseIdx, hplace]
        have hunlisted : unlistAt parent index ast = .ok () (ast.unlisted parent child) := by
          rw [unlistAt_of_lt hparent hlt, Ast.unlisted]
          congr 1
          refine Ast.modify_congr fun n hn => ?_
          rw [Option.some.inj (hn.symm.trans hparent), herase]
        have hleft : (ast.unlisted parent child).node? parent =
            some { p with children := p.children.erase child } := by
          rw [Ast.unlisted, Ast.node?_modify, if_pos rfl, hparent]
          rfl
        have hkept : (ast.unlisted parent child).has child = true := by
          rw [Ast.unlisted, Ast.has_modify, hhas]
        obtain ⟨freed, hfreed⟩ := Ast.has_iff.mp hkept
        have hlink : freed.parent = ast.parent? child := by
          have hsame : (ast.unlisted parent child).parent? child = ast.parent? child :=
            Ast.parent?_modify_list (·.erase child) child
          rw [← hsame, Ast.parent?, hfreed, Option.bind_some]
        rw [Ast.removeChild_of_mem hhas hmem, hlist]
        change (unlistAt parent index >>= fun _ => _) ast = _
        rw [bind_of_ok hunlisted, bind_of_ok (node_of_node hleft), bind_of_ok (node_of_node hfreed),
          hlink]
        by_cases hfree : ast.parent? child = some parent ∧ child ∉ p.children.erase child
        · rw [if_pos hfree, if_pos (by simpa using hfree)]
          exact change_of_has hkept _
        · rw [if_neg hfree, if_neg (by simpa using hfree)]
          rfl

/-- A program that is done as a whole is so with another result, too. -/
theorem map_whole {first : Editing α} {result : Except EditError (Ast × α)}
    (h : first ast = whole ast result) (f : α → β) :
    (first >>= fun a => pure (f a)) ast =
      whole ast (result.map fun made => (made.1, f made.2)) := by
  cases result with
  | ok made => exact bind_of_ok h _
  | error e => exact bind_of_error h _

/-- What a program that is done as a whole has made. -/
theorem whole_eq_ok {result : Except EditError (Ast × α)} {a : α}
    (h : whole ast result = .ok a next) : result = .ok (next, a) := by
  cases result with
  | ok made =>
    cases h
    rfl
  | error e => cases h

end Editing

namespace Edit

/-- A call as a program, which gives the node that it adds, if it adds one. -/
def perform : Edit → Editing (Option NodeId)
  | .add construct => do return some (← Editing.push { construct := construct })
  | .setRoot id => do
    Editing.setRoot id
    return none
  | .setFile file => do
    modify (·.setFile file)
    return none
  | .setPosition id position => do
    Editing.setPosition id position
    return none
  | .attach parent child => do
    Editing.attach parent child
    return none
  | .appendChild parent construct => do return some (← Editing.appendChild parent construct)
  | .insertChild parent index construct => do
    return some (← Editing.insertChild parent index construct)
  | .shareChild parent child => do
    Editing.shareChild parent child
    return none
  | .removeChild parent child => do
    Editing.removeChild parent child
    return none

/-- The identity of the node that a call adds, if it adds one. -/
def added (ast : Ast) : Edit → Option NodeId
  | .add _ | .appendChild _ _ | .insertChild _ _ _ => some ast.nextId
  | _ => none

/-- Whether a call adds a node as the last child of another. -/
def appends : Edit → Bool
  | .appendChild _ _ => true
  | _ => false

/-- Only the graph matters of a program that gives nothing. -/
theorem perform_none {ast : Ast} {first : Editing Unit} {result : Except EditError Ast}
    (h : first ast = Editing.whole ast (result.map fun next => (next, ()))) :
    (first >>= fun _ => pure none) ast =
      Editing.whole ast (result.map fun next => (next, (none : Option NodeId))) := by
  rw [Editing.map_whole h fun _ => none]
  cases result <;> rfl

/-- A program that gives the next identity gives that of the node that is added. -/
theorem perform_some {ast : Ast} {first : Editing NodeId} {result : Except EditError (Ast × NodeId)}
    (h : first ast = Editing.whole ast result)
    (hmade : ∀ made, result = .ok made → made.2 = ast.nextId) :
    (first >>= fun id => pure (some id)) ast =
      Editing.whole ast ((do return (← result).1 : Except EditError Ast).map fun next =>
        (next, some ast.nextId)) := by
  rw [Editing.map_whole h some]
  cases result with
  | error e => rfl
  | ok made =>
    have hid := hmade made rfl
    change Editing.whole ast (.ok (made.1, some made.2)) = _
    rw [hid]
    rfl

/-- Every call is made as a whole or not at all, but for a child that is appended under an
identity which has a parent link. -/
theorem perform_eq (ast : Ast) (e : Edit)
    (hfree : e.appends = true → ast.parent? ast.nextId = none) :
    e.perform ast = Editing.whole ast ((e.apply ast).map fun next => (next, e.added ast)) := by
  cases e with
  | add construct => rfl
  | setRoot id => exact perform_none (Editing.setRoot_eq ast id)
  | setFile file => rfl
  | setPosition id position => exact perform_none (Editing.setPosition_eq ast id position)
  | attach parent child => exact perform_none (Editing.attach_eq ast parent child)
  | appendChild parent construct =>
    have hfree : ast.parent? ast.nextId = none := hfree rfl
    refine perform_some (Editing.appendChild_eq (fun _ => hfree) construct) fun made hmade => ?_
    rw [Ast.appendChild_of_has (Ast.has_of_appendChild hmade) hfree] at hmade
    cases hmade
    rfl
  | insertChild parent index construct =>
    refine perform_some (Editing.insertChild_eq ast parent index construct) fun made hmade => ?_
    obtain ⟨hindex, hparent, -⟩ := Ast.insertChild_eq_ok hmade
    rw [Ast.insertChild_of_le hparent hindex] at hmade
    cases hmade
    rfl
  | shareChild parent child => exact perform_none (Editing.shareChild_eq ast parent child)
  | removeChild parent child => exact perform_none (Editing.removeChild_eq ast parent child)

/-- How calls end: refused with the graph as it was, done as a whole, or, where identities
have begun again, refused after a node has been added. -/
theorem perform_cases (ast : Ast) (e : Edit) :
    (∃ error, e.perform ast = .error (.refused error) ast ∧ e.apply ast = .error error) ∨
      (∃ next, e.perform ast = .ok (e.added ast) next ∧ e.apply ast = .ok next) ∨
        ∃ error construct, e.perform ast = .error (.refused error) (ast.add construct).1 ∧
          e.appends = true ∧ 2 ^ 32 ≤ ast.size := by
  by_cases hfree : e.appends = true → ast.parent? ast.nextId = none
  · have hperform := perform_eq ast e hfree
    cases hresult : e.apply ast with
    | error error =>
      rw [hresult] at hperform
      exact .inl ⟨error, hperform, rfl⟩
    | ok next =>
      rw [hresult] at hperform
      exact .inr (.inl ⟨next, hperform, rfl⟩)
  · obtain ⟨happends, htaken⟩ := Classical.not_imp.mp hfree
    have hfull : 2 ^ 32 ≤ ast.size := Nat.le_of_not_lt fun hlt => htaken (Ast.parent?_nextId hlt)
    obtain ⟨existing, hexisting⟩ := Option.ne_none_iff_exists'.mp htaken
    cases e with
    | appendChild parent construct =>
      by_cases hhas : ast.has parent = true
      · have htried := Editing.appendChild_of_taken hhas hexisting construct
        exact .inr (.inr ⟨_, construct, Editing.bind_of_error htried _, rfl, hfull⟩)
      · have htried := Editing.appendChild_eq (fun h => absurd h hhas) construct
        have hnone : ast.node? parent = none :=
          Option.eq_none_iff_forall_ne_some.mpr fun n hn => hhas (Ast.has_iff.mpr ⟨n, hn⟩)
        have hrefused : ast.appendChild parent construct = .error (.unknownNode parent) := by
          rw [Ast.appendChild, Ast.check_of_missing hnone]
          rfl
        rw [hrefused] at htried
        refine .inl ⟨_, Editing.bind_of_error htried _, ?_⟩
        rw [apply, hrefused]
        rfl
    | _ => cases happends

end Edit

namespace Editing

variable {ast next : Ast} {parent child : NodeId} {construct : Construct}

/-- A child that has been appended can be removed. -/
theorem removeChild_appendChild (hroom : ast.size < 2 ^ 32)
    (hnew : (⟨ast.size⟩ : NodeId) ∉ ast.children parent)
    (h : appendChild parent construct ast = .ok child next) :
    child = ⟨ast.size⟩ ∧ removeChild parent child next = .ok () (ast.add construct).1 := by
  have hfree : ast.parent? ast.nextId = none := Ast.parent?_nextId hroom
  rw [appendChild_eq fun _ => hfree] at h
  have hok := whole_eq_ok h
  have hparent : ast.has parent = true := Ast.has_of_appendChild hok
  have hmem : (⟨ast.size⟩ : NodeId) ∈ ast.children parent ++ [⟨ast.size⟩] :=
    List.mem_append_right (ast.children parent) List.mem_cons_self
  have herase :
      (ast.children parent ++ [(⟨ast.size⟩ : NodeId)]).erase ⟨ast.size⟩ = ast.children parent := by
    rw [List.erase_append_right _ hnew, List.erase_cons_head, List.append_nil]
  have hremoved : (ast.adopted parent construct (· ++ [⟨ast.size⟩])).removeChild parent ⟨ast.size⟩ =
      .ok (ast.add construct).1 := Ast.removeChild_adopted hroom hparent construct hnew hmem herase
  rw [Ast.appendChild_of_has hparent hfree, Ast.nextId_of_lt hroom] at hok
  cases hok
  rw [removeChild_eq, hremoved]
  exact ⟨rfl, rfl⟩

/-- A child that has been inserted can be removed. -/
theorem removeChild_insertChild {index : Nat} (hroom : ast.size < 2 ^ 32)
    (hnew : (⟨ast.size⟩ : NodeId) ∉ ast.children parent)
    (h : insertChild parent index construct ast = .ok child next) :
    child = ⟨ast.size⟩ ∧ removeChild parent child next = .ok () (ast.add construct).1 := by
  rw [insertChild_eq] at h
  have hok := whole_eq_ok h
  obtain ⟨hindex, hparent, -⟩ := Ast.insertChild_eq_ok hok
  have hmem : (⟨ast.size⟩ : NodeId) ∈ (ast.children parent).insertIdx index ⟨ast.size⟩ :=
    (List.mem_insertIdx hindex).mpr (.inl rfl)
  have hremoved : (ast.adopted parent construct (·.insertIdx index ⟨ast.size⟩)).removeChild parent
      ⟨ast.size⟩ = .ok (ast.add construct).1 :=
    Ast.removeChild_adopted hroom hparent construct hnew hmem (Ast.erase_insertIdx hnew hindex)
  rw [Ast.insertChild_of_le hparent hindex, Ast.nextId_of_lt hroom] at hok
  cases hok
  rw [removeChild_eq, hremoved]
  exact ⟨rfl, rfl⟩

/-- A child that has been attached, and was not listed, can be removed. -/
theorem removeChild_attach (hnew : child ∉ ast.children parent)
    (h : attach parent child ast = .ok () next) : removeChild parent child next = .ok () ast := by
  rw [attach_eq] at h
  have hok : ast.attach parent child = .ok next := by
    cases hresult : ast.attach parent child with
    | error e =>
      rw [hresult] at h
      cases h
    | ok made =>
      rw [hresult] at h
      cases h
      rfl
  rw [removeChild_eq, Ast.removeChild_attached hok hnew]
  rfl

end Editing

/-- **Edits are atomic.** On any graph whatsoever no call touches what is not there. A call
is refused, and then the graph is exactly as it was, or it goes through to its end and is
the edit as a whole; only to append a child there has to be an identity left. Where
children are there and an identity is left, a node that has just been appended or inserted
can be removed again: every list and every parent link is as it was, and what is left is
the node without links behind the others. To remove a child that has just been attached,
and was not listed before, leaves the graph exactly as it was. -/
theorem edits_are_atomic :
    (∀ (ast : Ast) (e : Edit) (next : Ast), e.perform ast ≠ .error .broken next) ∧
    (∀ (ast : Ast) (e : Edit), (e.appends = true → ast.size < 2 ^ 32) →
      (∃ error, e.perform ast = .error (.refused error) ast ∧ e.apply ast = .error error) ∨
      ∃ next, e.perform ast = .ok (e.added ast) next ∧ e.apply ast = .ok next) ∧
    (∀ ast : Ast, ast.size < 2 ^ 32 →
      (∀ parent, ∀ child ∈ ast.children parent, ast.has child = true) →
      ∀ parent construct child next,
        (Editing.appendChild parent construct ast = .ok child next ∨
          ∃ index, Editing.insertChild parent index construct ast = .ok child next) →
        child = ⟨ast.size⟩ ∧
        Editing.removeChild parent child next = .ok () (ast.add construct).1 ∧
        ∀ x, (ast.add construct).1.children x = ast.children x ∧
          (ast.add construct).1.parent? x = ast.parent? x) ∧
    ∀ (ast : Ast) (parent child : NodeId) (next : Ast), child ∉ ast.children parent →
      Editing.attach parent child ast = .ok () next →
        Editing.removeChild parent child next = .ok () ast := by
  refine ⟨fun ast e next hbroken => ?_, fun ast e hroom => ?_,
    fun ast hroom hthere parent construct child next hmade => ?_,
    fun ast parent child next hnew hattach => Editing.removeChild_attach hnew hattach⟩
  · rcases e.perform_cases ast with ⟨error, h, -⟩ | ⟨made, h, -⟩ | ⟨error, construct, h, -, -⟩
    all_goals
      rw [h] at hbroken
      cases hbroken
  · rcases e.perform_cases ast with hrefused | hdone | ⟨_, _, -, happends, hfull⟩
    · exact .inl hrefused
    · exact .inr hdone
    · exact absurd (hroom happends) (Nat.not_lt.mpr hfull)
  · have hnew : (⟨ast.size⟩ : NodeId) ∉ ast.children parent := by
      intro hm
      have hhas := hthere parent _ hm
      rw [Ast.has_size] at hhas
      cases hhas
    have hremoved : child = ⟨ast.size⟩ ∧
        Editing.removeChild parent child next = .ok () (ast.add construct).1 := by
      rcases hmade with hmade | ⟨index, hmade⟩
      · exact Editing.removeChild_appendChild hroom hnew hmade
      · exact Editing.removeChild_insertChild hroom hnew hmade
    exact ⟨hremoved.1, hremoved.2,
      fun x => ⟨ast.children_add construct x, ast.parent?_add construct x⟩⟩

/-- A graph whose links were set by hand: a block that lists a statement twice and links
to a node that is not there, and two statements of which one links to itself. -/
def tangledBlock : Ast where
  nodes := #[{ construct := .blockStatement, children := [⟨1⟩, ⟨1⟩], parent := some ⟨9⟩ },
    { construct := .breakStatement, parent := some ⟨1⟩ }, { construct := .replyStatement }]

/-- In the block a statement is inserted and another attached, each between statements that
are listed twice, and both are removed again. To append a statement to one that is not there
is refused. -/
theorem edits_are_atomic_tangledBlock :
    ((∀ parent, ∀ child ∈ tangledBlock.children parent, tangledBlock.has child = true) ∧
      ∃ next, Editing.insertChild ⟨0⟩ 1 .returnStatement tangledBlock = .ok ⟨3⟩ next ∧
        Editing.removeChild ⟨0⟩ ⟨3⟩ next = .ok () (tangledBlock.add .returnStatement).1) ∧
    ((⟨2⟩ : NodeId) ∉ tangledBlock.children ⟨0⟩ ∧
      ∃ next, Editing.attach ⟨0⟩ ⟨2⟩ tangledBlock = .ok () next ∧
        Editing.removeChild ⟨0⟩ ⟨2⟩ next = .ok () tangledBlock) ∧
    (tangledBlock.size < 2 ^ 32 ∧
      ∃ error, Edit.perform (.appendChild ⟨9⟩ .returnStatement) tangledBlock =
        .error (.refused error) tangledBlock) := by
  have hroom : tangledBlock.size < 2 ^ 32 := by decide
  have hthere : ∀ parent, ∀ child ∈ tangledBlock.children parent,
      tangledBlock.has child = true := by
    intro parent child hm
    have hall : ∀ n ∈ tangledBlock.nodes, ∀ child ∈ n.children,
        tangledBlock.has child = true := by decide
    obtain ⟨n, hn⟩ := Ast.has_iff.mp (Ast.has_of_mem_children hm)
    rw [Ast.children_of_node hn] at hm
    exact hall n (Array.mem_of_getElem? hn) child hm
  have hinserted := edits_are_atomic.2.2.1 tangledBlock hroom hthere ⟨0⟩ .returnStatement ⟨3⟩ _
    (.inr ⟨1, rfl⟩)
  have hnew : (⟨2⟩ : NodeId) ∉ tangledBlock.children ⟨0⟩ := by decide
  refine ⟨⟨hthere, _, rfl, hinserted.2.1⟩,
    ⟨hnew, _, rfl, edits_are_atomic.2.2.2 tangledBlock ⟨0⟩ ⟨2⟩ _ hnew rfl⟩, hroom, ?_⟩
  rcases edits_are_atomic.2.1 tangledBlock (.appendChild ⟨9⟩ .returnStatement) fun _ => hroom with
    ⟨error, hrefused, -⟩ | ⟨next, -, happlied⟩
  · exact ⟨error, hrefused⟩
  · cases happlied

/-- A graph of so many statements that are linked to the first by hand. -/
def crowd (n : Nat) : Ast where
  nodes := Array.replicate n { construct := .breakStatement, parent := some ⟨0⟩ }

/-- The crowd is as large as it should be. -/
theorem size_crowd (n : Nat) : (crowd n).size = n := Array.size_replicate

/-- The first statement of the crowd is linked to itself. -/
theorem parent?_crowd {n : Nat} (h : 0 < n) : (crowd n).parent? ⟨0⟩ = some ⟨0⟩ := by
  rw [Ast.parent?, Ast.node?, crowd, Array.getElem?_replicate, if_pos h]
  rfl

/-- Where there are as many statements as identities, a child that is appended gets the
identity of the first, which has a parent; the call is refused, and the node that it has
added stays. -/
theorem appendChild_leaves_node :
    ∃ next, Edit.perform (.appendChild ⟨0⟩ .returnStatement) (crowd (2 ^ 32)) =
        .error (.refused (.alreadyAttached ⟨0⟩ ⟨0⟩)) next ∧ next ≠ crowd (2 ^ 32) := by
  have hpos : 0 < 2 ^ 32 := Nat.two_pow_pos 32
  have hid : (crowd (2 ^ 32)).nextId = ⟨0⟩ := Ast.nextId_of_eq (size_crowd _)
  have hhas : (crowd (2 ^ 32)).has ⟨0⟩ = true := by
    rw [Ast.has, size_crowd]
    exact decide_eq_true hpos
  have htaken : (crowd (2 ^ 32)).parent? (crowd (2 ^ 32)).nextId = some ⟨0⟩ := by
    rw [hid, parent?_crowd hpos]
  have htried := Editing.appendChild_of_taken hhas htaken .returnStatement
  rw [hid] at htried
  refine ⟨_, Editing.bind_of_error htried _, fun hsame => ?_⟩
  have hsizes := (crowd (2 ^ 32)).size_add .returnStatement
  rw [hsame] at hsizes
  omega

end SourceScribe
