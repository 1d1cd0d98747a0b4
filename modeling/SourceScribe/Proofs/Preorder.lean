import SourceScribe.Proofs.Settled

/-!
# Visits in preorder

The preorder of first visits is found by following pending nodes: the first of
them, if it is new, is noted, and its children are put in front of the others.
It names every node that can be reached once and no other. A traversal that
succeeds has entered the nodes in exactly this order.
-/

namespace SourceScribe

namespace Ast

variable {ast : Ast} {seen pending : List NodeId} {id : NodeId}

/-- The number of nodes that have not been seen. -/
def unseen (ast : Ast) (seen : List NodeId) : Nat :=
  (List.range ast.size).countP fun i => NodeId.mk i ∉ seen

/-- Among any places, no more are unseen when one more node has been seen. -/
theorem countP_unseen_le (places : List Nat) (seen : List NodeId) (id : NodeId) :
    (places.countP fun i => NodeId.mk i ∉ seen ++ [id]) ≤
      places.countP fun i => NodeId.mk i ∉ seen := by
  apply List.countP_mono_left
  intro i _ h
  simp only [List.mem_append, decide_eq_true_eq, not_or] at h ⊢
  exact h.1

/-- To see a new node of the tree leaves fewer nodes unseen. -/
theorem unseen_append_lt (hk : ast.has id = true) (hn : id ∉ seen) :
    ast.unseen (seen ++ [id]) < ast.unseen seen := by
  have hi : id.index ∈ List.range ast.size := by
    simpa only [has, decide_eq_true_eq, List.mem_range] using hk
  obtain ⟨before, after, heq⟩ := List.append_of_mem hi
  have hb := countP_unseen_le before seen id
  have ha := countP_unseen_le after seen id
  have hold : decide (NodeId.mk id.index ∉ seen) = true := decide_eq_true hn
  have hnew : decide (NodeId.mk id.index ∉ seen ++ [id]) = false := by simp
  simp only [unseen, heq, List.countP_append, List.countP_cons, hold, hnew]
  simp only [if_true, Bool.false_eq_true, if_false]
  omega

/-- Follows pending nodes depth first and adds those that are new to the nodes
seen before. -/
def explore (ast : Ast) (seen pending : List NodeId) : List NodeId :=
  match pending with
  | [] => seen
  | id :: rest =>
    if id ∈ seen then explore ast seen rest
    else explore ast (seen ++ [id]) (ast.children id ++ rest)
termination_by (ast.unseen seen, pending.length)
decreasing_by
  · exact Prod.Lex.right _ (by simp)
  · rename_i hn
    cases hk : ast.has id with
    | true => exact Prod.Lex.left _ _ (unseen_append_lt hk hn)
    | false =>
      rw [children_eq_nil hk, List.nil_append]
      rcases Nat.lt_or_eq_of_le (countP_unseen_le (List.range ast.size) seen id) with hlt | heq
      · exact Prod.Lex.left _ _ hlt
      · rw [unseen, unseen, heq]
        exact Prod.Lex.right _ (by simp)

/-- The nodes that can be reached, in the order in which they are first met
when child lists are followed depth first and from left to right. -/
def preorder (ast : Ast) (start : NodeId) : List NodeId := ast.explore [] [start]

theorem explore_nil (ast : Ast) (seen : List NodeId) : ast.explore seen [] = seen := by
  rw [explore]

/-- A node that has been seen adds nothing. -/
theorem explore_seen (h : id ∈ seen) (rest : List NodeId) :
    ast.explore seen (id :: rest) = ast.explore seen rest := by rw [explore, if_pos h]

/-- A new node is noted, and its children go in front of what is pending. -/
theorem explore_new (h : id ∉ seen) (rest : List NodeId) :
    ast.explore seen (id :: rest) = ast.explore (seen ++ [id]) (ast.children id ++ rest) := by
  rw [explore, if_neg h]

/-- No node is noted twice. -/
theorem nodup_explore (h : seen.Nodup) : (ast.explore seen pending).Nodup := by
  fun_induction explore ast seen pending with
  | case1 seen => exact h
  | case2 seen id rest _ ih => exact ih h
  | case3 seen id rest hn ih =>
    apply ih
    rw [List.nodup_append]
    refine ⟨h, List.nodup_singleton id, ?_⟩
    intro a ha b hb
    rw [List.mem_singleton.mp hb]
    exact fun heq => hn (heq ▸ ha)

/-- What has been seen stays noted, and what is pending becomes so. -/
theorem mem_explore_of_mem (h : id ∈ seen ∨ id ∈ pending) : id ∈ ast.explore seen pending := by
  fun_induction explore ast seen pending with
  | case1 seen => simpa using h
  | case2 seen next rest hs ih =>
    apply ih
    rcases h with h | h
    · exact .inl h
    · rcases List.mem_cons.mp h with rfl | h
      · exact .inl hs
      · exact .inr h
  | case3 seen next rest _ ih =>
    apply ih
    rcases h with h | h
    · exact .inl (List.mem_append_left _ h)
    · rcases List.mem_cons.mp h with rfl | h
      · exact .inl (List.mem_append_right _ (List.mem_singleton_self _))
      · exact .inr (List.mem_append_right _ h)

/-- What is noted had been seen, or can be reached from what was pending. -/
theorem reaches_of_mem_explore (h : id ∈ ast.explore seen pending) :
    id ∈ seen ∨ ∃ start ∈ pending, ast.Reaches start id := by
  fun_induction explore ast seen pending with
  | case1 seen => exact .inl h
  | case2 seen next rest _ ih =>
    rcases ih h with hs | ⟨start, hm, hr⟩
    · exact .inl hs
    · exact .inr ⟨start, List.mem_cons_of_mem next hm, hr⟩
  | case3 seen next rest _ ih =>
    rcases ih h with hs | ⟨start, hm, hr⟩
    · rcases List.mem_append.mp hs with hs | hs
      · exact .inl hs
      · rw [List.mem_singleton] at hs
        exact .inr ⟨next, List.mem_cons_self, hs ▸ Relation.ReflTransGen.refl⟩
    · rcases List.mem_append.mp hm with hm | hm
      · exact .inr ⟨next, List.mem_cons_self, Relation.ReflTransGen.head hm hr⟩
      · exact .inr ⟨start, List.mem_cons_of_mem next hm, hr⟩

/-- What is listed at a noted node is noted, if that was so or pending for the
nodes seen before. -/
theorem explore_closed {parent child : NodeId}
    (hs : ∀ a ∈ seen, ∀ b, ast.Links a b → b ∈ seen ∨ b ∈ pending)
    (h : parent ∈ ast.explore seen pending) (hl : ast.Links parent child) :
    child ∈ ast.explore seen pending := by
  fun_induction explore ast seen pending with
  | case1 seen => simpa using hs parent h child hl
  | case2 seen next rest hn ih =>
    refine ih ?_ h
    intro a ha b hab
    rcases hs a ha b hab with hb | hb
    · exact .inl hb
    · rcases List.mem_cons.mp hb with rfl | hb
      · exact .inl hn
      · exact .inr hb
  | case3 seen next rest _ ih =>
    refine ih ?_ h
    intro a ha b hab
    rcases List.mem_append.mp ha with ha | ha
    · rcases hs a ha b hab with hb | hb
      · exact .inl (List.mem_append_left _ hb)
      · rcases List.mem_cons.mp hb with rfl | hb
        · exact .inl (List.mem_append_right _ (List.mem_singleton_self _))
        · exact .inr (List.mem_append_right _ hb)
    · rw [List.mem_singleton.mp ha] at hab
      exact .inr (List.mem_append_left _ hab)

/-- The preorder names exactly the nodes that can be reached. -/
theorem mem_preorder {start : NodeId} : id ∈ ast.preorder start ↔ ast.Reaches start id := by
  constructor
  · intro h
    rcases reaches_of_mem_explore h with hs | ⟨first, hm, hr⟩
    · simp at hs
    · rwa [List.mem_singleton.mp hm] at hr
  · intro h
    induction h with
    | refl => exact mem_explore_of_mem (.inr (List.mem_singleton_self start))
    | tail _ hl ih => exact explore_closed (by simp) ih hl

/-- The preorder names no node twice. -/
theorem nodup_preorder (ast : Ast) (start : NodeId) : (ast.preorder start).Nodup :=
  nodup_explore List.nodup_nil

end Ast

namespace Request

variable {q : Request} {p p' : Progress}

/-- A call that succeeds enters the nodes that exploring from its node adds,
whatever is still pending. -/
theorem render_explores (hq : q.registry.Thorough) {limit : Nat} {first : Bool} {id : NodeId}
    {indent : Nat} {result : Option Buffer}
    (h : q.render limit first id indent p = .ok result p') (rest : List NodeId) :
    q.ast.explore p.visited.toList (id :: rest) = q.ast.explore p'.visited.toList rest := by
  induction limit generalizing first id indent p p' result rest with
  | zero => cases h
  | succ limit ih =>
    obtain ⟨_, _, _, ⟨hold, rfl⟩ | ⟨hnew, _, p₁, hw, rfl⟩⟩ := render_eq_ok hq h
    · exact Ast.explore_seen (Array.mem_toList_iff.mpr hold) rest
    · have hwalk : ∀ {ids a b}, (q.render limit false).Walk ids a b →
          q.ast.explore a.visited.toList (ids ++ rest) = q.ast.explore b.visited.toList rest := by
        intro ids a b hw
        induction hw with
        | nil a => rfl
        | cons hpass _ ihw =>
          obtain ⟨indent, result, hr⟩ := hpass
          rw [List.cons_append, ih hr, ihw]
      rw [Ast.explore_new (by rwa [Array.mem_toList_iff])]
      have hstart := hwalk hw
      rwa [Progress.visited_enter hnew, Array.toList_push] at hstart

/-- A traversal that succeeds has entered the nodes in preorder. -/
theorem visited_of_run {ast : Ast} {options : Options} {root : NodeId} {buffer : Buffer}
    (h : (Request.standard ast options).run root {} = .ok buffer p) :
    p.visited.toList = ast.preorder root := by
  obtain ⟨result, hr, _⟩ := run_eq_ok h
  have hthorough : (Request.standard ast options).registry.Thorough := Registry.thorough_standard
  have hexplore := render_explores hthorough hr []
  rw [Ast.explore_nil] at hexplore
  exact hexplore.symm

/-- A traversal that succeeds has entered exactly the nodes that can be
reached. -/
theorem mem_visited_of_run {ast : Ast} {options : Options} {root id : NodeId} {buffer : Buffer}
    (h : (Request.standard ast options).run root {} = .ok buffer p) :
    id ∈ p.visited ↔ ast.Reaches root id := by
  rw [← Array.mem_toList_iff, visited_of_run h, Ast.mem_preorder]

/-- The script of a node that a traversal has entered and written is clean and
asks for the children of the node. -/
theorem script_of_run {ast : Ast} {options : Options} {root id : NodeId} {buffer : Buffer}
    {node : Node} (h : (Request.standard ast options).run root {} = .ok buffer p)
    (hid : id ∈ p.visited) (hnode : ast.node? id = some node) :
    Script.Clean (Grammar.rule node.tag ⟨ast, options, id, node⟩) ∧
      Script.calls (Grammar.rule node.tag ⟨ast, options, id, node⟩) = ast.children id := by
  have hclean := run_clean h ((mem_visited_of_run h).mp hid) hnode
  refine ⟨hclean, ?_⟩
  rw [(Grammar.covers_rule node.tag ⟨ast, options, id, node⟩).all hclean,
    Ast.children_of_node hnode]
  rfl

/-- A traversal that succeeds has entered exactly the nodes that can be reached
from its first node, each once and in preorder, and every child that it met is
there and has a parent link. -/
theorem run_visits_preorder {ast : Ast} {options : Options} {root : NodeId} {buffer : Buffer}
    (h : (Request.standard ast options).run root {} = .ok buffer p) :
    p.visited.toList = ast.preorder root ∧ p.visited.toList.Nodup ∧
      (∀ id, id ∈ p.visited ↔ ast.Reaches root id) ∧
      ∀ parent child, ast.Reaches root parent → child ∈ ast.children parent →
        ast.Attached child := by
  have hsound : ast.Sound root := run_sound h
  have hvisited : p.visited.toList = ast.preorder root := visited_of_run h
  refine ⟨hvisited, ?_, fun id => mem_visited_of_run h, hsound.attached⟩
  rw [hvisited]
  exact ast.nodup_preorder root

/-- A block that lists another block twice, with a statement in between. -/
def sharedBlock : Ast where
  nodes := #[
    { construct := .blockStatement, children := [⟨1⟩, ⟨2⟩, ⟨1⟩] },
    { construct := .blockStatement, children := [⟨3⟩], parent := some ⟨0⟩ },
    { construct := .breakStatement, parent := some ⟨0⟩ },
    { construct := .abortStatement, parent := some ⟨1⟩ }]

/-- The block that is listed twice is entered once, together with what it
holds, before the statement behind it. -/
theorem run_visits_sharedBlock :
    ∃ buffer p, (Request.standard sharedBlock {}).run ⟨0⟩ {} = .ok buffer p ∧
      p.visited.toList = [⟨0⟩, ⟨1⟩, ⟨3⟩, ⟨2⟩] ∧ p.visited.toList = sharedBlock.preorder ⟨0⟩ ∧
      p.visited.toList.Nodup ∧ (∀ id, id ∈ p.visited ↔ sharedBlock.Reaches ⟨0⟩ id) ∧
      ∀ parent child, sharedBlock.Reaches ⟨0⟩ parent → child ∈ sharedBlock.children parent →
        sharedBlock.Attached child := by
  have hentered : (Request.standard sharedBlock {}).entered? ⟨0⟩ =
      some [⟨0⟩, ⟨1⟩, ⟨3⟩, ⟨2⟩] := by decide +kernel
  obtain ⟨buffer, p, h, hvisited⟩ := exists_of_entered? hentered
  exact ⟨buffer, p, h, hvisited, run_visits_preorder h⟩

end Request

end SourceScribe
