import SourceScribe.Proofs.Failures
import SourceScribe.Proofs.Operands
import SourceScribe.Proofs.Refinement

/-!
# Pieces of compound constructs

Some kinds need children of certain kinds: a conditional statement its first
clause, a type mapper its parameter and its return parameter. A node that is
written has exactly one child of each, and so has a list of return parameters
only what the node lists. But these children are written in groups, and a group
passes over a child that was written before. A piece is therefore certain to be
found in the text of its node only if no other node lists it; a piece that is
shared stands with one of the nodes that list it, and the others go without.
-/

namespace SourceScribe

open Event

/-- The kinds of children of which a kind needs one. -/
def Tag.pieces : Tag → List Tag
  | .ifElseStatement => [.ifStatement]
  | .tryCatchStatement => [.tryStatement, .catchStatement]
  | .transactionAbortedStatement => [.transactionStatement]
  | .typeMapperDefinition => [.parameterDefinition, .returnParameter]
  | _ => []

/-- The children of a node that are of a kind, in order. -/
def Ast.childrenOf (ast : Ast) (kind : Tag) (id : NodeId) : List NodeId :=
  (ast.children id).filter fun child => ast.tag? child == some kind

/-- Clauses have one of a kind of which there must be one and may not be
several. -/
theorem ClauseRule.Follows.count_one {rules : List ClauseRule} {tags : List Tag}
    (h : Follows rules tags) (hd : Distinct rules) {kind : Tag} (hm : one kind ∈ rules) :
    tags.count kind = 1 := by
  induction h with
  | nil => cases hm
  | @cons rule rules n tags hallows hrest ih =>
    obtain ⟨hnew, hrules⟩ := List.nodup_cons.mp hd
    rcases List.mem_cons.mp hm with rfl | hm
    · have hn : n = 1 :=
        Nat.le_antisymm (hallows.2 rfl) (Nat.one_le_iff_ne_zero.mpr (hallows.1 rfl))
      have hnone : tags.count kind = 0 := List.count_eq_zero.mpr fun hk => hnew (hrest.mem kind hk)
      rw [List.count_append, hnone, hn]
      simp [one]
    · have hne : rule.tag ≠ kind := by
        rintro rfl
        exact hnew (List.mem_map.mpr ⟨_, hm, rfl⟩)
      rw [List.count_append, ih hrules hm, List.count_replicate, if_neg (by simpa using hne)]

/-- A construct that accepts its children has one of each kind that it needs. -/
theorem Construct.Accepts.count_piece {c : Construct} {tags : List Tag} (h : c.Accepts tags)
    {kind : Tag} (hk : kind ∈ c.tag.pieces) : tags.count kind = 1 := by
  have hone {rules : List ClauseRule} (hf : ClauseRule.Follows rules tags)
      (hd : ClauseRule.Distinct rules) (hm : ClauseRule.one kind ∈ rules) : tags.count kind = 1 :=
    hf.count_one hd hm
  cases c with
  | ifElseStatement =>
    cases List.mem_singleton.mp hk
    exact hone h (by decide) (by decide)
  | tryCatchStatement =>
    refine hone h (by decide) ?_
    rcases List.mem_cons.mp hk with rfl | hk
    · decide
    · cases List.mem_singleton.mp hk
      decide
  | transactionAbortedStatement =>
    cases List.mem_singleton.mp hk
    exact hone h (by decide) (by decide)
  | typeMapperDefinition name =>
    obtain ⟨-, hparameters, hreturns, -⟩ := h
    rcases List.mem_cons.mp hk with rfl | hk
    · exact hparameters
    · cases List.mem_singleton.mp hk
      exact hreturns
  | _ => cases hk

namespace Request

variable {log : List Event} {p : Progress} {root id child : NodeId} {buffer : Buffer} {ast : Ast}
  {options : Options}

/-- A node that was entered has one child of each kind that it needs. -/
theorem exists_piece (h : (Request.standard ast options).run root {} = .ok buffer p)
    (hid : id ∈ p.visited) {node : Node} (hnode : ast.node? id = some node) {kind : Tag}
    (hk : kind ∈ node.tag.pieces) : ∃ child, ast.childrenOf kind id = [child] := by
  have hbare : node.tag = .packageDeclaration ∨ node.tag = .importDeclaration →
      node.children = [] := by
    rintro (htag | htag) <;> (rw [htag] at hk; cases hk)
  have haccepts : node.construct.Accepts (node.children.filterMap ast.tag?) :=
    accepts_of_run h ((mem_visited_of_run h).mp hid) hnode hbare
  have hcount := haccepts.count_piece hk
  rw [List.count_filterMap, List.countP_eq_length_filter, ← Ast.children_of_node hnode] at hcount
  exact List.length_eq_one_iff.mp hcount

/-- In a traversal that succeeds, a node other than the first is entered under a
node that lists it. -/
theorem Course.exists_adopter (hrun : (Request.standard ast options).run root {} = .ok buffer p)
    (h : (Request.standard ast options).Course (.start root #[]) log
      ⟨.back (some buffer), [], p.visited⟩) (hid : id ∈ p.visited)
    (hchild : child ∈ ast.children id) :
    ∃ outer ∈ p.visited, child ∈ ast.children outer ∧ child ∈ adopted outer log := by
  have honce := standard_entersOnce ast options
  have ha := h.accounted honce
  have hreaches : ast.Reaches root id := (mem_visited_of_run hrun).mp hid
  have hlinks : ast.Links id child := hchild
  have hentered : child ∈ entered log := by
    rw [← ha.logged.visited, Array.mem_toList_iff, mem_visited_of_run hrun]
    exact hreaches.tail hlinks
  obtain ⟨outer, hopened⟩ := mem_entered.mp hentered
  cases outer with
  | none =>
    -- The first node is listed nowhere below itself.
    have hroot : child = root := h.rooted.entered child hopened
    rw [hroot] at hlinks
    exact absurd (Relation.TransGen.tail' hreaches hlinks) (run_sound hrun).founded.not_below_itself
  | some outer =>
    obtain ⟨hr, hl⟩ := h.links_of_opened Registry.stock_standard hopened
    exact ⟨outer, (mem_visited_of_run hrun).mpr hr, hl, mem_adopted.mpr hopened⟩

/-- **A piece that is not shared is not dropped.** After a traversal that
succeeds, every node that was entered has one child of each kind that it needs.
Each of its children, whether it needs it or not, is written once, where a node
that lists it is written; that is the node itself if no other node that was
entered lists the child. -/
theorem run_keeps_unshared_pieces
    (h : (Request.standard ast options).run root {} = .ok buffer p) :
    ∃ log, (Request.standard ast options).Course (.start root #[]) log
        ⟨.back (some buffer), [], p.visited⟩ ∧
      (∀ id ∈ p.visited, ∀ node, ast.node? id = some node → ∀ kind ∈ node.tag.pieces,
        ∃ child, ast.childrenOf kind id = [child]) ∧
      ∀ id ∈ p.visited, ∀ child ∈ ast.children id,
        (∃ outer ∈ p.visited, child ∈ ast.children outer ∧
          (Request.standard ast options).Supplies root log buffer.parts outer child) ∧
        ((∀ other ∈ p.visited, child ∈ ast.children other → other = id) →
          (Request.standard ast options).Supplies root log buffer.parts id child) := by
  have honce := standard_entersOnce ast options
  obtain ⟨log, hc⟩ := exists_course_of_run honce h
  refine ⟨log, hc, fun id hid node hnode kind hk => exists_piece h hid hnode hk, ?_⟩
  intro id hid child hchild
  obtain ⟨outer, houter, hlisted, hadopted⟩ := hc.exists_adopter h hid hchild
  have hsupplies : (Request.standard ast options).Supplies root log buffer.parts outer child :=
    hc.supplies honce houter hadopted
  refine ⟨⟨outer, houter, hlisted, hsupplies⟩, fun honly => ?_⟩
  rwa [honly outer houter hlisted] at hsupplies

/-- A block that lists a clause and the conditional statement to which the clause
belongs. -/
def sharedClause : Ast where
  nodes := #[
    { construct := .blockStatement, children := [⟨1⟩, ⟨3⟩] },
    { construct := .ifStatement, children := [⟨2⟩], parent := some ⟨0⟩ },
    { construct := .variableReferenceExpression none "a", parent := some ⟨1⟩ },
    { construct := .ifElseStatement, children := [⟨1⟩], parent := some ⟨0⟩ }]

/-- The clause is written where the block is written, and the conditional
statement has one clause. -/
theorem run_keeps_unshared_pieces_sharedClause :
    ∃ buffer p, (Request.standard sharedClause {}).run ⟨0⟩ {} = .ok buffer p ∧
      p.visited.toList = [⟨0⟩, ⟨1⟩, ⟨2⟩, ⟨3⟩] ∧
      ∃ log, (Request.standard sharedClause {}).Course (.start ⟨0⟩ #[]) log
          ⟨.back (some buffer), [], p.visited⟩ ∧
        (∀ id ∈ p.visited, ∀ node, sharedClause.node? id = some node → ∀ kind ∈ node.tag.pieces,
          ∃ child, sharedClause.childrenOf kind id = [child]) ∧
        ∀ id ∈ p.visited, ∀ child ∈ sharedClause.children id,
          (∃ outer ∈ p.visited, child ∈ sharedClause.children outer ∧
            (Request.standard sharedClause {}).Supplies ⟨0⟩ log buffer.parts outer child) ∧
          ((∀ other ∈ p.visited, child ∈ sharedClause.children other → other = id) →
            (Request.standard sharedClause {}).Supplies ⟨0⟩ log buffer.parts id child) := by
  have hentered : (Request.standard sharedClause {}).entered? ⟨0⟩ =
      some [⟨0⟩, ⟨1⟩, ⟨2⟩, ⟨3⟩] := by decide +kernel
  obtain ⟨buffer, p, h, hvisited⟩ := exists_of_entered? hentered
  exact ⟨buffer, p, h, hvisited, run_keeps_unshared_pieces h⟩

/-- The conditional statement goes without its clause, although it needs it. -/
theorem run_drops_shared_clause :
    ¬ ∀ (ast : Ast) (options : Options) (root : NodeId) (buffer : Buffer) (p : Progress)
      (log : List Event), (Request.standard ast options).run root {} = .ok buffer p →
      (Request.standard ast options).Course (.start root #[]) log
        ⟨.back (some buffer), [], p.visited⟩ →
      ∀ id ∈ p.visited, ∀ node, ast.node? id = some node → ∀ kind ∈ node.tag.pieces,
        ∀ child ∈ ast.childrenOf kind id, .opened (some id) child ∈ log := by
  intro hall
  have honce := standard_entersOnce sharedClause {}
  have hentered : (Request.standard sharedClause {}).entered? ⟨0⟩ =
      some [⟨0⟩, ⟨1⟩, ⟨2⟩, ⟨3⟩] := by decide +kernel
  obtain ⟨buffer, p, h, hvisited⟩ := exists_of_entered? hentered
  obtain ⟨log, hc⟩ := exists_course_of_run honce h
  have hlogged := (hc.accounted honce).logged
  have hthird : (⟨3⟩ : NodeId) ∈ p.visited := by
    rw [← Array.mem_toList_iff, hvisited]
    decide
  have hopened := hall sharedClause {} ⟨0⟩ buffer p log h hc ⟨3⟩ hthird _ rfl .ifStatement
    (by decide) ⟨1⟩ (by decide)
  -- The clause was entered before the statement, so not under it.
  obtain ⟨before, after, hlog⟩ := List.append_of_mem hopened
  obtain ⟨hbefore, -⟩ := hlogged.adopters before ⟨3⟩ ⟨1⟩ after hlog
  have horder : entered before ++ ⟨1⟩ :: entered after = [⟨0⟩] ++ ⟨1⟩ :: [⟨2⟩, ⟨3⟩] := by
    rw [← entered_opened (some ⟨3⟩), ← entered_append, ← hlog, ← hlogged.visited, hvisited]
    rfl
  have hn : ((entered before ++ ⟨1⟩ :: entered after).filterMap some).Nodup := by
    rw [horder]
    decide
  obtain ⟨hfront, -, -⟩ := split_unique hn horder rfl rfl
  rw [hfront] at hbefore
  exact absurd hbefore (by decide)

end Request

end SourceScribe
