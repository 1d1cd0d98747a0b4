import SourceScribe.Proofs.Failures
import SourceScribe.Proofs.Naturality

/-!
# The same graph under other names

What lies below a root is the same in two trees when there is a renaming, one to
one on the nodes that can be reached, under which the nodes have the same
constructs and list the same children, and have a parent link in the one tree
exactly when they have one in the other. Positions, the file, all other nodes and
the ends of the parent links may differ. The scripts of such nodes are the same
under the renaming, and so is all that is written into buffers.
-/

namespace SourceScribe

variable {f : NodeId → NodeId}

/-- The same part, written by a node with another name. -/
def Part.rename (f : NodeId → NodeId) (p : Part) : Part := { p with origin := p.origin.map f }

/-- The same line, written by nodes with other names. -/
def Line.rename (f : NodeId → NodeId) (l : Line) : Line :=
  { l with parts := l.parts.map (Part.rename f) }

namespace Line

@[simp]
theorem isEmpty_rename (l : Line) : (l.rename f).isEmpty = l.isEmpty := by
  simp [isEmpty, rename, Array.isEmpty]

@[simp]
theorem rename_push (l : Line) (part : Part) :
    (l.push part).rename f = (l.rename f).push (part.rename f) := by
  simp [push, rename, Part.rename]

@[simp]
theorem rename_join (l other : Line) :
    (l.join other).rename f = (l.rename f).join (other.rename f) := by
  simp [join, rename]

@[simp]
theorem rename_reindent (l : Line) (indent : Nat) :
    (l.reindent indent).rename f = (l.rename f).reindent indent := by
  unfold reindent
  rw [isEmpty_rename]
  split <;> rfl

@[simp]
theorem text_rename (unit : String) (l : Line) : (l.rename f).text unit = l.text unit := by
  have hparts : (l.rename f).parts.toList.map Part.text = l.parts.toList.map Part.text := by
    simp [rename, Part.rename]
  rw [text, text, isEmpty_rename, hparts]
  rfl

end Line

/-- The same buffer, written by nodes with other names. -/
def Buffer.rename (f : NodeId → NodeId) (b : Buffer) : Buffer :=
  { b with
    finished := b.finished.map (Line.rename f)
    current := b.current.rename f
    origin := b.origin.map f }

namespace Buffer

@[simp]
theorem indent_rename (b : Buffer) : (b.rename f).indent = b.indent := rfl

@[simp]
theorem rename_ofNode (id : NodeId) (indent : Nat) (unit : String) :
    (ofNode id indent unit).rename f = ofNode (f id) indent unit := by
  simp [ofNode, ofIndent, rename, Line.rename]

@[simp]
theorem rename_print (b : Buffer) (text : String) :
    (b.print text).rename f = (b.rename f).print text := by
  unfold print
  split
  · rfl
  · simp [rename, Part.rename]

@[simp]
theorem rename_newline (b : Buffer) : b.newline.rename f = (b.rename f).newline := by
  simp [newline, rename, Line.rename]

@[simp]
theorem rename_println (b : Buffer) (text : String) :
    (b.println text).rename f = (b.rename f).println text := by
  simp [println]

@[simp]
theorem rename_deeper (b : Buffer) : b.deeper.rename f = (b.rename f).deeper := by
  simp [deeper, rename]

@[simp]
theorem rename_shallower (b : Buffer) : b.shallower.rename f = (b.rename f).shallower := by
  simp [shallower, rename]

@[simp]
theorem rename_append (b child : Buffer) :
    (b.append child).rename f = (b.rename f).append (child.rename f) := by
  obtain ⟨⟨finished⟩, current, indent, unit, origin⟩ := child
  cases finished with
  | nil => simp [append, rename]
  | cons first rest =>
    have hlines : (b.finished.push (b.current.join first) ++ rest).map (Line.rename f) =
        (b.finished.map (Line.rename f)).push ((b.current.rename f).join (first.rename f)) ++
          rest.map (Line.rename f) := by
      rw [← Array.toList_inj]
      simp
    simp [append, rename, hlines]

@[simp]
theorem rename_writeAll (ms : List Mark) (b : Buffer) :
    (Mark.writeAll ms b).rename f = Mark.writeAll ms (b.rename f) := by
  unfold Mark.writeAll
  induction ms generalizing b with
  | nil => rfl
  | cons m ms ih =>
    rw [List.foldl_cons, List.foldl_cons, ih]
    cases m <;> simp [Mark.write]

@[simp]
theorem rename_place (arrangement : Arrangement) (blankLines : Bool) (written : Nat)
    (previous current : Option Tag) (child b : Buffer) :
    (arrangement.place blankLines written previous current child b).rename f =
      arrangement.place blankLines written previous current (child.rename f) (b.rename f) := by
  simp [Arrangement.place]

/-- The lines are the same. -/
theorem lines_rename (b : Buffer) : (b.rename f).lines = b.lines.map (Line.rename f) := by
  simp [lines, rename]

/-- The text does not show who wrote it. -/
@[simp]
theorem source_rename (b : Buffer) : (b.rename f).source = b.source := by
  have htext : Line.text b.unit ∘ Line.rename f = Line.text b.unit :=
    funext fun l => Line.text_rename b.unit l
  rw [source, source, lines_rename, List.map_map]
  exact congrArg (fun text => String.intercalate "\n" (b.lines.map text)) htext

end Buffer

/-- The same path of nodes with other names. -/
def NodePath.rename (f : NodeId → NodeId) (path : NodePath) : NodePath :=
  path.map fun entry => (f entry.1, entry.2)

/-- The same error for nodes with other names. -/
def GenerateError.rename (f : NodeId → NodeId) : GenerateError → GenerateError
  | .unknownNode node path => .unknownNode (f node) (NodePath.rename f path)
  | .missingParent node tag path => .missingParent (f node) tag (NodePath.rename f path)
  | .malformed node tag fault path =>
    .malformed (f node) tag (fault.rename f) (NodePath.rename f path)
  | .cycleDetected node path => .cycleDetected (f node) (NodePath.rename f path)
  | .depthExceeded node limit path => .depthExceeded (f node) limit (NodePath.rename f path)
  | e => e

/-- To fix the path of an error is the same under other names. -/
theorem GenerateError.rename_within (e : GenerateError) (path : NodePath) :
    (e.within path).rename f = (e.rename f).within (NodePath.rename f path) := by
  cases e with
  | noRoot => rfl
  | unsupported tag => rfl
  | sourceMap error => rfl
  | unknownNode node p | missingParent node tag p | malformed node tag fault p
  | cycleDetected node p | depthExceeded node limit p => cases p <;> rfl

/-- A node is the same as another but for the names of its children. -/
structure Node.Alike (f : NodeId → NodeId) (n n' : Node) : Prop where
  /-- The construct is the same. -/
  construct : n'.construct = n.construct
  /-- The children have other names. -/
  children : n'.children = n.children.map f

/-- The kind is the same. -/
theorem Node.Alike.tag {n n' : Node} (h : n.Alike f n') : n'.tag = n.tag := by
  rw [Node.tag, h.construct, Node.tag]

/-- What lies below a root is the same in another tree under other names. -/
structure Ast.Alike (f : NodeId → NodeId) (ast : Ast) (root : NodeId) (ast' : Ast) : Prop where
  /-- The nodes are the same, and none is there in one tree only. -/
  nodes : ∀ id, ast.Reaches root id → Option.Rel (Node.Alike f) (ast.node? id) (ast'.node? (f id))
  /-- Below the root, the same nodes have parent links. -/
  parents : ∀ id, ast.Reaches root id → id ≠ root →
    (ast'.parent? (f id)).isSome = (ast.parent? id).isSome
  /-- Different nodes have different names. -/
  injective : ∀ id other, ast.Reaches root id → ast.Reaches root other → f id = f other →
    id = other

namespace Ast.Alike

variable {ast ast' : Ast} {root id : NodeId} {node : Node} {options : Options}

/-- A node that is there has its like. -/
theorem exists_node (h : ast.Alike f root ast') (hr : ast.Reaches root id)
    (hnode : ast.node? id = some node) :
    ∃ node', ast'.node? (f id) = some node' ∧ node.Alike f node' := by
  have hrel := h.nodes id hr
  rw [hnode] at hrel
  cases hnode' : ast'.node? (f id) with
  | none =>
    rw [hnode'] at hrel
    cases hrel
  | some node' =>
    rw [hnode'] at hrel
    cases hrel with
    | some halike => exact ⟨node', rfl, halike⟩

/-- A node that is not there is not there under its other name. -/
theorem node_none (h : ast.Alike f root ast') (hr : ast.Reaches root id)
    (hnode : ast.node? id = none) : ast'.node? (f id) = none := by
  have hrel := h.nodes id hr
  rw [hnode] at hrel
  cases hnode' : ast'.node? (f id) with
  | none => rfl
  | some node' =>
    rw [hnode'] at hrel
    cases hrel

/-- The kinds are the same. -/
theorem tag (h : ast.Alike f root ast') (hr : ast.Reaches root id) :
    ast'.tag? (f id) = ast.tag? id := by
  cases hnode : ast.node? id with
  | none => rw [tag?, tag?, hnode, h.node_none hr hnode]
  | some node =>
    obtain ⟨node', hnode', halike⟩ := h.exists_node hr hnode
    rw [tag_of_node hnode, tag_of_node hnode', halike.tag]

/-- A path is the same under other names. -/
theorem pathOf (options : Options) (h : ast.Alike f root ast') {path : List NodeId}
    (hpath : ∀ id ∈ path, ast.Reaches root id) :
    (Request.standard ast' options).pathOf (path.map f) =
      NodePath.rename f ((Request.standard ast options).pathOf path) := by
  have hreverse : ∀ id ∈ path.reverse, ast.Reaches root id := by simpa using hpath
  rw [Request.pathOf, Request.pathOf, ← List.map_reverse]
  generalize path.reverse = nodes at hreverse
  induction nodes with
  | nil => rfl
  | cons id nodes ih =>
    obtain ⟨hid, hnodes⟩ := List.forall_mem_cons.mp hreverse
    have htag : ast'.tag? (f id) = ast.tag? id := h.tag hid
    have hrest := ih hnodes
    simp only [Request.standard] at hrest ⊢
    cases hkind : ast.tag? id with
    | none => simp [htag, hkind, hrest]
    | some tag => simp [htag, hkind, hrest, NodePath.rename]

/-- The script of a node is the same under other names. -/
theorem script (options : Options) (h : ast.Alike f root ast') (hr : ast.Reaches root id)
    (hnode : ast.node? id = some node) {node' : Node} (halike : node.Alike f node') :
    (Request.standard ast' options).scriptOf (.standard node.tag) (f id) node' =
      Script.rename f ((Request.standard ast options).scriptOf (.standard node.tag) id node) := by
  have hrenamed : Setting.Renamed f ⟨ast, options, id, node⟩ ⟨ast', options, f id, node'⟩ := by
    refine ⟨halike.construct, halike.children, rfl, fun child hchild => ?_⟩
    have hlinks : ast.Links id child := by
      rw [Links, children_of_node hnode]
      exact hchild
    exact h.tag (hr.tail hlinks)
  exact (Grammar.natural_rule node.tag f _ _ hrenamed).renamed

end Ast.Alike

end SourceScribe
