import SourceScribe.Proofs.Failures

/-!
# Errors say where they arose

The path of an error leads from the root to the node at which the error arose,
along child links and with the kinds of the nodes. What its last entries are
depends on the error: a malformed node, a node without parent link, a node that
closes a cycle or one that lies too deep stands at the end itself; of a node that
does not exist, the node that lists it does. The path is fixed at the innermost
node that was being written, and no node around it changes it.
-/

namespace SourceScribe

/-- What the path of an error says about the error, for a limit of the depth and a
root. -/
def GenerateError.Fits (ast : Ast) (limit : Nat) (root : NodeId) : GenerateError → Prop
  | .unknownNode id path =>
    ast.node? id = none ∧ (path = [] → id = root) ∧
      ∀ last ∈ path.getLast?, ast.Links last.1 id
  | .missingParent id tag path =>
    path.getLast? = some (id, tag) ∧ id ≠ root ∧ ∃ node, ast.node? id = some node ∧
      node.parent = none
  | .malformed id tag _ path => path.getLast? = some (id, tag)
  | .cycleDetected id path =>
    ∃ front tag, path = front ++ [(id, tag)] ∧ id ∈ front.map Prod.fst ∧
      (front.map Prod.fst).Nodup
  | .depthExceeded id max path =>
    max = limit ∧ path.length = limit + 1 ∧ ∃ tag, path.getLast? = some (id, tag)
  | _ => True

/-- The path of an error is the one up to the node at which the error arose. -/
structure Request.Recorded (q : Request) (root : NodeId) (e : GenerateError) (path : NodePath) :
    Prop where
  /-- The traversal fails with a step; the path is that of the nodes which are
  being written then, or goes on to the node that they call for. -/
  arises : ∃ m next raised, q.Leads (.start root #[]) m ∧ q.Breaks m next raised ∧
    e = raised.within (q.pathOf next.path) ∧
      (path = q.pathOf next.path ∨ ∃ id, path = q.pathOf (id :: next.path))
  /-- At every moment behind that step, the path is fixed, or the innermost node
  fixes it as it is in the end. -/
  kept : ∀ m e', q.Leads (.start root #[]) m → m.control = .fail e' →
    e = e'.within (q.pathOf m.path)

/-- An error whose path is the given one has no need of it. -/
theorem GenerateError.within_self {e : GenerateError} {path : NodePath} (h : e.path? = some path) :
    e.within path = e := by
  cases path with
  | nil => exact within_nil e
  | cons entry path =>
    refine within_of_path ?_ _
    rw [h]
    rintro _ ⟨⟩
    simp

namespace Request

variable {q : Request} {root id : NodeId} {path : List NodeId} {m next : Moment}
  {e raised : GenerateError} {found : NodePath} {node : Node} {tag : Tag}

/-- Where a simple path goes on to a node that exists and is listed under its first, the
way from the root to that node is a route. -/
theorem route_cons (ht : q.ast.Trail path) (hroot : ∀ id ∈ path.getLast?, id = root)
    (hnode : q.ast.node? id = some node) (hlinks : ∀ outer ∈ path.head?, q.ast.Links outer id)
    (hfirst : path = [] → id = root) : q.ast.Route root (q.pathOf (id :: path)) := by
  refine route_pathOf ?_ (List.isChain_cons.mpr ⟨hlinks, ht.linked⟩) ?_
  · exact List.forall_mem_cons.mpr ⟨Ast.has_iff.mpr ⟨node, hnode⟩, ht.known⟩
  · cases path with
    | nil =>
      rintro _ ⟨⟩
      exact hfirst rfl
    | cons outer path => exact hroot

/-- A path that goes on to a node that exists has an entry. -/
theorem pathOf_cons_ne_nil (hnode : q.ast.node? id = some node) (path : List NodeId) :
    q.pathOf (id :: path) ≠ [] := by
  rw [pathOf_cons (Ast.tag_of_node hnode)]
  simp

/-- The innermost node of a path is its last entry. -/
theorem getLast?_pathOf (h : q.ast.tag? id = some tag) (path : List NodeId) :
    (q.pathOf (id :: path)).getLast? = some (id, tag) := by
  rw [pathOf_cons h, List.getLast?_concat]

/-- A path has an entry for each node. -/
theorem length_pathOf (h : ∀ id ∈ path, q.ast.has id = true) :
    (q.pathOf path).length = path.length := by
  rw [← List.length_map (f := Prod.fst), map_fst_pathOf h, List.length_reverse]

/-- The last entry of a path is of its innermost node. -/
theorem head?_of_getLast? (h : ∀ id ∈ path, q.ast.has id = true) {last : NodeId × Tag}
    (hlast : last ∈ (q.pathOf path).getLast?) : last.1 ∈ path.head? := by
  have hmap : last.1 ∈ ((q.pathOf path).map Prod.fst).getLast? := by
    rw [List.getLast?_map, hlast]
    rfl
  rwa [map_fst_pathOf h, List.getLast?_reverse] at hmap

/-- An error for a node that is refused fits its path. -/
theorem Refuses.fits {first : Bool} {visited : Array NodeId}
    (h : q.Refuses first id ⟨visited, path⟩ e) (ht : q.ast.Trail path)
    (hshallow : path.length ≤ q.options.maxDepth) (hroot : ∀ id ∈ path.getLast?, id = root)
    (hlinks : ∀ outer ∈ path.head?, q.ast.Links outer id)
    (hfirst : if path = [] then first = true ∧ id = root else first = false) :
    e.Fits q.ast q.options.maxDepth root ∧ ∀ p ∈ e.path?, q.ast.Route root p ∧
      (p = q.pathOf path ∨ p ≠ [] ∧ p = q.pathOf (id :: path)) := by
  have hstart : path = [] → id = root := by
    rintro rfl
    exact hfirst.2
  have hlength := length_pathOf ht.known
  cases h with
  | unknown hnone =>
    refine ⟨⟨hnone, fun hp => hstart ?_, fun last hlast => ?_⟩, ?_⟩
    · rw [← List.length_eq_zero_iff, ← hlength]
      exact List.length_eq_zero_iff.mpr hp
    · exact hlinks last.1 (head?_of_getLast? ht.known hlast)
    · rintro _ ⟨⟩
      exact ⟨route_pathOf ht.known ht.linked hroot, .inl rfl⟩
  | cycle hm =>
    obtain ⟨node, hnode⟩ := Ast.has_iff.mp (ht.known id hm)
    refine ⟨⟨q.pathOf path, node.tag, pathOf_cons (Ast.tag_of_node hnode) path, ?_, ?_⟩, ?_⟩
    · rw [map_fst_pathOf ht.known]
      exact List.mem_reverse.mpr hm
    · rw [map_fst_pathOf ht.known]
      exact List.nodup_reverse.mpr ht.nodup
    · rintro _ ⟨⟩
      exact ⟨route_cons ht hroot hnode hlinks hstart, .inr ⟨pathOf_cons_ne_nil hnode path, rfl⟩⟩
  | depth node hnode hdeep =>
    have hdepth : path.length = q.options.maxDepth := Nat.le_antisymm hshallow hdeep
    refine ⟨⟨rfl, ?_, node.tag, getLast?_pathOf (Ast.tag_of_node hnode) path⟩, ?_⟩
    · rw [pathOf_cons (Ast.tag_of_node hnode), List.length_append, hlength, hdepth]
      rfl
    · rintro _ ⟨⟩
      exact ⟨route_cons ht hroot hnode hlinks hstart, .inr ⟨pathOf_cons_ne_nil hnode path, rfl⟩⟩
  | orphan node hnode hfresh hinner horphan =>
    refine ⟨⟨getLast?_pathOf (Ast.tag_of_node hnode) path, ?_, node, hnode, horphan⟩, ?_⟩
    · -- Any node but the first is called for inside of the root.
      rintro rfl
      cases path with
      | nil =>
        rw [hfirst.1] at hinner
        cases hinner
      | cons outer path =>
        have hlast : id ∈ outer :: path := by
          rw [← hroot _ (List.getLast?_eq_some_getLast (List.cons_ne_nil outer path))]
          exact List.getLast_mem _
        exact hfresh hlast
    · rintro _ ⟨⟩
      exact ⟨route_cons ht hroot hnode hlinks hstart, .inr ⟨pathOf_cons_ne_nil hnode path, rfl⟩⟩
  | unsupported tag _ =>
    refine ⟨trivial, ?_⟩
    rintro _ ⟨⟩

/-- Whatever causes a step to fail, the error fits its path, once the path is
fixed. -/
theorem Failure.fits (h : q.Failure root e m next raised) :
    e.Fits q.ast q.options.maxDepth root ∧ ∀ p ∈ e.path?, q.ast.Route root p ∧
      (p = q.pathOf m.path ∨ ∃ id, p = q.pathOf (id :: m.path)) := by
  have ht : q.ast.Trail m.path := h.orderly.trail
  have hmalformed {id : NodeId} {rest : List NodeId} {node : Node} (fault : Fault)
      (hpath : m.path = id :: rest) (hnode : q.ast.node? id = some node) :
      (GenerateError.malformed id node.tag fault []).within (q.pathOf m.path) =
        .malformed id node.tag fault (q.pathOf m.path) ∧
      (q.pathOf m.path).getLast? = some (id, node.tag) := by
    rw [hpath]
    exact ⟨rfl, getLast?_pathOf (Ast.tag_of_node hnode) rest⟩
  rw [h.fixed]
  cases h.causes with
  | @refuses first id _ hfirst hlinks hrefuses =>
    have hfits := hrefuses.fits ht h.orderly.shallow h.based.outermost hlinks hfirst
    have hwithin : raised.within (q.pathOf m.path) = raised := by
      cases hp : raised.path? with
      | none => exact GenerateError.within_of_path (by simp [hp]) _
      | some p =>
        rcases (hfits.2 p hp).2 with rfl | ⟨hne, -⟩
        · exact GenerateError.within_self hp
        · refine GenerateError.within_of_path ?_ _
          rw [hp]
          rintro _ ⟨⟩
          exact hne
    rw [hwithin]
    exact ⟨hfits.1, fun p hp => (hfits.2 p hp).imp_right (Or.imp_right fun h => ⟨id, h.2⟩)⟩
  | rejects hpath hnode _ _ =>
    obtain ⟨hwithin, hlast⟩ := hmalformed _ hpath hnode
    rw [hwithin]
    refine ⟨hlast, ?_⟩
    rintro _ ⟨⟩
    exact ⟨route_pathOf ht.known ht.linked h.based.outermost, .inl rfl⟩
  | misses slot _ hpath hnode _ _ =>
    obtain ⟨hwithin, hlast⟩ := hmalformed _ hpath hnode
    rw [hwithin]
    refine ⟨hlast, ?_⟩
    rintro _ ⟨⟩
    exact ⟨route_pathOf ht.known ht.linked h.based.outermost, .inl rfl⟩

/-- The path of the error with which a traversal fails was recorded where the error
arose. -/
theorem Failure.recorded (h : q.Failure root e m next raised) {found : NodePath}
    (hfound : e.path? = some found) : q.Recorded root e found where
  arises := by
    refine ⟨m, next, raised, h.leads, h.breaks, ?_⟩
    rw [h.path]
    exact ⟨h.fixed, (h.fits.2 found hfound).2⟩
  kept := h.kept

end Request

/-- **Errors say where they arose.** Whenever generation with the visitors of the
grammar fails with an error that carries a path, the path is a route from the
requested node, it fits the error, and it was recorded where the error arose and
has not been changed by any node around. -/
theorem Generator.generateNode_explains {ast : Ast} {options : Options} {root : NodeId}
    {e : GenerateError} {path : NodePath}
    (h : (⟨.standard, options⟩ : Generator).generateNode ast root = .error e)
    (hpath : e.path? = some path) :
    ast.Route root path ∧ e.Fits ast options.maxDepth root ∧
      (Request.standard ast options).Recorded root e path := by
  obtain ⟨p, hrun⟩ := generateNode_eq_error.mp h
  have hstock : (Request.standard ast options).registry.Stock := Registry.stock_standard
  obtain ⟨m, next, raised, hfailure⟩ := Request.exists_failure hstock hrun
  exact ⟨(hfailure.fits.2 path hpath).1, hfailure.fits.1, hfailure.recorded hpath⟩

/-- A block that holds a sum with an operand missing, behind a statement. -/
def lameSum : Ast where
  nodes := #[
    { construct := .blockStatement, children := [⟨1⟩, ⟨2⟩] },
    { construct := .breakStatement, parent := some ⟨0⟩ },
    { construct := .returnStatement, children := [⟨3⟩], parent := some ⟨0⟩ },
    { construct := .binaryExpression .plus, children := [⟨4⟩], parent := some ⟨2⟩ },
    { construct := .variableReferenceExpression none "a", parent := some ⟨3⟩ }]

/-- The error names the sum, and its path leads there. -/
theorem Generator.generateNode_explains_lameSum :
    (⟨.standard, {}⟩ : Generator).generateNode lameSum ⟨0⟩ =
        .error (.malformed ⟨3⟩ .binaryExpression (.childCount "two operands" 1)
          [(⟨0⟩, .blockStatement), (⟨2⟩, .returnStatement), (⟨3⟩, .binaryExpression)]) ∧
      lameSum.Route ⟨0⟩
        [(⟨0⟩, .blockStatement), (⟨2⟩, .returnStatement), (⟨3⟩, .binaryExpression)] ∧
      (GenerateError.malformed ⟨3⟩ .binaryExpression (.childCount "two operands" 1)
          [(⟨0⟩, .blockStatement), (⟨2⟩, .returnStatement), (⟨3⟩, .binaryExpression)]).Fits
        lameSum 256 ⟨0⟩ ∧
      (Request.standard lameSum {}).Recorded ⟨0⟩
        (.malformed ⟨3⟩ .binaryExpression (.childCount "two operands" 1)
          [(⟨0⟩, .blockStatement), (⟨2⟩, .returnStatement), (⟨3⟩, .binaryExpression)])
        [(⟨0⟩, .blockStatement), (⟨2⟩, .returnStatement), (⟨3⟩, .binaryExpression)] := by
  have h : (⟨.standard, {}⟩ : Generator).generateNode lameSum ⟨0⟩ =
      .error (.malformed ⟨3⟩ .binaryExpression (.childCount "two operands" 1)
        [(⟨0⟩, .blockStatement), (⟨2⟩, .returnStatement), (⟨3⟩, .binaryExpression)]) := by
    decide +kernel
  exact ⟨h, generateNode_explains h rfl⟩

end SourceScribe
