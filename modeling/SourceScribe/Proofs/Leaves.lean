import SourceScribe.Proofs.Discipline
import SourceScribe.Proofs.Failures

/-!
# Leaves take no children

Some kinds have no place for children. All of them but packages and imports look for
children before anything below them is entered. So a leaf with children is the last node
that a traversal enters: nothing is written for its children, and the traversal fails with
an error that names the leaf and the way to it.
-/

namespace SourceScribe

/-- The kinds that refuse children. -/
def Tag.isLeaf (tag : Tag) : Bool :=
  tag ∈ [returnParameter, breakStatement, abortStatement, commentStatement,
    basicLiteralExpression, variableReferenceExpression, backQuoteExpression]

/-- A leaf that lists children. -/
structure Ast.Overgrown (ast : Ast) (id : NodeId) (node : Node) : Prop where
  /-- The node is there. -/
  found : ast.node? id = some node
  /-- It is of a kind that refuses children. -/
  leaf : node.tag.isLeaf = true
  /-- It lists children. -/
  listed : node.children ≠ []

/-- The faults of a leaf with children. A return parameter looks at its type and its name
before it looks for children. -/
inductive Construct.Blames (c : Construct) : Fault → Prop
  /-- Children are refused. -/
  | children : Blames c .takesNoChildren
  /-- The type is none. -/
  | type {type : String} {name : Option String} : c = .returnParameter type name →
    Text.Name.isTypeName type = false → Blames c (.notType type)
  /-- The name is empty. -/
  | unnamed {type : String} : c = .returnParameter type (some "") →
    Blames c (.empty "return parameter name")
  /-- The name is no identifier. -/
  | name {type name : String} : c = .returnParameter type (some name) →
    Text.Name.isIdentifier name = false → Blames c (.notIdentifier "return parameter name" name)

namespace Script

/-- A script that writes texts and is then rejected. -/
def RejectedFor (faults : Fault → Prop) (s : Script) : Prop :=
  ∃ values fault rest, s = texts values ++ .reject fault :: rest ∧ faults fault

variable {faults : Fault → Prop} {s : Script}

/-- Texts may stand in front. -/
theorem RejectedFor.behind (h : RejectedFor faults s) (values : List String) :
    RejectedFor faults (texts values ++ s) := by
  obtain ⟨more, fault, rest, rfl, hfault⟩ := h
  exact ⟨values ++ more, fault, rest, by simp [texts], hfault⟩

/-- What comes behind is not reached. -/
theorem RejectedFor.append (h : RejectedFor faults s) (rest : Script) :
    RejectedFor faults (s ++ rest) := by
  obtain ⟨values, fault, between, rfl, hfault⟩ := h
  exact ⟨values, fault, between ++ rest, by simp, hfault⟩

/-- A script that is rejected is not clean. -/
theorem RejectedFor.not_clean (h : RejectedFor faults s) : ¬ Clean s := by
  obtain ⟨values, fault, rest, rfl, _⟩ := h
  intro hclean
  cases hclean (.reject fault) (by simp)

/-- A script that fails is rejected at once. -/
theorem rejectedFor_fail {fault : Fault} (h : faults fault) : RejectedFor faults (fail fault) :=
  ⟨[], fault, [], rfl, h⟩

/-- Children are refused where there are some. -/
theorem rejectedFor_childless {s : Setting} (hc : s.children ≠ [])
    (h : faults .takesNoChildren) : RejectedFor faults (childless s) := by
  have hsome : s.children.isEmpty = false := by simpa using hc
  rw [childless, hsome]
  exact rejectedFor_fail h

end Script

namespace Grammar

open Script

variable {s : Setting}

/-- A return parameter with children is rejected for its type, its name or its children. -/
theorem rejectedFor_returnParameter {type : String} {name : Option String}
    (hs : s.construct = .returnParameter type name) (hc : s.children ≠ []) :
    RejectedFor (Construct.returnParameter type name).Blames (returnParameter s) := by
  have hchildless : RejectedFor (Construct.returnParameter type name).Blames (childless s) :=
    rejectedFor_childless hc .children
  simp only [returnParameter, hs]
  rw [List.append_assoc, typeName]
  split
  next =>
    refine RejectedFor.behind ?_ [type]
    cases name with
    | none => exact hchildless
    | some name =>
      refine RejectedFor.behind (s := identifier _ name ++ childless s) ?_ [" "]
      unfold identifier
      split
      next hempty =>
        cases String.isEmpty_iff.mp hempty
        exact (rejectedFor_fail (.unnamed rfl)).append _
      next =>
        split
        next => exact hchildless.behind [name]
        next hno => exact (rejectedFor_fail (.name rfl (Bool.eq_false_iff.mpr hno))).append _
  next hno => exact (rejectedFor_fail (.type rfl (Bool.eq_false_iff.mpr hno))).append _

/-- A leaf with children is rejected before it asks for any. -/
theorem rejectedFor_of_isLeaf {c : Construct} (hs : s.construct = c)
    (hleaf : c.tag.isLeaf = true) (hc : s.children ≠ []) :
    RejectedFor c.Blames (rule c.tag s) := by
  have hchildless : RejectedFor c.Blames (childless s) := rejectedFor_childless hc .children
  cases c with
  | returnParameter type name => exact rejectedFor_returnParameter hs hc
  | breakStatement => exact hchildless.append _
  | abortStatement => exact hchildless.append _
  | commentStatement text =>
    simp only [Construct.tag, rule, commentStatement, hs]
    exact (hchildless.append _).append _
  | basicLiteralExpression type value =>
    simp only [Construct.tag, rule, basicLiteral, hs]
    exact hchildless.append _
  | variableReferenceExpression package name =>
    simp only [Construct.tag, rule, variableReference, hs]
    exact hchildless.append _
  | backQuoteExpression template =>
    simp only [Construct.tag, rule, backQuote, hs]
    exact (hchildless.append _).append _
  | _ => cases hleaf

end Grammar

/-- A script that is rejected fails where it stands, with the fault that it is rejected for. -/
theorem Writing.script_of_rejectedFor {q : Request} {render : Renderer} {owner : NodeId} {tag : Tag}
    {s : Script} {faults : Fault → Prop} (h : s.RejectedFor faults) (f : Frame) :
    ∃ fault buffer, faults fault ∧
      Writing.script q render owner tag s f =
        .error (.malformed owner tag fault []) ⟨f.progress, buffer⟩ := by
  obtain ⟨values, fault, rest, rfl, hfault⟩ := h
  induction values generalizing f with
  | nil => exact ⟨fault, f.buffer, hfault, rfl⟩
  | cons value values ih => exact ih ⟨f.progress, f.buffer.print value⟩

/-- The last of the nodes that were entered is a leaf with children, and the error names it
and the way to it. -/
structure GenerateError.Exposes (e : GenerateError) (visited : Array NodeId) (id : NodeId)
    (node : Node) : Prop where
  /-- No node is entered behind the leaf. -/
  last : visited.back? = some id
  /-- The leaf is malformed, and the way of the error ends at it. -/
  malformed : ∃ fault path, node.construct.Blames fault ∧ e = .malformed id node.tag fault path ∧
    path.getLast? = some (id, node.tag)

/-- The nodes around the leaf change nothing about the error. -/
theorem GenerateError.Exposes.within {e : GenerateError} {visited : Array NodeId} {id : NodeId}
    {node : Node} (h : e.Exposes visited id node) (other : NodePath) :
    (e.within other).Exposes visited id node := by
  obtain ⟨fault, path, hfault, rfl, hpath⟩ := h.malformed
  have hfixed : (GenerateError.malformed id node.tag fault path).within other =
      .malformed id node.tag fault path := by
    refine GenerateError.within_of_path ?_ other
    rintro _ ⟨⟩ rfl
    cases hpath
  rwa [hfixed]

/-- Of the nodes that have been entered since, none is a leaf with children. -/
def Progress.Unspoiled (ast : Ast) (before : Array NodeId) (p : Progress) : Prop :=
  ∀ id ∈ p.visited, id ∉ before → ∀ node, ¬ ast.Overgrown id node

/-- Of the nodes that have been entered since, a leaf with children is exposed at once. -/
def Progress.Exposing {α : Type} (ast : Ast) (before : Array NodeId) :
    EStateM.Result GenerateError Progress α → Prop
  | .ok _ p => p.Unspoiled ast before
  | .error e p => ∀ id ∈ p.visited, id ∉ before → ∀ node, ast.Overgrown id node →
    e.Exposes p.visited id node

/-- All calls of a renderer expose the leaves with children that they enter. -/
def Renderer.ExposesLeaves (render : Renderer) (ast : Ast) : Prop :=
  ∀ id indent p, Progress.Exposing ast p.visited (render id indent p)

namespace Renderer.ExposesLeaves

variable {render : Renderer} {ast : Ast} {before : Array NodeId} {p p₁ : Progress}

/-- A walk that comes to its end has entered no leaf with children. -/
theorem walk (h : render.ExposesLeaves ast) {ids : List NodeId} (hw : render.Walk ids p p₁)
    (hp : p.Unspoiled ast before) : p₁.Unspoiled ast before := by
  refine hw.keeps (fun child _ earlier later hpasses hearlier => ?_) hp
  obtain ⟨indent, result, hcall⟩ := hpasses
  have hchild := h child indent earlier
  rw [hcall] at hchild
  intro id hin hnew
  by_cases hold : id ∈ earlier.visited
  · exact hearlier id hold hnew
  · exact hchild id hin hold

/-- A call that fails exposes the leaf with children that has been entered. -/
theorem fails (h : render.ExposesLeaves ast) {child id : NodeId} {e : GenerateError}
    (hf : render.Fails child p e p₁) (hp : p.Unspoiled ast before) (hin : id ∈ p₁.visited)
    (hnew : id ∉ before) {node : Node} (hover : ast.Overgrown id node) :
    e.Exposes p₁.visited id node := by
  obtain ⟨indent, hcall⟩ := hf
  have hchild := h child indent p
  rw [hcall] at hchild
  exact hchild id hin (fun hold => hp id hold hnew node hover) node hover

end Renderer.ExposesLeaves

namespace Request

variable {ast : Ast} {options : Options} {root id : NodeId} {p : Progress}

/-- The script of a leaf with children is rejected. -/
theorem rejectedFor_of_overgrown {node : Node} (h : ast.Overgrown id node) :
    Script.RejectedFor node.construct.Blames
      ((Request.standard ast options).scriptOf (.standard node.tag) id node) :=
  Grammar.rejectedFor_of_isLeaf (s := ⟨ast, options, id, node⟩) rfl h.leaf h.listed

/-- A node that is entered for the first time is the only new one. -/
theorem eq_of_mem_enter {x : NodeId} (hfresh : id ∉ p.visited) (hin : x ∈ (p.enter id).visited)
    (hnew : x ∉ p.visited) : x = id := by
  have hentered : (p.enter id).visited = p.visited.push id := by simp [Progress.enter, hfresh]
  rw [hentered] at hin
  exact (Array.mem_push.mp hin).resolve_left hnew

/-- A leaf with children is entered and exposed. -/
theorem enter_overgrown {node : Node} (h : ast.Overgrown id node) (hfresh : id ∉ p.visited)
    (render : Renderer) (indent : Nat) : Progress.Exposing ast p.visited
      ((Request.standard ast options).enter render (.standard node.tag) id node indent p) := by
  obtain ⟨fault, buffer, hfault, hscript⟩ := Writing.script_of_rejectedFor
    (rejectedFor_of_overgrown h) ⟨p.enter id, .ofNode id indent options.indent⟩
  have hlast : (p.enter id).visited.back? = some id := by simp [Progress.enter, hfresh]
  rw [enter_of_script_error hscript]
  intro x hin hnew found hx
  obtain rfl : x = id := eq_of_mem_enter hfresh hin hnew
  rw [Option.some.inj (hx.found.symm.trans h.found)]
  refine ⟨hlast, fault, (Request.standard ast options).pathOf (x :: p.path), hfault, rfl, ?_⟩
  rw [pathOf_cons (Ast.tag_of_node h.found), List.getLast?_concat]

/-- A node that is no leaf with children is entered, and its children expose what they
enter. -/
theorem enter_exposes {render : Renderer} (h : render.ExposesLeaves ast) {node : Node}
    (hn : ast.node? id = some node) (hsound : ¬ ast.Overgrown id node) (hfresh : id ∉ p.visited)
    (indent : Nat) : Progress.Exposing ast p.visited
      ((Request.standard ast options).enter render (.standard node.tag) id node indent p) := by
  have hstart : (p.enter id).Unspoiled ast p.visited := by
    intro x hin hnew found hx
    obtain rfl : x = id := eq_of_mem_enter hfresh hin hnew
    rw [Option.some.inj (hx.found.symm.trans hn)] at hx
    exact hsound hx
  cases hresult : (Request.standard ast options).enter render (.standard node.tag) id node indent
      p with
  | ok result p' =>
    obtain ⟨_, _, p₁, hw, rfl⟩ := enter_eq_ok hresult
    have hwalked : p₁.Unspoiled ast p.visited := h.walk hw hstart
    exact hwalked
  | error e p' =>
    obtain ⟨e', p₁, hstops, rfl, rfl⟩ := enter_eq_error hresult
    intro x hin hnew found hx
    cases hstops with
    | itself before after _ hw _ => exact absurd hx (h.walk hw hstart x hin hnew found)
    | inside before after child p₂ _ hw hfails =>
      exact (h.fails hfails (h.walk hw hstart) hin hnew hx).within _

/-- A call exposes the leaves with children among the nodes that it enters. -/
theorem render_exposes (limit : Nat) (first : Bool) :
    ((Request.standard ast options).render limit first).ExposesLeaves ast := by
  induction limit generalizing first with
  | zero => exact fun _ _ _ _ hin hnew => absurd hin hnew
  | succ limit ih =>
    intro id indent p
    rcases (Request.standard ast options).render_cases limit first id indent p with
      ⟨e, _, he⟩ | ⟨node, visitor, ha, ⟨_, hskip⟩ | ⟨hguard, henter⟩⟩
    · rw [he]
      exact fun _ hin hnew => absurd hin hnew
    · rw [hskip]
      exact fun _ hin hnew => absurd hin hnew
    · obtain rfl : visitor = .standard node.tag := (Option.some.inj ha.supported).symm
      have hfresh : id ∉ p.visited := Guard.admits_once.mp hguard
      rw [henter]
      by_cases hover : ast.Overgrown id node
      · exact enter_overgrown hover hfresh _ indent
      · exact enter_exposes (ih false) ha.found hover hfresh indent

/-- **Leaves take no children.** If a traversal succeeds, none of the nodes that it has entered
is a leaf with children. If it fails and has entered such a leaf, that was the last node it
entered, and the error says that the leaf is malformed, because of its children or because of
what a return parameter looks at first. A traversal does not succeed where such a leaf can be
reached from its root. -/
theorem run_refuses_children_of_leaves (ast : Ast) (options : Options) (root : NodeId) :
    (∀ p buffer p', (Request.standard ast options).run root p = .ok buffer p' →
      ∀ id ∈ p'.visited, id ∉ p.visited → ∀ node, ¬ ast.Overgrown id node) ∧
    (∀ p e p', (Request.standard ast options).run root p = .error e p' →
      ∀ id ∈ p'.visited, id ∉ p.visited → ∀ node, ast.Overgrown id node →
        e.Exposes p'.visited id node) ∧
    ∀ id node, ast.Reaches root id → ast.Overgrown id node →
      ∃ e p', (Request.standard ast options).run root {} = .error e p' := by
  have hexposes (p : Progress) : Progress.Exposing ast p.visited
      ((Request.standard ast options).render _ true root 0 p) :=
    render_exposes (Request.standard ast options).nesting true root 0 p
  refine ⟨fun p buffer p' h => ?_, fun p e p' h => ?_, fun id node hr hover => ?_⟩
  · obtain ⟨result, hrender, _⟩ := run_eq_ok h
    have hsound := hexposes p
    rwa [hrender] at hsound
  · have hfailed := hexposes p
    rwa [run_eq_error.mp h] at hfailed
  · cases h : (Request.standard ast options).run root {} with
    | error e p' => exact ⟨e, p', rfl⟩
    | ok buffer p' =>
      exact absurd (run_clean h hr hover.found) (rejectedFor_of_overgrown hover).not_clean

/-- A block with a break that lists another one. -/
def brokenBreak : Ast where
  nodes := #[
    { construct := .blockStatement, children := [⟨1⟩] },
    { construct := .breakStatement, children := [⟨2⟩], parent := some ⟨0⟩ },
    { construct := .breakStatement, parent := some ⟨1⟩ }]

/-- The break is entered and refused, and the one that it lists is not entered. -/
theorem run_refuses_children_of_leaves_brokenBreak :
    ∃ e p', (Request.standard brokenBreak {}).run ⟨0⟩ {} = .error e p' ∧
      p'.visited.toList = [⟨0⟩, ⟨1⟩] ∧
      e.Exposes p'.visited ⟨1⟩
        { construct := .breakStatement, children := [⟨2⟩], parent := some ⟨0⟩ } := by
  have hover : brokenBreak.Overgrown ⟨1⟩
      { construct := .breakStatement, children := [⟨2⟩], parent := some ⟨0⟩ } :=
    ⟨rfl, rfl, by simp⟩
  have hreach : brokenBreak.Reaches ⟨0⟩ ⟨1⟩ :=
    .single (List.mem_singleton_self (⟨1⟩ : NodeId))
  obtain ⟨_, hfails, hreached⟩ := run_refuses_children_of_leaves brokenBreak {} ⟨0⟩
  obtain ⟨e, p', h⟩ := hreached ⟨1⟩ _ hreach hover
  have hvisited : p'.visited.toList = [⟨0⟩, ⟨1⟩] := by
    have hentered : (stateAfter ((Request.standard brokenBreak {}).run ⟨0⟩ {})).visited.toList =
        [⟨0⟩, ⟨1⟩] := by decide +kernel
    rwa [h] at hentered
  have hin : (⟨1⟩ : NodeId) ∈ p'.visited := by
    rw [← Array.mem_toList_iff, hvisited]
    decide
  exact ⟨e, p', h, hvisited, hfails {} e p' h ⟨1⟩ hin (by simp) _ hover⟩

/-- A package that lists a break. -/
def grownPackage : Ast where
  nodes := #[
    { construct := .packageDeclaration "a", children := [⟨1⟩] },
    { construct := .breakStatement, parent := some ⟨0⟩ }]
  root := some ⟨0⟩

/-- The child of a package is written between the name and the semicolon. -/
theorem run_writes_children_of_package :
    Generator.generate {} grownPackage = .ok "package abreak;;" ∧
      ¬ ∀ (ast : Ast) (options : Options) (root : NodeId) (buffer : Buffer) (p : Progress),
        (Request.standard ast options).run root {} = .ok buffer p →
        ∀ id ∈ p.visited, ∀ node, ast.node? id = some node →
          node.tag.isLeaf = true ∨ node.tag = .packageDeclaration ∨ node.tag = .importDeclaration →
          node.children = [] := by
  refine ⟨by decide +kernel, fun hall => ?_⟩
  have hentered : (Request.standard grownPackage {}).entered? ⟨0⟩ = some [⟨0⟩, ⟨1⟩] := by
    decide +kernel
  obtain ⟨buffer, p, h, hvisited⟩ := exists_of_entered? hentered
  have hin : (⟨0⟩ : NodeId) ∈ p.visited := by
    rw [← Array.mem_toList_iff, hvisited]
    decide
  cases hall grownPackage {} ⟨0⟩ buffer p h ⟨0⟩ hin _ rfl (.inr (.inl rfl))

end Request

end SourceScribe
