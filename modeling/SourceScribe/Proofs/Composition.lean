import SourceScribe.Proofs.Carrying
import SourceScribe.Proofs.Growth
import SourceScribe.Proofs.Levels
import SourceScribe.Proofs.Loading
import SourceScribe.Proofs.Refinement

/-!
# The text of a node within the text of a tree

Where every node is listed at one place only, a node writes within the text of the
whole tree what it writes alone, some levels further in. When the node is called for,
nothing that lies below it is being written or has been entered; so its part of the
traversal is a traversal of its own, inside the other one. And what it has written is
borne to the end of the whole traversal.
-/

namespace SourceScribe

open Relation (ReflTransGen TransGen)

variable {ast : Ast} {options : Options} {root id : NodeId} {whole : Buffer} {p : Progress}

namespace Buffer

/-- To rename nothing changes nothing. -/
@[simp]
theorem rename_id (b : Buffer) : b.rename (fun id => id) = b := by
  have hpart : Part.rename (fun id => id) = id := funext fun part => by simp [Part.rename]
  have hline : Line.rename (fun id => id) = id := funext fun l => by simp [Line.rename, hpart]
  simp [rename, hline]

end Buffer

namespace Ast

/-- What lies below a node is the same in the same tree. -/
theorem Alike.refl (ast : Ast) (id : NodeId) : ast.Alike (fun id => id) id ast where
  nodes id _ := by
    cases ast.node? id with
    | none => exact .none
    | some node => exact .some ⟨rfl, by simp⟩
  parents _ _ _ := rfl
  injective _ _ _ _ h := h

/-- Every node that is reached but the root is listed at one place, and the root at
none. -/
structure ListedOnce (ast : Ast) (root : NodeId) : Prop where
  /-- Every node but the root is listed at one place. -/
  once : ∀ id, ast.Reaches root id → id ≠ root →
    ∃! place : NodeId × Nat, ast.Reaches root place.1 ∧ (ast.children place.1)[place.2]? = some id
  /-- The root is not listed. -/
  rootless : ∀ id, ast.Reaches root id → root ∉ ast.children id

end Ast

namespace Event.Block

variable {log inside : List Event} {text front back : List Part} {written : Buffer}

/-- However the piece of a node is cut out of a text, what is left is of other nodes. -/
theorem apart_around (h : Block log text id written inside)
    (htext : text = front ++ written.parts ++ back) :
    ∀ part ∈ front ++ back, ∀ o ∈ id :: entered inside, part.origin ≠ some o := by
  classical
  obtain ⟨before, after, hpiece, hout⟩ := h.piece
  let inner (part : Part) : Bool := decide (∃ o ∈ id :: entered inside, part.origin = some o)
  have hwritten : written.parts.countP inner = written.parts.length :=
    List.countP_eq_length.mpr fun part hpart => decide_eq_true (h.origins part hpart)
  have houter : (before ++ after).countP inner = 0 := by
    rw [List.countP_eq_zero]
    rintro part hpart hinner
    obtain ⟨o, ho, horigin⟩ := of_decide_eq_true hinner
    exact hout part hpart o ho horigin
  have hcount := congrArg (List.countP inner) (htext.symm.trans hpiece)
  simp only [List.countP_append, hwritten] at hcount houter
  have hrest : (front ++ back).countP inner = 0 := by
    rw [List.countP_append]
    omega
  intro part hpart o ho horigin
  exact List.countP_eq_zero.mp hrest part hpart (decide_eq_true ⟨o, ho, horigin⟩)

end Event.Block

namespace Request

open Event Moment

/-- A graph that lists nodes at one place only is a tree if a traversal of it
succeeds. -/
theorem treeShaped_of_run (h : ast.ListedOnce root)
    (hrun : (standard ast options).run root {} = .ok whole p) : ast.TreeShaped root := by
  have hsound : ast.Sound root := run_sound hrun
  have hattached : ∀ id, ast.Reaches root id → id ≠ root → ast.Attached id := by
    intro id hr hne
    rcases ReflTransGen.cases_tail hr with heq | ⟨parent, hparent, hl⟩
    · exact absurd heq hne
    · exact hsound.attached parent id hparent hl
  have hroot : ast.has root = true := by
    obtain ⟨result, hr, -⟩ := run_eq_ok hrun
    rcases (standard ast options).render_cases (standard ast options).ast.size true root 0 {} with
      ⟨e, _, he⟩ | ⟨node, _, ha, _⟩
    · rw [nesting, he] at hr
      cases hr
    · exact Ast.has_iff.mpr ⟨node, ha.found⟩
  refine ⟨fun id hr => ?_, h.once, hattached, h.rootless⟩
  by_cases hne : id = root
  · rwa [hne]
  · obtain ⟨node, hnode, -⟩ := hattached id hr hne
    exact Ast.has_iff.mpr ⟨node, hnode⟩

/-- A step that puts a node on the path has let in a node that was called for. -/
theorem admits_of_enters {q : Request} {m next : Moment} (h : q.step m = some next)
    (hpath : next.path = id :: m.path) :
    ∃ first indent node visitor, m.control = .call first id indent ∧
      q.Admits first id m.progress node visitor ∧ visitor.guard.admits m.visited id = true := by
  have hmoves := step_moves h
  have hlength := congrArg List.length hpath
  generalize q.events m = log at hmoves
  cases hmoves with
  | @opens first id' indent stack visited node visitor ha hg =>
    cases hpath
    exact ⟨first, indent, node, visitor, rfl, ha, hg⟩
  | _ =>
    simp only [Moment.path, List.length_map, List.length_cons] at hlength
    omega

/-- A traversal that does not fail has not failed before. -/
theorem Leads.sound {q : Request} {m last : Moment} (h : q.Leads m last)
    (hlast : ∀ e, last.control ≠ .fail e) : ∀ e, m.control ≠ .fail e := by
  induction h using ReflTransGen.head_induction_on with
  | refl => exact hlast
  | head hstep _ ih => exact sound_of_step hstep ih

/-- In a tree no node that lies below another is entered before that one is. -/
theorem Course.entered_above {log : List Event} {m : Moment} (ht : ast.TreeShaped root)
    (h : (standard ast options).Course (.start root #[]) log m) (hr : ast.Reaches root id)
    {below : NodeId} (hbelow : ast.Reaches id below) (hentered : below ∈ entered log) :
    id ∈ entered log := by
  have hlogged : Logged log m := (h.accounted (standard_entersOnce ast options)).logged
  induction hbelow with
  | refl => exact hentered
  | @tail parent child hparent hl ih =>
    have hopened := h.opened_under ht (hr.trans hparent) hl hentered
    obtain ⟨before, after, hlog⟩ := List.append_of_mem hopened
    have hbefore := (hlogged.adopters before parent child after hlog).1
    refine ih ?_
    rw [hlog, entered_append]
    exact List.mem_append_left _ hbefore

/-- When a node of a tree is put on the path for the first time, nothing that lies below
it is being written or has been entered. -/
theorem Course.apart {log : List Event} {m next : Moment} (ht : ast.TreeShaped root)
    (h : (standard ast options).Course (.start root #[]) log m) (hr : ast.Reaches root id)
    (hstep : (standard ast options).step m = some next) (hpath : next.path = id :: m.path)
    (hfresh : id ∉ m.visited) : ast.Apart (fun id => id) id m.stack m.visited := by
  constructor
  · -- a node that is being written lies above the node
    intro below hbelow hmem
    have hnext : (standard ast options).Leads (.start root #[]) next := h.leads.tail hstep
    have htrail : ast.Trail next.path := (hnext.orderly_and_based Registry.stock_standard).1.trail
    rw [hpath] at htrail
    have hcycle : TransGen ast.Links below below :=
      TransGen.trans_left (htrail.below_all below hmem) hbelow
    exact ht.acyclic (hr.trans hbelow) hcycle
  · -- what has been entered is not below a node that has not
    intro below hbelow hmem
    have hvisited := (h.accounted (standard_entersOnce ast options)).logged.visited
    rw [← Array.mem_toList_iff, hvisited] at hmem hfresh
    exact hfresh (h.entered_above ht hr hbelow hmem)

/-- Within the traversal of a tree that succeeds there is a call for every node, and
nothing that lies below the node is being written or has been entered then. -/
theorem exists_call (ht : ast.TreeShaped root)
    (hrun : (standard ast options).run root {} = .ok whole p) (hr : ast.Reaches root id) :
    ∃ indent stack visited, ast.Apart (fun id => id) id stack visited ∧
      (standard ast options).Leads (.start root #[])
        ⟨.call stack.isEmpty id indent, stack, visited⟩ ∧
      (standard ast options).Leads ⟨.call stack.isEmpty id indent, stack, visited⟩
        ⟨.back (some whole), [], p.visited⟩ := by
  have honce := standard_entersOnce ast options
  obtain ⟨log, hcourse⟩ := exists_course_of_run honce hrun
  have hid : id ∈ entered log := by
    rw [← (hcourse.accounted honce).logged.visited, Array.mem_toList_iff]
    exact (mem_visited_of_run hrun).mpr hr
  obtain ⟨opener, hopened⟩ := mem_entered.mp hid
  obtain ⟨before, after, hlog⟩ := List.append_of_mem hopened
  obtain ⟨m, next, hbefore, hstep, -, hpath⟩ := hcourse.step_of_opened hlog
  obtain ⟨first, indent, node, visitor, hcontrol, ha, hg⟩ := admits_of_enters hstep hpath
  have hfresh : id ∉ m.visited := by
    rw [honce _ _ ha.supported, Guard.admits_once] at hg
    exact hg
  have hapart := hbefore.apart ht hr hstep hpath hfresh
  have hfirst := (hbefore.leads.orderly_and_based Registry.stock_standard).2.first _ _ _ hcontrol
  obtain ⟨control, stack, visited⟩ := m
  cases hcontrol
  have hsame : first = stack.isEmpty := by
    cases stack with
    | nil =>
      rw [if_pos rfl] at hfirst
      exact hfirst.1
    | cons a outer => exact hfirst
  subst hsame
  exact ⟨indent, stack, visited, hapart, hbefore.leads, hbefore.leads.to_last hcourse.leads rfl⟩

/-- A node that is called for where nothing below it is being written or has been
entered, in a traversal that does not fail, can be written alone, and there it gives
back what it writes alone, so many levels further in. -/
theorem call_returns {indent : Nat} {stack : List Activation} {visited : Array NodeId}
    {last : Moment} (hapart : ast.Apart (fun id => id) id stack visited)
    (hl : (standard ast options).Leads ⟨.call stack.isEmpty id indent, stack, visited⟩ last)
    (hstopped : (standard ast options).step last = none) (hlast : ∀ e, last.control ≠ .fail e) :
    ∃ alone p visited', (standard ast options).run id {} = .ok alone p ∧
      (standard ast options).Leads ⟨.call stack.isEmpty id indent, stack, visited⟩
        ⟨.back (some (alone.shift indent)), stack, visited'⟩ := by
  have hreturns := (standard ast options).render_returns true id indent #[]
  have hshift := (standard ast options).render_shifts (k := indent)
    (standard ast options).nesting true id 0 {}
  rw [Nat.zero_add] at hshift
  change ReturnsAs _ [] _ ((standard ast options).render _ true id indent {}) at hreturns
  rw [hshift] at hreturns
  -- the inner traversal ends inside the outer one as it does alone
  have hcarried {control : Control} {entered : Array NodeId}
      (h : (standard ast options).Leads ⟨.call true id indent, [], #[]⟩ ⟨control, [], entered⟩) :
      (standard ast options).Leads ⟨.call stack.isEmpty id indent, stack, visited⟩
        (carry (fun id => id) stack visited ⟨control, [], entered⟩) := by
    rcases h.carries (Ast.Alike.refl ast id) hapart with h | ⟨-, failed, e, hfailed, he⟩
    · exact h
    · exact absurd he ((hfailed.to_last hl hstopped).sound hlast e)
  cases halone : (standard ast options).render (standard ast options).nesting true id 0 {} with
  | error e p =>
    rw [halone] at hreturns
    exact absurd rfl (((hcarried hreturns.2).to_last hl hstopped).sound hlast _)
  | ok result p =>
    cases result with
    | none => cases isSome_of_render (standard_entersOnce ast options) halone
    | some alone =>
      rw [halone] at hreturns
      have hback := hcarried hreturns.2
      simp only [carry, Control.carry, Option.map_some, Buffer.rename_id, List.map_nil,
        List.nil_append] at hback
      exact ⟨alone, p, _, run_of_render halone, hback⟩

/-- What comes back from a call for a node is what has been written for the node. -/
theorem finished_of_returns {first : Bool} {indent : Nat} {stack : List Activation}
    {visited visited' : Array NodeId} {written : Buffer}
    (hcall : (standard ast options).Leads (.start root #[])
      ⟨.call first id indent, stack, visited⟩)
    (hback : (standard ast options).Leads ⟨.call first id indent, stack, visited⟩
      ⟨.back (some written), stack, visited'⟩) :
    ∃ log, (standard ast options).Course (.start root #[]) log
        ⟨.back (some written), stack, visited'⟩ ∧ .finished id written ∈ log := by
  have honce := standard_entersOnce ast options
  obtain ⟨log, hbefore⟩ := exists_course hcall
  obtain ⟨log', hcourse⟩ := exists_course (hcall.trans hback)
  refine ⟨log', hcourse, ?_⟩
  cases stack with
  | nil =>
    have hroot : id = root := hbefore.rooted.called rfl first id indent rfl
    rw [hroot]
    exact hcourse.rooted.answered rfl written rfl
  | cons a outer =>
    obtain ⟨-, hasks⟩ := (hbefore.accounted honce).stands
    obtain ⟨child, hfinished, hstacked⟩ := (hcourse.accounted honce).stands
    rwa [(hstacked.2.2.1 child rfl).unique (hasks a rfl)] at hfinished

/-- In a tree all that lies below a node is entered while the node is written. -/
theorem Course.reaches_entered {log inside : List Event} {written : Buffer}
    (ht : ast.TreeShaped root) (hrun : (standard ast options).run root {} = .ok whole p)
    (h : (standard ast options).Course (.start root #[]) log ⟨.back (some whole), [], p.visited⟩)
    (hr : ast.Reaches root id) (hs : Stretch log id written inside) {below : NodeId}
    (hbelow : ast.Reaches id below) : below ∈ id :: entered inside := by
  have honce := standard_entersOnce ast options
  have hlogged : Logged log _ := (h.accounted honce).logged
  induction hbelow using ReflTransGen.head_induction_on generalizing written inside with
  | refl => exact List.mem_cons_self
  | @head parent child hl _ ih =>
    have hchild : ast.Reaches root child := hr.tail hl
    have hvisited : child ∈ p.visited := (mem_visited_of_run hrun).mpr hchild
    obtain ⟨given, within, hblock⟩ := h.exists_block honce hvisited
    have hentered : child ∈ entered log := by
      rw [← hlogged.visited, Array.mem_toList_iff]
      exact hvisited
    have hopened := h.opened_under ht hr hl hentered
    exact List.mem_cons_of_mem _
      (hlogged.below_child hopened hs hblock.stretch below (ih hchild hblock.stretch))

/-- A node contributes a text to a larger text if the text, some levels further in,
comes back from a call for the node at that level, and its lines stand together in the
larger text, where only the first and the last of them go on to others; and if of all
that is written it is just this that is of the node and the nodes below it. -/
structure Contributes (q : Request) (root id : NodeId) (level : Nat) (alone whole : Buffer) :
    Prop where
  /-- In the traversal from the root the text comes back from a call for the node. -/
  frame : ∃ first stack visited visited',
    q.Leads (.start root #[]) ⟨.call first id level, stack, visited⟩ ∧
      q.Leads ⟨.call first id level, stack, visited⟩
        ⟨.back (some (alone.shift level)), stack, visited'⟩
  /-- Its lines are in the larger text, and what is around them is of other nodes. -/
  lines : ∃ front back : Buffer,
    whole.lines = ((front.append (alone.shift level)).append back).lines ∧
      ∀ part ∈ front.parts ++ back.parts, ∀ below, q.ast.Reaches id below →
        part.origin ≠ some below
  /-- The text is of the node and the nodes below it. -/
  origins : ∀ part ∈ alone.parts, ∃ below, q.ast.Reaches id below ∧ part.origin = some below

/-- What comes back from a call for a node of a tree stands in the whole text, if the
traversal succeeds, and nothing around it is of the node or of nodes below it. -/
theorem lines_of_returns {first : Bool} {indent : Nat} {stack : List Activation}
    {visited visited' : Array NodeId} {written : Buffer} (ht : ast.TreeShaped root)
    (hrun : (standard ast options).run root {} = .ok whole p) (hr : ast.Reaches root id)
    (hcall : (standard ast options).Leads (.start root #[])
      ⟨.call first id indent, stack, visited⟩)
    (hback : (standard ast options).Leads ⟨.call first id indent, stack, visited⟩
      ⟨.back (some written), stack, visited'⟩) :
    ∃ front back : Buffer, whole.lines = ((front.append written).append back).lines ∧
      ∀ part ∈ front.parts ++ back.parts, ∀ below, ast.Reaches id below →
        part.origin ≠ some below := by
  have honce := standard_entersOnce ast options
  obtain ⟨log, hcourse, hfinished⟩ := finished_of_returns hcall hback
  obtain ⟨_, hlast⟩ := exists_course_of_run honce hrun
  have hrest := (hcall.trans hback).to_last hlast.leads rfl
  obtain ⟨more, h⟩ := hcourse.goes_on hrest
  -- what comes back is the piece that the node has in the whole text
  have hlogged : Logged (log ++ more) _ := (h.accounted honce).logged
  obtain ⟨written', inside, hblock⟩ := h.exists_block honce ((mem_visited_of_run hrun).mpr hr)
  obtain ⟨inside', hstretch, -⟩ := hlogged.framed id written (List.mem_append_left _ hfinished)
  obtain ⟨rfl, -⟩ := hblock.stretch.unique hlogged.once hlogged.ends hstretch
  -- it is borne to the end of the traversal
  obtain ⟨blank, hblank⟩ := written'.exists_front
  have hgrows : (blank.append written').Grows written' := .of_lines hblank.symm
  cases (hcall.trans hback).bears (.back rfl hgrows) hrest (by simp) with
  | held ha => cases ha
  | @back result front hresult hlines =>
    cases hresult
    obtain ⟨back, hlines⟩ := hlines
    refine ⟨front, back, hlines, fun part hpart below hbelow => ?_⟩
    have hparts : whole.parts = front.parts ++ written'.parts ++ back.parts := by
      rw [Buffer.parts, hlines]
      change ((front.append written').append back).parts = _
      rw [Buffer.parts_append, Buffer.parts_append]
    exact hblock.apart_around hparts part hpart below
      (h.reaches_entered ht hrun hr hblock.stretch hbelow)

/-- What a traversal writes is of the nodes that can be reached from its root. -/
theorem origins_of_run (hrun : (standard ast options).run root {} = .ok whole p) :
    ∀ part ∈ whole.parts, ∃ id, ast.Reaches root id ∧ part.origin = some id := by
  intro part hpart
  have honce := standard_entersOnce ast options
  obtain ⟨log, hcourse⟩ := exists_course_of_run honce hrun
  have hlogged := (hcourse.accounted honce).logged
  obtain ⟨inside, hstretch, hwithin⟩ :=
    hlogged.framed root whole (hcourse.rooted.answered rfl whole rfl)
  obtain ⟨id, hid, horigin⟩ := hwithin.origins part hpart
  refine ⟨id, (mem_visited_of_run hrun).mp ?_, horigin⟩
  obtain ⟨before, outer, after, hlog⟩ := hstretch
  rw [← Array.mem_toList_iff, hlogged.visited, hlog]
  simp only [entered_append, entered_opened, List.mem_append, List.mem_cons] at hid ⊢
  tauto

/-- In a tree every node writes alone what it contributes to the whole text. -/
theorem exists_contribution (ht : ast.TreeShaped root)
    (hrun : (standard ast options).run root {} = .ok whole p) (hr : ast.Reaches root id) :
    ∃ alone p' level, (standard ast options).run id {} = .ok alone p' ∧
      (standard ast options).Contributes root id level alone whole := by
  obtain ⟨level, stack, visited, hapart, hcall, hlast⟩ := exists_call ht hrun hr
  obtain ⟨alone, p', visited', halone, hback⟩ := call_returns hapart hlast rfl (by simp)
  exact ⟨alone, p', level, halone, ⟨_, stack, visited, visited', hcall, hback⟩,
    lines_of_returns ht hrun hr hcall hback, origins_of_run halone⟩

end Request

namespace Generator

/-- **Texts are composed of the texts of their nodes.** If a graph lists no node at two
places and its text can be generated, so can the text of every node in it, and the lines
of this text, some levels further in, stand together in the whole text and are all that
is of the node and the nodes below it. And at any point of any traversal a call for a
node at a greater level does what the call at level zero does, with every line so many
levels further in, if that level and one more for every call inside it fit into a word. -/
theorem render_composes :
    (∀ (ast : Ast) (options : Options) (root : NodeId) (whole : Buffer), ast.ListedOnce root →
      render ⟨.standard, options⟩ ast root = .ok whole →
      ∀ id, ast.Reaches root id → ∃ alone level,
        render ⟨.standard, options⟩ ast id = .ok alone ∧
        generateNode ⟨.standard, options⟩ ast id = .ok alone.source ∧
        (Request.standard ast options).Contributes root id level alone whole) ∧
      ∀ (q : Request) (limit : Nat) (first : Bool) (id : NodeId) (level : Nat) (p : Progress),
        level + limit < 2 ^ 64 →
          q.render limit first id level p =
            Renderer.shiftResult level (q.render limit first id 0 p) ∧
          ∀ alone p', q.render limit first id 0 p = .ok (some alone) p' →
            ∃ inside, q.render limit first id level p = .ok (some inside) p' ∧
              inside.lines = alone.lines.map (Line.shift level) ∧
              ∀ l ∈ inside.lines, l.indent < 2 ^ 64 := by
  constructor
  · intro ast options root whole hlisted hwhole id hr
    obtain ⟨p, hrun⟩ := render_eq_ok.mp hwhole
    obtain ⟨alone, p', level, halone, hcontributes⟩ :=
      Request.exists_contribution (Request.treeShaped_of_run hlisted hrun) hrun hr
    have hrender : render ⟨.standard, options⟩ ast id = .ok alone :=
      render_eq_ok.mpr ⟨p', halone⟩
    refine ⟨alone, level, hrender, ?_, hcontributes⟩
    rw [generateNode, hrender]
    rfl
  · intro q limit first id level p hroom
    have hshift := q.render_shifts (k := level) limit first id 0 p
    rw [Nat.zero_add] at hshift
    refine ⟨hshift, fun alone p' halone => ?_⟩
    have hinside : q.render limit first id level p = .ok (some (alone.shift level)) p' := by
      rw [hshift, halone]
      rfl
    refine ⟨_, hinside, alone.lines_shift, fun l hl => ?_⟩
    exact (q.render_adds limit first id level p _ p' hinside l hl).trans_lt hroom

/-- The statement in the function of a short file contributes its line to the file, and
the file can be written three levels further in. -/
theorem render_composes_shortFile :
    Ast.shortFile.ListedOnce ⟨0⟩ ∧ Ast.shortFile.Reaches ⟨0⟩ ⟨4⟩ ∧
      3 + (Request.standard Ast.shortFile {}).nesting < 2 ^ 64 ∧
      ∃ whole, render ⟨.standard, {}⟩ Ast.shortFile ⟨0⟩ = .ok whole ∧
        (∃ alone level,
          render ⟨.standard, {}⟩ Ast.shortFile ⟨4⟩ = .ok alone ∧
          generateNode ⟨.standard, {}⟩ Ast.shortFile ⟨4⟩ = .ok alone.source ∧
          (Request.standard Ast.shortFile {}).Contributes ⟨0⟩ ⟨4⟩ level alone whole) ∧
        ∃ inside p, (Request.standard Ast.shortFile {}).render
            (Request.standard Ast.shortFile {}).nesting true ⟨0⟩ 3 {} = .ok (some inside) p ∧
          inside.lines = whole.lines.map (Line.shift 3) := by
  have hlisted : Ast.shortFile.ListedOnce ⟨0⟩ :=
    ⟨Ast.shortFile_treeShaped.once, Ast.shortFile_treeShaped.rootless⟩
  have hfunction : Ast.shortFile.Reaches ⟨0⟩ ⟨2⟩ := .single (Ast.shortFile_links.mpr (by simp))
  have hr : Ast.shortFile.Reaches ⟨0⟩ ⟨4⟩ := hfunction.tail (Ast.shortFile_links.mpr (by simp))
  have hroom : 3 + (Request.standard Ast.shortFile {}).nesting < 2 ^ 64 := by decide
  have hsome : (render ⟨.standard, {}⟩ Ast.shortFile ⟨0⟩).toOption.isSome = true := by
    decide +kernel
  cases hwhole : render ⟨.standard, {}⟩ Ast.shortFile ⟨0⟩ with
  | ok whole =>
    obtain ⟨p, hrun⟩ := render_eq_ok.mp hwhole
    obtain ⟨result, hrender, hresult⟩ := Request.run_eq_ok hrun
    obtain ⟨written, rfl⟩ := Option.isSome_iff_exists.mp
      (Request.isSome_of_render (Request.standard_entersOnce _ _) hrender)
    obtain rfl : whole = written := hresult
    obtain ⟨inside, hinside, hlines, -⟩ := (render_composes.2 _ _ true _ 3 _ hroom).2 _ p hrender
    exact ⟨hlisted, hr, hroom, whole, rfl, render_composes.1 _ _ _ _ hlisted hwhole _ hr,
      inside, p, hinside, hlines⟩
  | error e =>
    rw [hwhole] at hsome
    cases hsome

end Generator

end SourceScribe
