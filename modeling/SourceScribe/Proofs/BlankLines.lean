import SourceScribe.Proofs.Naturality
import SourceScribe.Proofs.Settled

/-!
# Blank lines and indentation

The text of one level of indentation and the blank lines between definitions are
a matter of layout. Two traversals whose options differ in nothing else enter the
same nodes in the same order and end in the same way, and their buffers differ
only in lines that are empty. A blank line is always set where a line has just
been ended and nothing has been written since: so the first line and the last
line of a buffer never differ, and these are all that a child shares with the
node it is appended to.
-/

namespace SourceScribe

/-- Of some lines, those that are not empty. -/
def Line.inked (lines : List Line) : List Line := lines.filter fun l => !l.isEmpty

/-- The lines of a buffer that are not empty, in order. -/
def Buffer.inkedLines (b : Buffer) : List Line := Line.inked b.lines

namespace Line

variable {lines : List Line} {l : Line}

@[simp]
theorem inked_nil : inked [] = [] := rfl

@[simp]
theorem inked_append (lines more : List Line) :
    inked (lines ++ more) = inked lines ++ inked more :=
  List.filter_append lines more

/-- An empty line does not count. -/
theorem inked_of_isEmpty (h : l.isEmpty = true) : inked [l] = [] := by simp [inked, h]

end Line

namespace Buffer

/-- Nothing has been written since a line was ended. -/
structure Fresh (b : Buffer) : Prop where
  /-- The last line is as it begins. -/
  current : b.current = { indent := b.indent }
  /-- It is not the only line. -/
  finished : b.finished ≠ #[]

/-- Another buffer has the same lines but for blank ones between its first and its
last. If the layout is even, not even these differ. -/
structure Respaced (even : Prop) (b b' : Buffer) : Prop where
  /-- New lines begin at the same level. -/
  indent : b'.indent = b.indent
  /-- The same node writes. -/
  origin : b'.origin = b.origin
  /-- The last line is the same. -/
  current : b'.current = b.current
  /-- The first line is the same, if it is not the last. -/
  first : b'.finished.toList.head? = b.finished.toList.head?
  /-- The lines in front of the last are the same, blank ones apart. -/
  inked : Line.inked b'.finished.toList = Line.inked b.finished.toList
  /-- An even layout has the same blank lines. -/
  even : even → b'.finished = b.finished

variable {even : Prop} {b b' c c' : Buffer}

/-- A line that was just begun is fresh. -/
theorem fresh_newline (b : Buffer) : b.newline.Fresh := by
  refine ⟨rfl, fun h => ?_⟩
  have hempty := congrArg Array.toList h
  simp [newline] at hempty

namespace Respaced

/-- Empty buffers of a node have the same layout, whatever the unit. -/
theorem ofNode (id : NodeId) (indent : Nat) (unit unit' : String) :
    Respaced even (.ofNode id indent unit) (.ofNode id indent unit') :=
  ⟨rfl, rfl, rfl, rfl, rfl, fun _ => rfl⟩

/-- The relation has no direction. -/
theorem symm (h : Respaced even b b') : Respaced even b' b :=
  ⟨h.indent.symm, h.origin.symm, h.current.symm, h.first.symm, h.inked.symm,
    fun he => (h.even he).symm⟩

/-- All lines that are not empty are the same. -/
theorem inkedLines (h : Respaced even b b') : b'.inkedLines = b.inkedLines := by
  rw [Buffer.inkedLines, Buffer.inkedLines, lines, lines, Line.inked_append, Line.inked_append,
    h.inked, h.current]

/-- In an even layout all lines are the same. -/
theorem lines (h : Respaced even b b') (he : even) : b'.lines = b.lines := by
  rw [Buffer.lines, Buffer.lines, h.even he, h.current]

/-- Text is written on the last line. -/
theorem print (h : Respaced even b b') (text : String) :
    Respaced even (b.print text) (b'.print text) := by
  unfold Buffer.print
  split
  · exact h
  · refine ⟨h.indent, h.origin, ?_, h.first, h.inked, h.even⟩
    dsimp only
    rw [h.current, h.origin]

/-- The last line is ended. -/
theorem newline (h : Respaced even b b') : Respaced even b.newline b'.newline := by
  refine ⟨h.indent, h.origin, ?_, ?_, ?_, fun he => ?_⟩
  · simp only [Buffer.newline, h.indent]
  · simp only [Buffer.newline, Array.toList_push, List.head?_append, h.first, h.current]
  · simp only [Buffer.newline, Array.toList_push, Line.inked_append, h.inked, h.current]
  · simp only [Buffer.newline, h.even he, h.current]

/-- Text is written and the line is ended. -/
theorem println (h : Respaced even b b') (text : String) :
    Respaced even (b.println text) (b'.println text) := (h.print text).newline

/-- The level changes for the last line as for new ones. -/
theorem reindent (h : Respaced even b b') (indent : Nat) :
    Respaced even { b with indent := indent, current := b.current.reindent indent }
      { b' with indent := indent, current := b'.current.reindent indent } :=
  ⟨rfl, h.origin, congrArg (Line.reindent · indent) h.current, h.first, h.inked, h.even⟩

/-- The level goes in. -/
theorem deeper (h : Respaced even b b') : Respaced even b.deeper b'.deeper := by
  unfold Buffer.deeper
  rw [h.indent]
  exact h.reindent _

/-- The level goes out. -/
theorem shallower (h : Respaced even b b') : Respaced even b.shallower b'.shallower := by
  unfold Buffer.shallower
  rw [h.indent]
  exact h.reindent _

/-- A child is appended: its first line goes on where the other buffer stands. -/
theorem append (h : Respaced even b b') (hc : Respaced even c c') :
    Respaced even (b.append c) (b'.append c') := by
  have hfirst := hc.first
  have hinked := hc.inked
  have heven : even → c'.finished.toList = c.finished.toList := fun he =>
    congrArg Array.toList (hc.even he)
  unfold Buffer.append
  cases hlines : c.finished.toList with
  | nil =>
    obtain hlines' : c'.finished.toList = [] := by
      rwa [hlines, List.head?_nil, List.head?_eq_none_iff] at hfirst
    rw [hlines']
    refine ⟨h.indent, h.origin, ?_, h.first, h.inked, h.even⟩
    simp only [h.current, hc.current]
  | cons first rest =>
    cases hlines' : c'.finished.toList with
    | nil =>
      rw [hlines, hlines'] at hfirst
      cases hfirst
    | cons first' rest' =>
      rw [hlines, hlines'] at hfirst hinked heven
      obtain rfl : first' = first := Option.some.inj hfirst
      have hrest : Line.inked rest' = Line.inked rest := by
        rw [← List.singleton_append, Line.inked_append] at hinked
        rw [← List.singleton_append (l := rest), Line.inked_append] at hinked
        exact List.append_cancel_left hinked
      have hsplit (finished : Array Line) (l : Line) (rest : List Line) :
          (finished.push l ++ rest).toList = finished.toList ++ [l] ++ rest := by simp
      refine ⟨h.indent, h.origin, hc.current, ?_, ?_, fun he => ?_⟩
      · simp [h.first, h.current]
      · dsimp only
        rw [hsplit, hsplit, h.current]
        simp only [Line.inked_append, h.inked, hrest]
      · rw [h.even he, h.current, (List.cons.inj (heven he)).2]

/-- Marks are written. -/
theorem writeAll (h : Respaced even b b') (ms : List Mark) :
    Respaced even (Mark.writeAll ms b) (Mark.writeAll ms b') := by
  unfold Mark.writeAll
  induction ms generalizing b b' with
  | nil => exact h
  | cons m ms ih =>
    cases m with
    | text value => exact ih (h.print value)
    | newline => exact ih h.newline

/-- Where nothing has been written since a line was ended in one of the buffers,
nothing has been in the other. -/
theorem fresh (h : Respaced even b b') (hb : b.Fresh) : b'.Fresh := by
  refine ⟨by rw [h.current, h.indent, hb.current], fun hempty => ?_⟩
  have hfirst := h.first
  rw [hempty] at hfirst
  have hnil : b.finished.toList = [] := List.head?_eq_none_iff.mp hfirst.symm
  exact hb.finished (Array.toList_eq_nil_iff.mp hnil)

/-- Another blank line where nothing has been written since a line was ended. -/
theorem blank (h : Respaced even b b') (hb : b.Fresh) (heven : ¬even) :
    Respaced even b.newline b' := by
  have hcurrent : b.current.isEmpty = true := by rw [hb.current]; rfl
  refine ⟨h.indent, h.origin, ?_, ?_, ?_, fun he => absurd he heven⟩
  · rw [h.current, hb.current]
    rfl
  · have hne : b.finished.toList ≠ [] := fun hnil => hb.finished (Array.toList_eq_nil_iff.mp hnil)
    rw [h.first]
    simp [Buffer.newline, List.head?_append_of_ne_nil _ hne]
  · rw [h.inked]
    simp [Buffer.newline, Line.inked_of_isEmpty hcurrent]

/-- Where nothing has been written since a line was ended, a blank line may be set in one
of the buffers, in both or in none, unless the layout is even. -/
theorem blanks (h : Respaced even b b') (hb : b.Fresh) (heven : ¬even) (blank blank' : Bool) :
    Respaced even (Mark.writeAll (if blank then [.newline] else []) b)
      (Mark.writeAll (if blank' then [.newline] else []) b') := by
  cases blank with
  | true =>
    cases blank' with
    | true => exact h.writeAll _
    | false => exact h.blank hb heven
  | false =>
    cases blank' with
    | true => exact (h.symm.blank (h.fresh hb) heven).symm
    | false => exact h

end Respaced

end Buffer

namespace Arrangement

open Buffer

variable {even : Prop} {b b' child child' : Buffer} {blank blank' : Bool}

/-- What stands in front of a child differs by a blank line at most. -/
theorem respaced_before (h : Respaced even b b') (arrangement : Arrangement) (written : Nat)
    (previous current : Option Tag) (heven : even → blank' = blank)
    (hfresh : written ≠ 0 → arrangement = .members → b.Fresh) :
    Respaced even (Mark.writeAll (arrangement.before blank written previous current) b)
      (Mark.writeAll (arrangement.before blank' written previous current) b') := by
  by_cases hsame : blank' = blank
  · rw [hsame]
    exact h.writeAll _
  have huneven : ¬even := fun he => hsame (heven he)
  cases arrangement with
  | separated separator => exact h.writeAll _
  | led text => exact h.writeAll _
  | followed text => exact h.writeAll _
  | lines => exact h.writeAll _
  | members =>
    by_cases hset : written ≠ 0 ∧ current.any Tag.isNestedDefinition = true
    · have hb : b.Fresh := hfresh hset.1 rfl
      have hset' (blank : Bool) : before blank written previous current .members =
          if blank then [.newline] else [] := by simp [before, hset]
      rw [hset', hset']
      exact h.blanks hb huneven blank blank'
    · have hnone (blank : Bool) : before blank written previous current .members = [] := by
        simp only [not_and, Bool.not_eq_true] at hset
        by_cases hw : written = 0 <;> simp [before, hw, hset]
      rw [hnone, hnone]
      exact h
  | topLevel =>
    cases previous with
    | none => exact h
    | some last =>
      by_cases hset : (current.any fun tag => tag != last || tag.isDefinition) = true ∧
          (last != .commentStatement) = true
      · have hset' (blank : Bool) : before blank written (some last) current .topLevel =
            .newline :: if blank then [.newline] else [] := by
          cases blank <;> simp [before, hset]
        rw [hset', hset']
        exact h.newline.blanks (fresh_newline b) huneven blank blank'
      · have hnone (blank : Bool) :
            before blank written (some last) current .topLevel = [.newline] := by
          simp only [before, Bool.and_eq_true, and_assoc, hset, and_false, if_false]
        rw [hnone, hnone]
        exact h.newline

/-- A child is put into its place. -/
theorem respaced_place (h : Respaced even b b') (hchild : Respaced even child child')
    (arrangement : Arrangement) (written : Nat) (previous current : Option Tag)
    (heven : even → blank' = blank)
    (hfresh : written ≠ 0 → arrangement = .members → b.Fresh) :
    Respaced even (arrangement.place blank written previous current child b)
      (arrangement.place blank' written previous current child' b') :=
  ((respaced_before h arrangement written previous current heven hfresh).append hchild).writeAll _

/-- Behind a member nothing has been written since its line was ended. -/
theorem fresh_place_members (written : Nat) (previous current : Option Tag) :
    (Arrangement.members.place blank written previous current child b).Fresh := fresh_newline _

end Arrangement

/-- Two steps end in the same way: both succeed, with results and states that are
related, or both fail with the same error and related states. -/
inductive SameEnd {ε σ α : Type} (result : α → α → Prop) (state : σ → σ → Prop) :
    EStateM.Result ε σ α → EStateM.Result ε σ α → Prop
  | ok {a a' : α} {s s' : σ} : result a a' → state s s' → SameEnd result state (.ok a s) (.ok a' s')
  | error {e : ε} {s s' : σ} : state s s' → SameEnd result state (.error e s) (.error e s')

/-- Two frames at the same point of a traversal, whose buffers differ in blank lines
at most. -/
structure Frame.Respaced (even : Prop) (f f' : Frame) : Prop where
  /-- The traversals have come equally far. -/
  progress : f'.progress = f.progress
  /-- The buffers differ in blank lines at most. -/
  buffer : Buffer.Respaced even f.buffer f'.buffer

/-- Two renderers that end in the same way on every node, with buffers that differ in
blank lines at most. -/
def Renderer.Respaced (even : Prop) (render render' : Renderer) : Prop :=
  ∀ id indent p, SameEnd (Option.Rel (Buffer.Respaced even)) Eq (render id indent p)
    (render' id indent p)

/-- Two ways of writing that end in the same way, from frames whose buffers differ in
blank lines at most to such frames. -/
def Writing.Respaced {α : Type} (even : Prop) (w w' : Writing α) : Prop :=
  ∀ f f', Frame.Respaced even f f' → SameEnd Eq (Frame.Respaced even) (w f) (w' f')

namespace Writing

variable {even : Prop} {q q' : Request} {render render' : Renderer}

/-- Two ways of writing that end in the same way do so when their results are not used. -/
theorem Respaced.discard {α : Type} {w w' : Writing α} (h : Respaced even w w') :
    Respaced even (discard w) (discard w') := by
  intro f f' hf
  have hsame := h f f' hf
  change SameEnd Eq _ (EStateM.map (fun _ => PUnit.unit) w f)
    (EStateM.map (fun _ => PUnit.unit) w' f')
  unfold EStateM.map
  generalize w f = r at hsame ⊢
  generalize w' f' = r' at hsame ⊢
  cases hsame with
  | ok _ hs => exact .ok rfl hs
  | error hs => exact .error hs

section Pieces

variable (hast : q'.ast = q.ast) (hr : Renderer.Respaced even render render')

include hast hr

/-- A required child is written. -/
theorem respaced_required (slot : String) (id : NodeId) :
    Respaced even (required q render slot id) (required q' render' slot id) := by
  intro f f' hf
  rw [required_eq, required_eq, hf.progress, hf.buffer.indent]
  have hsame := hr id f.buffer.indent f.progress
  generalize render id f.buffer.indent f.progress = r at hsame ⊢
  generalize render' id f.buffer.indent f.progress = r' at hsame ⊢
  cases hsame with
  | ok hresult hp =>
    subst hp
    cases hresult with
    | some hchild => exact .ok rfl ⟨rfl, hf.buffer.append hchild⟩
    | none =>
      have herror (p : Progress) : q'.alreadyGenerated p slot id = q.alreadyGenerated p slot id := by
        simp only [Request.alreadyGenerated, Request.pathOf, hast]
      dsimp only
      rw [herror]
      exact .error ⟨rfl, hf.buffer⟩
  | error hp => exact .error ⟨hp.symm, hf.buffer⟩

variable (heven : even →
  q'.options.blankLineBetweenDefinitions = q.options.blankLineBetweenDefinitions)

include heven

/-- A group is written child by child. Behind a member nothing has been written since
its line was ended, which is why a blank line may follow it. -/
theorem respaced_groupFrom (arrangement : Arrangement) (written : Nat)
    (previous : Option Tag) (ids : List NodeId) {f f' : Frame} (hf : Frame.Respaced even f f')
    (hfresh : written ≠ 0 → arrangement = .members → f.buffer.Fresh) :
    SameEnd Eq (Frame.Respaced even) (groupFrom q render arrangement written previous ids f)
      (groupFrom q' render' arrangement written previous ids f') := by
  induction ids generalizing written previous f f' with
  | nil => exact .ok rfl hf
  | cons id rest ih =>
    rw [groupFrom_cons, groupFrom_cons, hf.progress, hf.buffer.indent, hast]
    have hsame := hr id f.buffer.indent f.progress
    generalize render id f.buffer.indent f.progress = r at hsame ⊢
    generalize render' id f.buffer.indent f.progress = r' at hsame ⊢
    cases hsame with
    | ok hresult hp =>
      subst hp
      cases hresult with
      | some hchild =>
        refine ih (written + 1) (q.ast.tag? id) ⟨rfl, ?_⟩ ?_
        · exact Arrangement.respaced_place hf.buffer hchild arrangement written previous _ heven
            hfresh
        · rintro - rfl
          exact Arrangement.fresh_place_members written previous _
      | none => exact ih written previous ⟨rfl, hf.buffer⟩ hfresh
    | error hp => exact .error ⟨hp.symm, hf.buffer⟩

/-- A group is written. -/
theorem respaced_group (arrangement : Arrangement) (ids : List NodeId) :
    Respaced even (group q render arrangement ids) (group q' render' arrangement ids) :=
  fun _ _ hf => respaced_groupFrom hast hr heven arrangement 0 none ids hf (absurd rfl)

/-- A group is written between braces. -/
theorem respaced_braced (arrangement : Arrangement) (ids : List NodeId) :
    Respaced even (braced q render arrangement ids) (braced q' render' arrangement ids) := by
  intro f f' hf
  have hgroup := respaced_group hast hr heven arrangement ids
    ⟨f.progress, (f.buffer.println "\x7b").deeper⟩ ⟨f'.progress, (f'.buffer.println "\x7b").deeper⟩
    ⟨hf.progress, (hf.buffer.println _).deeper⟩
  rw [braced_eq, braced_eq]
  generalize group q render arrangement ids _ = r at hgroup ⊢
  generalize group q' render' arrangement ids _ = r' at hgroup ⊢
  cases hgroup with
  | ok hn hs => exact .ok hn ⟨hs.progress, hs.buffer.shallower.print "\x7d"⟩
  | error hs => exact .error hs

/-- A piece is written. -/
theorem respaced_piece (owner : NodeId) (tag : Tag) (p : Piece) :
    Respaced even (piece q render owner tag p) (piece q' render' owner tag p) := by
  cases p with
  | text value => exact fun f f' hf => .ok rfl ⟨hf.progress, hf.buffer.print value⟩
  | newline => exact fun f f' hf => .ok rfl ⟨hf.progress, hf.buffer.newline⟩
  | required slot id => exact respaced_required hast hr slot id
  | group arrangement ids => exact (respaced_group hast hr heven arrangement ids).discard
  | braced arrangement ids => exact (respaced_braced hast hr heven arrangement ids).discard
  | standing describe =>
    intro f f' hf
    have hstanding : q'.standing f'.progress = q.standing f.progress := by
      rw [hf.progress, Request.standing, Request.standing, Request.pathOf, Request.pathOf, hast]
    have hprint := hf.buffer.print (describe (q.standing f.progress))
    refine .ok rfl ⟨hf.progress, ?_⟩
    change Buffer.Respaced even _ (f'.buffer.print (describe (q'.standing f'.progress)))
    rw [hstanding]
    exact hprint
  | reject fault => exact fun f f' hf => .error hf

/-- A script is written piece by piece. -/
theorem respaced_script (owner : NodeId) (tag : Tag) (s : Script) :
    Respaced even (script q render owner tag s) (script q' render' owner tag s) := by
  induction s with
  | nil => exact fun f f' hf => .ok rfl hf
  | cons p rest ih =>
    intro f f' hf
    have hpiece := respaced_piece hast hr heven owner tag p f f' hf
    rw [script_cons, script_cons]
    generalize piece q render owner tag p f = r at hpiece ⊢
    generalize piece q' render' owner tag p f' = r' at hpiece ⊢
    cases hpiece with
    | ok _ hs => exact ih _ _ hs
    | error hs => exact .error hs

end Pieces

end Writing

namespace Request

/-- A node that has the same script is entered and ends in the same way. -/
theorem enter_respaced {even : Prop} {q q' : Request} {render render' : Renderer}
    {visitor : Visitor} {id : NodeId} {node : Node} (hast : q'.ast = q.ast)
    (heven : even →
      q'.options.blankLineBetweenDefinitions = q.options.blankLineBetweenDefinitions)
    (hr : Renderer.Respaced even render render')
    (hscript : q'.scriptOf visitor id node = q.scriptOf visitor id node) (indent : Nat)
    (p : Progress) :
    SameEnd (Option.Rel (Buffer.Respaced even)) Eq (q.enter render visitor id node indent p)
      (q'.enter render' visitor id node indent p) := by
  have hstart : Frame.Respaced even ⟨p.enter id, .ofNode id indent q.options.indent⟩
      ⟨p.enter id, .ofNode id indent q'.options.indent⟩ :=
    ⟨rfl, Buffer.Respaced.ofNode id indent q.options.indent q'.options.indent⟩
  have hrule : visitor.rule ⟨q'.ast, q'.options, id, node⟩ =
      visitor.rule ⟨q.ast, q.options, id, node⟩ := hscript
  have hwritten := Writing.respaced_script hast hr heven id node.tag
    (visitor.rule ⟨q.ast, q.options, id, node⟩) _ _ hstart
  unfold enter
  dsimp only
  rw [hrule]
  generalize Writing.script q render id node.tag _ _ = r at hwritten ⊢
  generalize Writing.script q' render' id node.tag _ _ = r' at hwritten ⊢
  cases hwritten with
  | ok _ hs => exact .ok (.some hs.buffer) (congrArg Progress.leave hs.progress.symm)
  | @error e f f' hs =>
    have hpath : q'.pathOf f'.progress.path = q.pathOf f.progress.path := by
      rw [hs.progress, pathOf, pathOf, hast]
    dsimp only
    rw [hpath]
    exact .error (congrArg Progress.leave hs.progress.symm)

variable (ast : Ast) (options : Options) (unit : String) (blank : Bool)

/-- A call ends in the same way with another layout: the two look at a node in the same
way and have the same script for it. -/
theorem render_respaced (limit : Nat) (first : Bool) :
    Renderer.Respaced (blank = options.blankLineBetweenDefinitions)
      ((standard ast options).render limit first)
      ((standard ast { options with
          indent := unit, blankLineBetweenDefinitions := blank }).render limit first) := by
  induction limit generalizing first with
  | zero => exact fun id indent p => .error rfl
  | succ limit ih =>
    intro id indent p
    let q := standard ast options
    let q' := standard ast { options with indent := unit, blankLineBetweenDefinitions := blank }
    have hgate : q'.gate first id p = q.gate first id p := rfl
    change SameEnd _ _ (q.render (limit + 1) first id indent p)
      (q'.render (limit + 1) first id indent p)
    unfold render
    rw [hgate]
    rcases q.gate_cases first id p with
      ⟨e, _, he⟩ | ⟨node, visitor, ha, ⟨_, hskip⟩ | ⟨_, hentered⟩⟩
    · rw [he]
      exact .error rfl
    · rw [hskip]
      exact .ok .none rfl
    · rw [hentered]
      obtain rfl : Visitor.standard node.tag = visitor := Option.some.inj ha.supported
      have hscript : q'.scriptOf (.standard node.tag) id node =
          q.scriptOf (.standard node.tag) id node :=
        Grammar.rule_of_separator options q'.options rfl node.tag ast id node
      have hast : q'.ast = q.ast := rfl
      exact enter_respaced hast (fun heven => heven) (ih false) hscript indent p

/-- **Layout options affect layout only.** From any root of any tree, two traversals
whose options differ in nothing but the text of one level of indentation and the
blank lines between definitions both succeed, or both fail with the same error. In
either case they have entered the same nodes in the same order. If they succeed, the
lines of their buffers that are not empty are the same, with the same levels of
indentation and the same parts of the same nodes; and if the options agree on blank
lines, all lines are. -/
theorem run_ignores_layout (root : NodeId) :
    SameEnd
      (fun b b' => b'.inkedLines = b.inkedLines ∧
        (blank = options.blankLineBetweenDefinitions → b'.lines = b.lines)) Eq
      ((standard ast options).run root {})
      ((standard ast { options with
          indent := unit, blankLineBetweenDefinitions := blank }).run root {}) := by
  let q := standard ast options
  let q' := standard ast { options with indent := unit, blankLineBetweenDefinitions := blank }
  have hsame := render_respaced ast options unit blank q.nesting true root 0 {}
  change SameEnd _ Eq (EStateM.bind (q.render q.nesting true root 0) _ {})
    (EStateM.bind (q'.render q.nesting true root 0) _ {})
  unfold EStateM.bind
  change SameEnd _ Eq (q.render q.nesting true root 0 {}) (q'.render q.nesting true root 0 {}) at hsame
  generalize q.render q.nesting true root 0 {} = r at hsame ⊢
  generalize q'.render q.nesting true root 0 {} = r' at hsame ⊢
  cases hsame with
  | ok hresult hp =>
    refine .ok ?_ hp
    cases hresult with
    | some h => exact ⟨h.inkedLines, h.lines⟩
    | none =>
      have hempty : Buffer.Respaced (blank = options.blankLineBetweenDefinitions)
          (.ofNode root 0 options.indent) (.ofNode root 0 unit) := .ofNode root 0 _ _
      exact ⟨hempty.inkedLines, hempty.lines⟩
  | error hp => exact .error hp

end Request

end SourceScribe
