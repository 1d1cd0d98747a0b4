import SourceScribe.Proofs.Blocks
import SourceScribe.Proofs.Naturality

/-!
# How texts grow

A buffer grows as if other buffers were appended to it: what it holds stays as it is,
only the last line goes on. The one thing that could change a line that is there is a
change of the level, which takes an empty last line along; but a script of the grammar
changes the level only on a line that it has just begun. So the lines that a node has
written stay together from the moment at which it gives them back to the end of the
traversal, in one buffer after the other, and only the first and the last of them go
on to the lines around them.
-/

namespace SourceScribe

namespace Line

/-- Lines are joined one after the other. -/
theorem join_assoc (l m n : Line) : (l.join m).join n = l.join (m.join n) := by
  simp [join, Nat.add_assoc]

/-- A line without parts adds nothing. -/
theorem join_blank (l : Line) (indent : Nat) : l.join { indent := indent } = l := by
  simp [join]

/-- A line goes on from one at its level that has no parts. -/
theorem blank_join (l : Line) : Line.join { indent := l.indent } l = l := by
  simp [join]

end Line

namespace Buffer

variable {b b' c : Buffer}

/-- Buffers are appended one after the other. -/
theorem append_assoc (a b c : Buffer) : (a.append b).append c = a.append (b.append c) := by
  obtain ⟨⟨bs⟩, bl, bi, bu, bo⟩ := b
  obtain ⟨⟨cs⟩, cl, ci, cu, co⟩ := c
  cases bs with
  | nil => cases cs <;> simp [append, Line.join_assoc]
  | cons b bs =>
    cases cs with
    | nil => simp [append]
    | cons c cs =>
      have hlines : (a.finished.push (a.current.join b) ++ bs).push (bl.join c) ++ cs =
          a.finished.push (a.current.join b) ++ (bs ++ bl.join c :: cs) := by
        rw [← Array.toList_inj]
        simp
      simp [append, hlines]

/-- The lines of a buffer say what it holds. -/
theorem eq_of_lines (h : b.lines = c.lines) : b.finished = c.finished ∧ b.current = c.current := by
  have hinit := congrArg List.dropLast h
  have hlast := congrArg List.getLast? h
  simp only [lines, List.dropLast_concat, List.getLast?_concat, Option.some.injEq] at hinit hlast
  exact ⟨Array.toList_inj.mp hinit, hlast⟩

/-- What is appended goes behind the lines, whatever else the buffer is. -/
theorem lines_append_congr (h : b.lines = b'.lines) (c : Buffer) :
    (b.append c).lines = (b'.append c).lines := by
  obtain ⟨hfinished, hcurrent⟩ := eq_of_lines h
  unfold append lines
  rw [hfinished, hcurrent]
  split <;> rfl

/-- To append a buffer leaves lines in front of the last if there are some in either. -/
theorem finished_append_ne (h : b.finished ≠ #[] ∨ c.finished ≠ #[]) :
    (b.append c).finished ≠ #[] := by
  obtain ⟨⟨cs⟩, cl, ci, cu, co⟩ := c
  cases cs with
  | nil =>
    rw [or_iff_left (by simp)] at h
    exact h
  | cons c cs =>
    rw [append, ne_eq, ← Array.toList_inj]
    simp

/-- Only the lines of what is appended matter. -/
theorem append_lines_congr (b : Buffer) (h : b'.lines = c.lines) :
    (b.append b').lines = (b.append c).lines := by
  obtain ⟨hfinished, hcurrent⟩ := eq_of_lines h
  unfold append lines
  rw [hfinished, hcurrent]

/-- A buffer that is nothing but its lines. -/
def ofLines (finished : List Line) (current : Line) : Buffer :=
  { finished := finished.toArray, current := current, indent := 0, unit := "" }

/-- Every buffer is as if it were appended to an empty one. -/
theorem exists_front (b : Buffer) : ∃ front : Buffer, (front.append b).lines = b.lines := by
  obtain ⟨⟨finished⟩, current, indent, unit, origin⟩ := b
  cases finished with
  | nil =>
    refine ⟨ofLines [] { indent := current.indent }, ?_⟩
    simp [lines, append, ofLines, Line.blank_join]
  | cons first rest =>
    refine ⟨ofLines [] { indent := first.indent }, ?_⟩
    simp [lines, append, ofLines, Line.blank_join]

/-- A buffer has grown as if another one had been appended. -/
def Grows (b b' : Buffer) : Prop := ∃ more : Buffer, b'.lines = (b.append more).lines

/-- A buffer has grown by at least one line. -/
def GrowsLines (b b' : Buffer) : Prop :=
  ∃ more : Buffer, more.finished ≠ #[] ∧ b'.lines = (b.append more).lines

/-- A buffer that has grown by lines has grown. -/
theorem GrowsLines.grows (h : b.GrowsLines b') : b.Grows b' := by
  obtain ⟨more, -, hlines⟩ := h
  exact ⟨more, hlines⟩

namespace Grows

/-- A buffer with the same lines has grown by nothing. -/
theorem of_lines (h : b'.lines = b.lines) : b.Grows b' := by
  refine ⟨ofLines [] { indent := 0 }, h.trans ?_⟩
  simp [lines, append, ofLines, Line.join_blank]

/-- A buffer has grown by nothing. -/
theorem refl (b : Buffer) : b.Grows b := of_lines rfl

/-- A buffer grows on. -/
theorem trans (h : b.Grows b') (h' : b'.Grows c) : b.Grows c := by
  obtain ⟨more, hmore⟩ := h
  obtain ⟨more', hmore'⟩ := h'
  refine ⟨more.append more', ?_⟩
  rw [hmore', lines_append_congr hmore, append_assoc]

/-- A buffer that grows in front of lines grows by lines. -/
theorem trans_lines (h : b.Grows b') (h' : b'.GrowsLines c) : b.GrowsLines c := by
  obtain ⟨more, hmore⟩ := h
  obtain ⟨more', hne, hmore'⟩ := h'
  refine ⟨more.append more', finished_append_ne (.inr hne), ?_⟩
  rw [hmore', lines_append_congr hmore, append_assoc]

/-- What has grown has grown behind other lines as well. -/
theorem behind (h : b.Grows b') (a : Buffer) : (a.append b).Grows (a.append b') := by
  obtain ⟨more, hmore⟩ := h
  exact ⟨more, by rw [append_assoc, append_lines_congr a hmore]⟩

/-- What is appended makes a buffer grow. -/
theorem append (b child : Buffer) : b.Grows (b.append child) := ⟨child, rfl⟩

/-- Text makes a buffer grow. -/
theorem print (b : Buffer) (text : String) : b.Grows (b.print text) := by
  unfold Buffer.print
  split
  · exact refl b
  · refine ⟨ofLines [] (Line.push { indent := 0 } ⟨text, b.origin⟩), ?_⟩
    simp [lines, Buffer.append, ofLines, Line.push, Line.join]

end Grows

namespace GrowsLines

/-- A buffer that has grown by lines grows on. -/
theorem trans (h : b.GrowsLines b') (h' : b'.Grows c) : b.GrowsLines c := by
  obtain ⟨more, hne, hmore⟩ := h
  obtain ⟨more', hmore'⟩ := h'
  refine ⟨more.append more', finished_append_ne (.inl hne), ?_⟩
  rw [hmore', lines_append_congr hmore, append_assoc]

/-- The end of a line makes a buffer grow by a line. -/
theorem newline (b : Buffer) : b.GrowsLines b.newline := by
  refine ⟨ofLines [{ indent := 0 }] { indent := b.indent }, by simp [ofLines], ?_⟩
  simp [lines, Buffer.append, Buffer.newline, ofLines, Line.join_blank]

/-- A change of the level does not touch the lines in front of the last. -/
theorem reindent (h : b.GrowsLines b') (indent level : Nat) :
    b.GrowsLines { b' with indent := indent, current := b'.current.reindent level } := by
  obtain ⟨more, hne, hmore⟩ := h
  refine ⟨{ more with current := more.current.reindent level }, hne, ?_⟩
  obtain ⟨hfinished, hcurrent⟩ := eq_of_lines hmore
  obtain ⟨⟨ms⟩, ml, mi, mu, mo⟩ := more
  cases ms with
  | nil => exact absurd rfl hne
  | cons m ms => simp [lines, hfinished, hcurrent, Buffer.append]

end GrowsLines

/-- Marks make a buffer grow. -/
theorem Grows.writeAll (ms : List Mark) (b : Buffer) : b.Grows (Mark.writeAll ms b) := by
  unfold Mark.writeAll
  induction ms generalizing b with
  | nil => exact .refl b
  | cons m ms ih =>
    have hm : b.Grows (m.write b) := by
      cases m with
      | text value => exact .print b value
      | newline => exact (GrowsLines.newline b).grows
    exact hm.trans (ih (m.write b))

/-- A child in its place makes a buffer grow, and what it has written stands in it; a
child that ends its line has a line behind it. -/
theorem grows_place (arrangement : Arrangement) (blankLines : Bool) (written : Nat)
    (previous current : Option Tag) (child b : Buffer) :
    b.Grows (arrangement.place blankLines written previous current child b) ∧
      ∃ front : Buffer,
        (front.append child).Grows
            (arrangement.place blankLines written previous current child b) ∧
          (arrangement.endsLines = true → (front.append child).GrowsLines
            (arrangement.place blankLines written previous current child b)) := by
  have hbefore := Grows.writeAll (arrangement.before blankLines written previous current) b
  refine ⟨(hbefore.trans (.append _ child)).trans (.writeAll _ _), _, .writeAll _ _, ?_⟩
  intro hends
  have hafter : arrangement.after = [.newline] := by
    cases arrangement with
    | lines => rfl
    | members => rfl
    | _ => cases hends
  rw [Arrangement.place, hafter]
  exact .newline _

end Buffer

/-- What a node may have left to do: the rest of a script, perhaps behind a group that
it has begun. What stands between braces are whole lines. -/
inductive Task.Regular : List Task → Prop
  | script {s : Script} : s.Plain → Regular (s.map .piece)
  | group {arrangement : Arrangement} {written : Nat} {previous : Option Tag} {ids : List NodeId}
    {s : Script} : s.Plain → Regular (.children arrangement written previous ids :: s.map .piece)
  | braced {arrangement : Arrangement} {written : Nat} {previous : Option Tag} {ids : List NodeId}
    {s : Script} : arrangement.endsLines = true → s.Plain →
    Regular (.children arrangement written previous ids :: .close :: s.map .piece)
  | close {s : Script} : s.Plain → Regular (.close :: s.map .piece)

/-- Whether a node is between braces. -/
def Task.closing : List Task → Bool
  | .close :: _ => true
  | .children .. :: .close :: _ => true
  | _ => false

@[simp]
theorem Task.closing_script (s : Script) : closing (s.map .piece) = false := by
  cases s <;> rfl

@[simp]
theorem Task.closing_group (arrangement : Arrangement) (written : Nat) (previous : Option Tag)
    (ids : List NodeId) (s : Script) :
    closing (.children arrangement written previous ids :: s.map .piece) = false := by
  cases s <;> rfl

/-- A node that is being written holds some lines in its buffer; between braces it has
gone on to another line behind them. -/
structure Activation.Holds (text : Buffer) (a : Activation) : Prop where
  /-- Its buffer has grown from the lines. -/
  grows : text.Grows a.buffer
  /-- Between braces it has grown by lines. -/
  lines : Task.closing a.tasks = true → text.GrowsLines a.buffer

/-- A node goes on and holds what it held. -/
structure Activation.GoesOn (a a' : Activation) : Prop where
  /-- What it has left to do is regular. -/
  regular : Task.Regular a'.tasks
  /-- It holds what it held. -/
  holds : ∀ text : Buffer, a.Holds text → a'.Holds text

namespace Request

variable {q : Request} {a : Activation} {outer : List Activation} {visited : Array NodeId}

/-- What becomes of the innermost node with a step: it is finished, it goes on, or it
stays as it is while something else is done. -/
inductive Goes (a : Activation) (outer : List Activation) (visited : Array NodeId) : Moment → Prop
  | finishes : a.tasks = [] → Goes a outer visited ⟨.back (some a.buffer), outer, visited⟩
  | goesOn {a' : Activation} : a.GoesOn a' → Goes a outer visited ⟨.work, a' :: outer, visited⟩
  | stays {control : Control} : (∀ result, control ≠ .back result) →
    Goes a outer visited ⟨control, a :: outer, visited⟩

/-- A task is done in one of these ways. -/
theorem perform_goes (h : Task.Regular a.tasks) :
    Goes a outer visited (q.perform a outer visited) := by
  obtain ⟨id, tag, buffer, tasks⟩ := a
  dsimp only at h
  cases h with
  | @script s hplain =>
    cases s with
    | nil => exact .finishes rfl
    | cons p s =>
      obtain ⟨hp, hs⟩ := Script.plain_cons.mp hplain
      cases p with
      | text value =>
        exact .goesOn ⟨.script hs, fun text ht => ⟨ht.grows.trans (.print _ _), by simp⟩⟩
      | newline =>
        exact .goesOn ⟨.script hs,
          fun text ht => ⟨ht.grows.trans (Buffer.GrowsLines.newline _).grows, by simp⟩⟩
      | required slot child => exact .stays (by simp)
      | group arrangement ids => exact .goesOn ⟨.group hs, fun text ht => ⟨ht.grows, by simp⟩⟩
      | braced arrangement ids =>
        have hopens : buffer.GrowsLines (buffer.println "\x7b").deeper :=
          ((Buffer.Grows.print buffer "\x7b").trans_lines (.newline _)).reindent _ _
        exact .goesOn ⟨.braced hp hs, fun text ht =>
          ⟨(ht.grows.trans_lines hopens).grows, fun _ => ht.grows.trans_lines hopens⟩⟩
      | standing describe => cases hp
      | reject fault => exact .stays (by simp)
  | @group arrangement written previous ids s hs =>
    cases ids with
    | nil => exact .goesOn ⟨.script hs, fun text ht => ⟨ht.grows, by simp⟩⟩
    | cons id ids => exact .stays (by simp)
  | @braced arrangement written previous ids s hends hs =>
    cases ids with
    | nil => exact .goesOn ⟨.close hs, fun text ht => ⟨ht.grows, fun _ => ht.lines rfl⟩⟩
    | cons id ids => exact .stays (by simp)
  | @close s hs =>
    refine .goesOn ⟨.script hs, fun text ht => ⟨?_, by simp⟩⟩
    exact ((ht.lines rfl).reindent _ _).grows.trans (.print _ _)

/-- A result is taken in one of these ways. -/
theorem resume_goes (h : Task.Regular a.tasks) (result : Option Buffer) :
    Goes a outer visited (q.resume result a outer visited) := by
  obtain ⟨id, tag, buffer, tasks⟩ := a
  dsimp only at h
  cases h with
  | @script s hplain =>
    cases s with
    | nil => cases result <;> exact .stays (by simp)
    | cons p s =>
      obtain ⟨-, hs⟩ := Script.plain_cons.mp hplain
      cases p with
      | required slot child =>
        cases result with
        | none => exact .stays (by simp)
        | some written =>
          exact .goesOn ⟨.script hs, fun text ht => ⟨ht.grows.trans (.append _ _), by simp⟩⟩
      | _ => cases result <;> exact .stays (by simp)
  | @group arrangement written previous ids s hs =>
    cases ids with
    | nil => cases result <;> exact .stays (by simp)
    | cons id ids =>
      cases result with
      | none => exact .goesOn ⟨.group hs, fun text ht => ⟨ht.grows, by simp⟩⟩
      | some child =>
        have hplace := (Buffer.grows_place arrangement q.options.blankLineBetweenDefinitions written
          previous (q.ast.tag? id) child buffer).1
        exact .goesOn ⟨.group hs, fun text ht => ⟨ht.grows.trans hplace, by simp⟩⟩
  | @braced arrangement written previous ids s hends hs =>
    cases ids with
    | nil => cases result <;> exact .stays (by simp)
    | cons id ids =>
      cases result with
      | none =>
        exact .goesOn ⟨.braced hends hs, fun text ht => ⟨ht.grows, fun _ => ht.lines rfl⟩⟩
      | some child =>
        have hplace := (Buffer.grows_place arrangement q.options.blankLineBetweenDefinitions written
          previous (q.ast.tag? id) child buffer).1
        exact .goesOn ⟨.braced hends hs,
          fun text ht => ⟨ht.grows.trans hplace, fun _ => (ht.lines rfl).trans hplace⟩⟩
  | close _ => cases result <;> exact .stays (by simp)

/-- What has been written for a child is held by the node that has asked for it. -/
theorem resume_holds (h : Task.Regular a.tasks) {child : NodeId} (hasks : a.Asks child)
    (written : Buffer) :
    ∃ a', q.resume (some written) a outer visited = ⟨.work, a' :: outer, visited⟩ ∧
      ∃ front : Buffer, a'.Holds (front.append written) := by
  obtain ⟨id, tag, buffer, tasks⟩ := a
  dsimp only at h
  cases hasks with
  | required slot rest ht =>
    cases ht
    generalize htasks : Task.piece (.required slot child) :: rest = tasks at h
    cases h with
    | @script s _ =>
      cases s with
      | nil => cases htasks
      | cons p s =>
        cases htasks
        exact ⟨_, rfl, buffer, .refl _, by simp⟩
    | _ => cases htasks
  | children arrangement count previous ids rest ht =>
    cases ht
    obtain ⟨-, front, hgrows, hlines⟩ := Buffer.grows_place arrangement
      q.options.blankLineBetweenDefinitions count previous (q.ast.tag? child) written buffer
    generalize htasks : Task.children arrangement count previous (child :: ids) :: rest = tasks at h
    cases h with
    | @script s _ => cases s <;> cases htasks
    | group _ =>
      cases htasks
      exact ⟨_, rfl, front, hgrows, by simp⟩
    | braced hends _ =>
      cases htasks
      exact ⟨_, rfl, front, hgrows, fun _ => hlines hends⟩
    | close _ => cases htasks

end Request

/-- What is left to do at a moment is regular. -/
def Moment.Regular (m : Moment) : Prop := ∀ a ∈ m.stack, Task.Regular a.tasks

/-- A moment bears the lines of a buffer: they come back as part of what has been
written, or they are held by a node that is being written. -/
inductive Moment.Bears (written : Buffer) (m : Moment) : Prop
  | back {result front : Buffer} : m.control = .back (some result) →
    (front.append written).Grows result → Bears written m
  | held {a : Activation} {front : Buffer} : a ∈ m.stack → a.Holds (front.append written) →
    Bears written m

namespace Moment

variable {ast : Ast} {options : Options} {written : Buffer} {control : Control}
  {stack outer : List Activation} {visited : Array NodeId} {a : Activation} {next : Moment}

/-- The innermost node goes on regularly. -/
theorem Regular.goes (h : Regular ⟨control, a :: outer, visited⟩)
    (hg : Request.Goes a outer visited next) : next.Regular := by
  obtain ⟨ha, houter⟩ := List.forall_mem_cons.mp h
  cases hg with
  | finishes _ => exact houter
  | goesOn hgoes => exact List.forall_mem_cons.mpr ⟨hgoes.regular, houter⟩
  | stays _ => exact h

/-- With a call the nodes that are being written stay, and one may come in front whose
script is regular. -/
theorem begin_stack (ast : Ast) (options : Options) (first : Bool) (id : NodeId) (indent : Nat)
    (m : Moment) :
    ((Request.standard ast options).begin first id indent m).stack = m.stack ∨
      ∃ a : Activation, Task.Regular a.tasks ∧
        ((Request.standard ast options).begin first id indent m).stack = a :: m.stack := by
  unfold Request.begin
  rcases (Request.standard ast options).gate_cases first id m.progress with
    ⟨e, _, he⟩ | ⟨node, visitor, ha, ⟨_, hgate⟩ | ⟨_, hgate⟩⟩
  · rw [he]
    exact .inl rfl
  · rw [hgate]
    exact .inl rfl
  · rw [hgate]
    cases ha.supported
    exact .inr ⟨_, .script (Grammar.plain_rule _ _), rfl⟩

/-- What is left to do stays regular with every step. -/
theorem Regular.step {m : Moment} (h : m.Regular)
    (hstep : (Request.standard ast options).step m = some next) : next.Regular := by
  obtain ⟨control, stack, visited⟩ := m
  unfold Request.step at hstep
  split at hstep
  next first id indent hcontrol =>
    cases hstep
    unfold Regular
    rcases begin_stack ast options first id indent ⟨control, stack, visited⟩ with
      hstack | ⟨a, ha, hstack⟩
    · rw [hstack]
      exact h
    · rw [hstack]
      exact List.forall_mem_cons.mpr ⟨ha, h⟩
  next a outer hcontrol hstack =>
    cases hstack
    cases hstep
    exact h.goes (Request.perform_goes (h a List.mem_cons_self))
  next result a outer hcontrol hstack =>
    cases hstack
    cases hstep
    exact h.goes (Request.resume_goes (h a List.mem_cons_self) result)
  next e a outer hcontrol hstack =>
    cases hstack
    cases hstep
    exact fun b hb => h b (List.mem_cons_of_mem a hb)
  next => cases hstep

/-- What a node that is being written holds is borne with the next step. -/
theorem Bears.goes {b : Activation} {front : Buffer} (hb : b ∈ a :: outer)
    (hheld : b.Holds (front.append written)) (hg : Request.Goes a outer visited next) :
    next.Bears written := by
  rcases List.mem_cons.mp hb with rfl | hb
  · cases hg with
    | finishes _ => exact .back rfl hheld.grows
    | goesOn hgoes => exact .held List.mem_cons_self (hgoes.holds _ hheld)
    | stays _ => exact .held List.mem_cons_self hheld
  · cases hg with
    | finishes _ => exact .held hb hheld
    | goesOn _ => exact .held (List.mem_cons_of_mem _ hb) hheld
    | stays _ => exact .held (List.mem_cons_of_mem _ hb) hheld

/-- What comes back is taken by a node that has asked for it, and held from then on. -/
theorem Bears.takes {result front : Buffer} (ha : Task.Regular a.tasks) {child : NodeId}
    (hasks : a.Asks child) (hgrows : (front.append written).Grows result) {q : Request} :
    (q.resume (some result) a outer visited).Bears written := by
  obtain ⟨a', heq, before, hheld⟩ : ∃ a', q.resume (some result) a outer visited =
      ⟨.work, a' :: outer, visited⟩ ∧ ∃ front : Buffer, a'.Holds (front.append result) :=
    Request.resume_holds ha hasks result
  have hwithin : ((before.append front).append written).Grows (before.append result) := by
    rw [Buffer.append_assoc]
    exact hgrows.behind before
  rw [heq]
  have hholds : a'.Holds ((before.append front).append written) :=
    ⟨hwithin.trans hheld.grows, fun hclosing => hwithin.trans_lines (hheld.lines hclosing)⟩
  exact .held List.mem_cons_self hholds

/-- What a moment bears is borne with every step, unless the traversal fails. -/
theorem Bears.step {m : Moment} (h : m.Bears written) (hm : m.Regular)
    (hasks : ∀ result, m.control = .back (some result) → ∀ a ∈ m.stack.head?, ∃ child, a.Asks child)
    (hstep : (Request.standard ast options).step m = some next)
    (hsound : ∀ e, next.control ≠ .fail e) : next.Bears written := by
  obtain ⟨control, stack, visited⟩ := m
  unfold Request.step at hstep
  split at hstep
  next first id indent hcontrol =>
    cases hstep
    cases hcontrol
    cases h with
    | back hback _ => cases hback
    | held ha hheld =>
      rcases begin_stack ast options first id indent ⟨_, stack, visited⟩ with
        hstack | ⟨b, -, hstack⟩
      · exact .held (hstack ▸ ha) hheld
      · exact .held (hstack ▸ List.mem_cons_of_mem b ha) hheld
  next a outer hcontrol hstack =>
    cases hstack
    cases hcontrol
    cases hstep
    cases h with
    | back hback _ => cases hback
    | held ha hheld =>
      exact .goes ha hheld (Request.perform_goes (hm a List.mem_cons_self))
  next result a outer hcontrol hstack =>
    cases hstack
    cases hcontrol
    cases hstep
    cases h with
    | back hback hgrows =>
      cases hback
      obtain ⟨child, hchild⟩ := hasks _ rfl a rfl
      exact .takes (hm a List.mem_cons_self) hchild hgrows
    | held ha hheld =>
      exact .goes ha hheld (Request.resume_goes (hm a List.mem_cons_self) result)
  next e a outer hcontrol hstack =>
    cases hstep
    exact absurd rfl (hsound _)
  next => cases hstep

end Moment

namespace Request

variable {q : Request} {ast : Ast} {options : Options} {root : NodeId} {m next last : Moment}
  {written : Buffer}

/-- A traversal that has failed does not recover. -/
theorem sound_of_step (h : q.step m = some next) (hnext : ∀ e, next.control ≠ .fail e) :
    ∀ e, m.control ≠ .fail e := by
  rintro e he
  obtain ⟨control, stack, visited⟩ := m
  cases he
  cases stack with
  | nil => cases h
  | cons a outer =>
    cases h
    exact hnext _ rfl

/-- What is left to do is regular at every moment of a traversal. -/
theorem Leads.regular (h : (standard ast options).Leads (.start root #[]) m) : m.Regular := by
  induction h with
  | refl => simp [Moment.Regular, Moment.start]
  | tail _ hstep ih => exact ih.step hstep

/-- What comes back has been asked for. -/
theorem Leads.asks_of_back (h : (standard ast options).Leads (.start root #[]) m)
    (hback : m.control = .back (some written)) :
    ∀ a ∈ m.stack.head?, ∃ child, a.Asks child := by
  obtain ⟨log, hcourse⟩ := exists_course h
  have hstands := (hcourse.accounted (standard_entersOnce ast options)).stands
  obtain ⟨control, stack, visited⟩ := m
  cases hback
  obtain ⟨id, -, hstacked⟩ := hstands
  cases stack with
  | nil => simp
  | cons a outer =>
    rintro _ ⟨⟩
    exact ⟨id, hstacked.2.2.1 id rfl⟩

/-- What a moment bears is borne to the end of a traversal that does not fail. -/
theorem Leads.bears (hm : (standard ast options).Leads (.start root #[]) m)
    (h : m.Bears written) (hl : (standard ast options).Leads m last)
    (hlast : ∀ e, last.control ≠ .fail e) : last.Bears written := by
  induction hl with
  | refl => exact h
  | @tail b c hl hstep ih =>
    have hb : (standard ast options).Leads (.start root #[]) b := hm.trans hl
    exact (ih (sound_of_step hstep hlast)).step hb.regular
      (fun result hback => hb.asks_of_back hback) hstep hlast

end Request

end SourceScribe
