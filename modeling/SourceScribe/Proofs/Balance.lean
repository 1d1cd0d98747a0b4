import SourceScribe.Proofs.Failures
import SourceScribe.Proofs.Nesting
import SourceScribe.Proofs.Preorder
import SourceScribe.Proofs.Printing

/-!
# Generated text is well nested

What a node writes takes a scanner the way its script does, whichever of its
children are written and whichever are left out, because each that is written
leaves the scanner as it is. On the page indentation comes in front of rows,
and a row begins outside strings and templates. So the text of every node that
is generated is well nested.
-/

namespace SourceScribe

/-- What a stroke does to a scanner. Lines end outside strings and templates. -/
def Stroke.scan (s : Scanner) : Stroke → Option Scanner
  | .text value => s.run value.toList
  | .line _ => if s.region = .code then some s else none

namespace Layout

variable {l m : Layout}

/-- What a layout does to a scanner. -/
def scan (start : Scanner) : Layout → Option Scanner
  | [] => some start
  | stroke :: rest => (stroke.scan start).bind fun next => scan next rest

/-- The layout leaves every scanner outside strings and templates as it is. -/
def Level (l : Layout) : Prop :=
  ∀ opened, scan ⟨.code, opened⟩ l = some ⟨.code, opened⟩

/-- Layouts are scanned one after the other. -/
theorem scan_append (start : Scanner) (l m : Layout) :
    scan start (l ++ m) = (scan start l).bind fun next => scan next m := by
  induction l generalizing start with
  | nil => rfl
  | cons stroke l ih =>
    rw [List.cons_append, scan, scan]
    cases stroke.scan start with
    | none => rfl
    | some next => exact ih next

/-- Text does to a scanner what its characters do. -/
theorem scan_str (start : Scanner) (value : String) :
    scan start (str value) = start.run value.toList := by
  exact Option.bind_fun_some _

/-- A layout that goes further in does the same to a scanner. -/
theorem scan_nest (start : Scanner) (levels : Nat) (l : Layout) :
    scan start (nest levels l) = scan start l := by
  induction l generalizing start with
  | nil => rfl
  | cons stroke l ih =>
    have hstroke : (stroke.nest levels).scan start = stroke.scan start := by cases stroke <;> rfl
    change ((stroke.nest levels).scan start).bind (fun next => scan next (nest levels l)) = _
    rw [hstroke, scan]
    exact congrArg _ (funext fun next => ih next)

/-- A layout without strokes is level. -/
theorem level_nil : Level [] := fun _ => rfl

/-- A line end is level. -/
theorem level_newline : Level newline := fun _ => rfl

/-- Level layouts are put one behind the other. -/
theorem Level.append (hl : Level l) (hm : Level m) : Level (l ++ m) := by
  intro opened
  rw [scan_append, hl opened]
  exact hm opened

/-- Level layouts for the members of a list. -/
theorem level_flatMap {α : Type} {as : List α} {f : α → Layout} (h : ∀ a ∈ as, Level (f a)) :
    Level (as.flatMap f) := by
  induction as with
  | nil => exact level_nil
  | cons a as ih =>
    rw [List.flatMap_cons]
    exact (h a List.mem_cons_self).append (ih fun b hb => h b (List.mem_cons_of_mem a hb))

/-- Level layouts between braces are level. -/
theorem level_braces {ls : List Layout} (h : ∀ l ∈ ls, Level l) : Level (braces ls) := by
  have hrows : Level (ls.flatMap fun l => nest 1 (newline ++ l)) := by
    refine level_flatMap fun l hl opened => ?_
    rw [scan_nest]
    exact level_newline.append (h l hl) opened
  intro opened
  have hopen : scan ⟨.code, opened⟩ (str "\x7b") = some ⟨.code, .curly :: opened⟩ := rfl
  have hclose : scan ⟨.code, .curly :: opened⟩ (newline ++ str "\x7d") =
      some ⟨.code, opened⟩ := rfl
  rw [braces, List.append_assoc, scan_append, scan_append, hopen, Option.bind_some,
    hrows (.curly :: opened), Option.bind_some, hclose]

end Layout

namespace Mark

/-- Marks without delimiters are level. -/
theorem level_layout {ms : List Mark} (h : ∀ value, .text value ∈ ms → Text.Plain value.toList) :
    Layout.Level (ms.flatMap layout) := by
  refine Layout.level_flatMap fun m hm => ?_
  cases m with
  | text value =>
    intro opened
    rw [layout, Layout.scan_str]
    exact (h value hm).level opened
  | newline => exact Layout.level_newline

end Mark

namespace Arrangement

variable {arrangement : Arrangement}

/-- What stands in front of a child is level when the text of the arrangement is plain. -/
theorem level_before (h : arrangement.Tame) (blankLines : Bool) (written : Nat)
    (previous current : Option Tag) :
    Layout.Level
      ((arrangement.before blankLines written previous current).flatMap Mark.layout) := by
  apply Mark.level_layout
  intro value hm
  cases arrangement with
  | separated separator =>
    simp only [before] at hm
    split at hm
    · cases hm
    · cases List.mem_singleton.mp hm
      exact h
  | led text =>
    cases List.mem_singleton.mp hm
    exact h
  | followed text => cases hm
  | lines => cases hm
  | members =>
    simp only [before] at hm
    split at hm
    · cases List.mem_singleton.mp hm
    · cases hm
  | topLevel =>
    simp only [before] at hm
    split at hm
    · cases hm
    · split at hm <;> simp at hm

/-- What stands behind a child is level when the text of the arrangement is plain. -/
theorem level_after (h : arrangement.Tame) :
    Layout.Level (arrangement.after.flatMap Mark.layout) := by
  apply Mark.level_layout
  intro value hm
  cases arrangement with
  | followed text =>
    cases List.mem_singleton.mp hm
    exact h
  | lines => cases List.mem_singleton.mp hm
  | members => cases List.mem_singleton.mp hm
  | _ => cases hm

end Arrangement

/-- The buffers of the nodes are extended by level layouts. -/
def Renderer.Levels (render : Renderer) (unit : String) (ids : List NodeId) : Prop :=
  ∀ id ∈ ids, ∀ indent p buffer p', render id indent p = .ok (some buffer) p' →
    ∃ l : Layout, l.Level ∧ (Buffer.ofNode id indent unit).Extends l buffer

namespace Writing

variable {q : Request} {render : Renderer} {unit : String} {ids : List NodeId} {f f' : Frame}

/-- A required child extends the buffer by a level layout. -/
theorem required_levels {slot : String} {id : NodeId} (hr : render.Levels unit [id])
    (hunit : f.buffer.unit = unit) (h : required q render slot id f = .ok () f') :
    ∃ l : Layout, l.Level ∧ f.buffer.Extends l f'.buffer := by
  rw [required_eq] at h
  split at h
  next buffer p hcall =>
    cases h
    obtain ⟨l, hl, hext⟩ := hr id List.mem_cons_self _ _ _ _ hcall
    rw [← hunit] at hext
    exact ⟨l, hl, .append hext⟩
  next => cases h
  next => cases h

/-- A group extends the buffer by a level layout for each child that is written, with what
stands behind it. -/
theorem groupFrom_levels {arrangement : Arrangement} (ha : arrangement.Tame)
    (hr : render.Levels unit ids) (hunit : f.buffer.unit = unit) {written n : Nat}
    {previous : Option Tag}
    (h : groupFrom q render arrangement written previous ids f = .ok n f') :
    ∃ ls : List Layout, (∀ l ∈ ls, l.Level) ∧
      f.buffer.Extends (ls.flatMap fun l => l ++ arrangement.after.flatMap Mark.layout)
        f'.buffer := by
  induction ids generalizing f written previous with
  | nil =>
    cases h
    exact ⟨[], by simp, .refl _⟩
  | cons id ids ih =>
    have hrest : render.Levels unit ids := fun c hc => hr c (List.mem_cons_of_mem id hc)
    rw [groupFrom_cons] at h
    split at h
    next buffer p hcall =>
      obtain ⟨l, hl, hext⟩ := hr id List.mem_cons_self _ _ _ _ hcall
      rw [← hunit] at hext
      have hplace : f.buffer.Extends _ (arrangement.place q.options.blankLineBetweenDefinitions
          written previous (q.ast.tag? id) buffer f.buffer) := Arrangement.extends_place hext
      obtain ⟨ls, hls, hothers⟩ := ih hrest (hplace.unit.trans hunit) h
      refine ⟨_ :: ls, ?_, hplace.trans hothers⟩
      intro l' hl'
      rcases List.mem_cons.mp hl' with rfl | hl'
      · exact (Arrangement.level_before ha _ _ _ _).append hl
      · exact hls l' hl'
    next p hcall => exact ih (f := ⟨p, f.buffer⟩) hrest hunit h
    next => cases h

/-- Rows between braces extend the buffer by a level layout. -/
theorem braced_levels {arrangement : Arrangement} (ha : arrangement.Tame)
    (hrow : arrangement.after = [.newline]) (hr : render.Levels unit ids)
    (hunit : f.buffer.unit = unit) {n : Nat}
    (h : braced q render arrangement ids f = .ok n f') :
    ∃ l : Layout, l.Level ∧ f.buffer.Extends l f'.buffer := by
  rw [braced_eq] at h
  split at h
  next written f₁ hgroup =>
    cases h
    have hopen : ((f.buffer.println "\x7b").deeper).unit = unit := by
      rw [← hunit]
      exact ((Buffer.Extends.print f.buffer "\x7b").trans (.newline _)).unit
    obtain ⟨ls, hls, hext⟩ := groupFrom_levels (f := ⟨f.progress, (f.buffer.println "\x7b").deeper⟩)
      ha hr hopen hgroup
    rw [hrow] at hext
    exact ⟨_, Layout.level_braces hls, .braces hext⟩
  next => cases h

/-- A piece that can be scanned extends the buffer by a layout that does to every scanner
what the piece does. -/
theorem piece_scans {owner : NodeId} {tag : Tag} {p : Piece} (hr : render.Levels unit p.calls)
    (hunit : f.buffer.unit = unit) {start next : Scanner} (hscan : p.scan start = some next)
    (h : piece q render owner tag p f = .ok () f') :
    ∃ l : Layout, f.buffer.Extends l f'.buffer ∧
      ∀ s s', p.scan s = some s' → l.scan s = some s' := by
  -- what stands outside strings and templates leaves the scanner as it is
  have hlevel (hsame : ∀ s s', p.scan s = some s' → s.region = .code ∧ s' = s)
      (hl : ∃ l : Layout, l.Level ∧ f.buffer.Extends l f'.buffer) :
      ∃ l : Layout, f.buffer.Extends l f'.buffer ∧
        ∀ s s', p.scan s = some s' → l.scan s = some s' := by
    obtain ⟨l, hl, hext⟩ := hl
    refine ⟨l, hext, fun s s' hs => ?_⟩
    obtain ⟨region, opened⟩ := s
    obtain ⟨rfl, rfl⟩ := hsame _ _ hs
    exact hl opened
  have hguard {P : Prop} [Decidable P] {s s' : Scanner}
      (hs : (if P then some s else none) = some s') : P ∧ s' = s := by
    split at hs
    next hp => exact ⟨hp, (Option.some.inj hs).symm⟩
    next => cases hs
  cases p with
  | text value =>
    cases h
    exact ⟨.str value, .print _ _, fun s s' hs => (Layout.scan_str s value).trans hs⟩
  | newline =>
    cases h
    exact hlevel (fun _ _ => hguard) ⟨.newline, Layout.level_newline, .newline _⟩
  | required slot child => exact hlevel (fun _ _ => hguard) (required_levels hr hunit h)
  | group arrangement children =>
    obtain ⟨n, hgroup⟩ := discard_eq_ok h
    have htame : arrangement.Tame := (hguard hscan).1.2
    obtain ⟨ls, hls, hext⟩ := groupFrom_levels htame hr hunit hgroup
    refine hlevel (fun _ _ hs => ⟨(hguard hs).1.1, (hguard hs).2⟩) ⟨_, ?_, hext⟩
    exact Layout.level_flatMap fun l hl => (hls l hl).append (Arrangement.level_after htame)
  | braced arrangement children =>
    obtain ⟨n, hbraced⟩ := discard_eq_ok h
    have hlines : Arrangement.lines.Tame := trivial
    have hmembers : Arrangement.members.Tame := trivial
    cases arrangement with
    | lines => exact hlevel (fun _ _ => hguard) (braced_levels hlines rfl hr hunit hbraced)
    | members => exact hlevel (fun _ _ => hguard) (braced_levels hmembers rfl hr hunit hbraced)
    | _ => cases hscan
  | standing describe => cases hscan
  | reject fault => cases hscan

/-- A script that can be scanned extends the buffer by a layout that does to every scanner
what the script does. -/
theorem script_scans {owner : NodeId} {tag : Tag} {s : Script}
    (hr : render.Levels unit (Script.calls s)) (hunit : f.buffer.unit = unit)
    {start next : Scanner} (hscan : s.scan start = some next)
    (h : script q render owner tag s f = .ok () f') :
    ∃ l : Layout, f.buffer.Extends l f'.buffer ∧
      ∀ a b, s.scan a = some b → l.scan a = some b := by
  induction s generalizing f start with
  | nil =>
    cases h
    exact ⟨[], .refl _, fun _ _ => id⟩
  | cons p s ih =>
    rw [Script.calls_cons] at hr
    have hfirst : render.Levels unit p.calls := fun c hc => hr c (List.mem_append_left _ hc)
    have hothers : render.Levels unit (Script.calls s) :=
      fun c hc => hr c (List.mem_append_right _ hc)
    obtain ⟨middle, hmiddle, hscan⟩ := Option.bind_eq_some_iff.mp hscan
    rw [script_cons] at h
    split at h
    next f₁ hpiece =>
      obtain ⟨l, hl, hlscan⟩ := piece_scans hfirst hunit hmiddle hpiece
      obtain ⟨m, hm, hmscan⟩ := ih hothers (hl.unit.trans hunit) hscan h
      refine ⟨l ++ m, hl.trans hm, fun a b hab => ?_⟩
      obtain ⟨c, hac, hcb⟩ := Option.bind_eq_some_iff.mp hab
      rw [Layout.scan_append, hlscan a c hac]
      exact hmscan c b hcb
    next => cases h

end Writing

namespace Page

/-- The characters of texts with line ends between them. -/
theorem toList_intercalate (front : List String) (last : String) :
    (String.intercalate "\n" (front ++ [last])).toList =
      (front.flatMap fun text => text.toList ++ ['\n']) ++ last.toList := by
  induction front with
  | nil => simp
  | cons text front ih =>
    obtain ⟨next, rest, hrest⟩ : ∃ next rest, front ++ [last] = next :: rest :=
      List.exists_cons_of_ne_nil (by simp)
    rw [hrest] at ih
    rw [List.cons_append, hrest, String.intercalate_cons_cons, String.toList_append,
      String.toList_append, ih, List.flatMap_cons, List.append_assoc]
    simp

/-- The characters of a page, row by row. -/
theorem toList_source (unit : String) (p : Page) :
    (p.source unit).toList = (p.above.flatMap fun r => (r.source unit).toList ++ ['\n']) ++
      (p.last.source unit).toList := by
  rw [source, List.map_append, List.map_cons, List.map_nil, toList_intercalate, List.flatMap_map]

/-- Indentation is plain when one level of it is. -/
theorem plain_indentation {unit : String} (h : Text.Plain unit.toList) (levels : Nat) :
    Text.Plain (indentation unit levels).toList := by
  rw [indentation_eq]
  induction levels with
  | zero => exact Text.plain_nil
  | succ levels ih =>
    rw [List.replicate_succ, String.join_cons, String.toList_append]
    exact Text.plain_append.mpr ⟨h, ih⟩

/-- The scanner has taken the text of a page, and does not stand inside a string or a
template when the last row is empty. -/
structure Scanned (unit : String) (p : Page) (s : Scanner) : Prop where
  /-- The text has been taken. -/
  text : Scanner.run ⟨.code, []⟩ (p.source unit).toList = some s
  /-- A row begins outside strings and templates. -/
  fresh : p.last.text = "" → s.region = .code

/-- A blank page at the margin has been scanned at the start. -/
theorem scanned_blank (unit : String) (level : Nat) :
    Scanned unit (blank level) ⟨.code, []⟩ := by
  have htext : (blank level).source unit = "" := by simp [source, blank, Row.source]
  exact ⟨by rw [htext]; rfl, fun _ => rfl⟩

/-- What a stroke does to a scanner, its text does on the page: indentation in front of a
row is plain. -/
theorem Scanned.write {unit : String} (hunit : Text.Plain unit.toList) {p : Page}
    {s next : Scanner} (h : Scanned unit p s) (level : Nat) {stroke : Stroke}
    (hs : stroke.scan s = some next) : Scanned unit (stroke.write level p) next := by
  have htext := h.text
  rw [toList_source] at htext
  cases stroke with
  | text value =>
    change s.run value.toList = some next at hs
    by_cases hvalue : value = ""
    · rw [hvalue] at hs ⊢
      cases hs
      simpa only [Stroke.write, String.append_empty] using h
    · have hne : p.last.text ++ value ≠ "" := by simp [hvalue]
      refine ⟨?_, fun hempty => absurd hempty hne⟩
      by_cases hlast : p.last.text = ""
      · -- the row gets its indentation with its first text
        obtain ⟨region, opened⟩ := s
        cases h.fresh hlast
        have hindent := (plain_indentation hunit p.last.level).level opened
        simp only [Row.source, hlast, if_true, String.toList_empty, List.append_nil] at htext
        simp only [toList_source, Stroke.write, Row.source, hlast, String.empty_append, hvalue,
          if_false, String.toList_append]
        rw [Scanner.run_append, htext, Option.bind_some, Scanner.run_append, hindent]
        exact hs
      · simp only [Row.source, hlast, if_false, String.toList_append] at htext
        simp only [toList_source, Stroke.write, Row.source, hne, if_false, String.toList_append]
        rw [← List.append_assoc, ← List.append_assoc, Scanner.run_append, List.append_assoc, htext]
        exact hs
  | line depth =>
    obtain ⟨region, opened⟩ := s
    simp only [Stroke.scan] at hs
    split at hs
    next hregion =>
      cases hs
      refine ⟨?_, fun _ => hregion⟩
      cases hregion
      have hend : Text.Level ['\n'] := (show Text.Plain ['\n'] by decide).level
      have hblank : (Row.source unit ⟨level + depth, ""⟩).toList = [] := by simp [Row.source]
      simp only [toList_source, Stroke.write, List.flatMap_append, List.flatMap_cons,
        List.flatMap_nil, hblank, List.append_nil]
      rw [← List.append_assoc, Scanner.run_append, htext]
      exact hend opened
    next => cases hs

/-- What a layout does to a scanner, its text does on the page. -/
theorem Scanned.layout {unit : String} (hunit : Text.Plain unit.toList) {p : Page}
    {s next : Scanner} (h : Scanned unit p s) (level : Nat) {l : Layout}
    (hl : l.scan s = some next) : Scanned unit (l.write level p) next := by
  induction l generalizing p s with
  | nil =>
    cases hl
    exact h
  | cons stroke l ih =>
    obtain ⟨middle, hmiddle, hrest⟩ := Option.bind_eq_some_iff.mp hl
    exact ih (h.write hunit level hmiddle) hrest

end Page

/-- The text of a level layout is well nested. -/
theorem Layout.Level.wellNested {l : Layout} (h : l.Level) {unit : String}
    (hunit : Text.Plain unit.toList) : WellNested (l.source unit) := by
  have hscanned := (Page.scanned_blank unit 0).layout hunit 0 (h [])
  exact Scanner.wellNested_of_run hscanned.text

namespace Request

variable {ast : Ast} {options : Options} {root id : NodeId}

/-- Below the node no comment is written, and the texts that are written as they are given
have no delimiters. -/
structure Tame (ast : Ast) (options : Options) (root : NodeId) : Prop where
  /-- No node is a comment. -/
  uncommented : ∀ id node, ast.Reaches root id → ast.node? id = some node →
    node.tag ≠ .commentStatement
  /-- The texts of constructs that are not checked have no delimiters. -/
  loose : ∀ id node, ast.Reaches root id → ast.node? id = some node →
    ∀ text ∈ node.construct.looseTexts, Text.Plain text
  /-- The separator of arguments has no delimiters. -/
  separator : Text.Plain options.argumentSeparator.toList
  /-- One level of indentation has no delimiters. -/
  unit : Text.Plain options.indent.toList

/-- A node that is written extends its buffer by a level layout. -/
theorem render_levels (h : Tame ast options root) (limit : Nat) (first : Bool)
    (hid : ast.Reaches root id) :
    ((standard ast options).render limit first).Levels options.indent [id] := by
  induction limit generalizing first id with
  | zero =>
    intro c _ indent p buffer p' hcall
    cases hcall
  | succ limit ih =>
    intro c hc indent p buffer p' hcall
    cases List.mem_singleton.mp hc
    rcases (standard ast options).render_cases limit first id indent p with
      ⟨e, _, he⟩ | ⟨node, visitor, ha, ⟨_, hskip⟩ | ⟨_, henter⟩⟩
    · rw [he] at hcall
      cases hcall
    · rw [hskip] at hcall
      cases hcall
    · rw [henter] at hcall
      cases ha.supported
      have htame : Setting.Tame ⟨ast, options, id, node⟩ :=
        ⟨h.loose id node hid ha.found, h.separator⟩
      have hcloses := Grammar.closes_rule (h.uncommented id node hid ha.found) _ htame
      unfold enter at hcall
      dsimp only at hcall
      split at hcall
      next f hscript =>
        cases hcall
        have hchildren : ((standard ast options).render limit false).Levels options.indent
            (Script.calls (Grammar.rule node.tag ⟨ast, options, id, node⟩)) := by
          intro child hchild
          have hl : ast.Links id child :=
            links_of_calls (q := standard ast options) (Grammar.covers_rule node.tag) ha hchild
          exact ih false (hid.tail hl) child List.mem_cons_self
        have hscan := hcloses (Writing.script_clean hscript)
        obtain ⟨l, hext, hl⟩ := Writing.script_scans hchildren rfl (hscan []) hscript
        exact ⟨l, fun opened => hl _ _ (hscan opened), hext⟩
      next => cases hcall

/-- It is enough to look at all nodes. -/
theorem Tame.of_nodes (hnodes : ∀ node ∈ ast.nodes, node.tag ≠ .commentStatement ∧
      ∀ text ∈ node.construct.looseTexts, Text.Plain text)
    (hseparator : Text.Plain options.argumentSeparator.toList)
    (hunit : Text.Plain options.indent.toList) : Tame ast options root where
  uncommented _ _ _ hnode := (hnodes _ (Array.mem_of_getElem? hnode)).1
  loose _ _ _ hnode := (hnodes _ (Array.mem_of_getElem? hnode)).2
  separator := hseparator
  unit := hunit

end Request

namespace Generator

/-- **Generated text is well nested.** When the text of a node is generated, every string
and every template in it is closed, and the brackets outside of them form a nested word. The
graph may share nodes, but no comment lies below the node, and the texts that are written as
they are given have no delimiters. -/
theorem generateNode_nests {ast : Ast} {options : Options} {root : NodeId} {text : String}
    (htame : Request.Tame ast options root)
    (h : (⟨.standard, options⟩ : Generator).generateNode ast root = .ok text) :
    WellNested text := by
  obtain ⟨buffer, p, hrun, rfl⟩ := generateNode_eq_ok.mp h
  obtain ⟨result, hrender, rfl⟩ := Request.run_eq_ok hrun
  have hlevel : ∃ l : Layout, l.Level ∧ (Buffer.ofNode root 0 options.indent).Extends l
      (result.getD (.ofNode root 0 options.indent)) := by
    cases result with
    | none => exact ⟨[], Layout.level_nil, .refl _⟩
    | some buffer =>
      exact Request.render_levels htame _ true .refl root List.mem_cons_self _ _ _ _ hrender
  obtain ⟨l, hl, hext⟩ := hlevel
  rw [hext.source_eq]
  exact hl.wellNested htame.unit

/-- A block with a call that is listed twice and a variable. The string in the call and the
template that the variable gets hold delimiters. -/
def quotedDelimiters : Ast where
  nodes := #[
    { construct := .blockStatement, children := [⟨1⟩, ⟨4⟩, ⟨1⟩] },
    { construct := .expressionStatement, children := [⟨2⟩], parent := some ⟨0⟩ },
    { construct := .functionInvocationExpression "log:print(", children := [⟨3⟩],
      parent := some ⟨1⟩ },
    { construct := .basicLiteralExpression .string "a) \" \x7b", parent := some ⟨2⟩ },
    { construct := .variableDefinitionStatement "map<xml>[]" "m", children := [⟨5⟩],
      parent := some ⟨0⟩ },
    { construct := .backQuoteExpression "<a>[\x7d", parent := some ⟨4⟩ }]

/-- The delimiters inside the string and inside the template do not count. -/
theorem generateNode_nests_quotedDelimiters :
    Request.Tame quotedDelimiters {} ⟨0⟩ ∧
    (⟨.standard, {}⟩ : Generator).generateNode quotedDelimiters ⟨0⟩ =
      .ok ("\x7b\n    log:print(\"a) \\\" \x7b\");\n" ++
        "    map<xml>[] m = \x60<a>[\x7d\x60;\n\x7d") ∧
    WellNested ("\x7b\n    log:print(\"a) \\\" \x7b\");\n" ++
      "    map<xml>[] m = \x60<a>[\x7d\x60;\n\x7d") := by
  have htame : Request.Tame quotedDelimiters {} ⟨0⟩ :=
    .of_nodes (by decide +kernel) (by decide) (by decide)
  have htext : (⟨.standard, {}⟩ : Generator).generateNode quotedDelimiters ⟨0⟩ =
      .ok ("\x7b\n    log:print(\"a) \\\" \x7b\");\n" ++
        "    map<xml>[] m = \x60<a>[\x7d\x60;\n\x7d") := by
    decide +kernel
  exact ⟨htame, htext, generateNode_nests htame htext⟩

end Generator

end SourceScribe
