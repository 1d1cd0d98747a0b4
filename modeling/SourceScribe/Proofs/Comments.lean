import Mathlib.Data.List.DropRight
import SourceScribe.Proofs.Expressions

/-!
# Comments stay comments

A comment is written as rows, one for each line of its text and at least one. Every row
begins like a comment, holds no line end and does not end with white space. So the rows
with line ends between them are a text whose lines are these rows, and since a row is
shown as it is, a comment with that text is written the same.
-/

namespace SourceScribe

namespace Text

/-- Two slashes, with which a comment begins. -/
def slashes : List Char := ['/', '/']

/-- A row that is a comment of its own. -/
structure CommentRow (row : List Char) : Prop where
  /-- The row begins like a comment. -/
  opens : slashes <+: row
  /-- There is no line end in the row. -/
  unbroken : '\n' ∉ row
  /-- The row does not end with white space. -/
  trimmed : ∀ c ∈ row.getLast?, isBlank c = false

/-- How a comment shows a line of its text. -/
inductive ShownAs (line : List Char) : List Char → Prop
  /-- A line that begins like a comment is kept without the white space around it. -/
  | kept : slashes <+: dropBlanksFront line → ShownAs line (dropBlanks line)
  /-- Any other line is put behind slashes, without the white space at its end. -/
  | put : ¬ slashes <+: dropBlanksFront line → (∃ c ∈ line, isBlank c = false) →
    ShownAs line (slashes ++ ' ' :: dropBlanksBack line)
  /-- Of a blank line the slashes are left. -/
  | blank : (∀ c ∈ line, isBlank c = true) → ShownAs line slashes

/-- The row that shows a line of a comment. -/
def commentRow (line : List Char) : List Char :=
  let kept := dropBlanksBack line
  let start := dropBlanksFront kept
  if slashes.isPrefixOf start then start
  else if kept.isEmpty then slashes
  else slashes ++ ' ' :: kept

/-- The rows of a comment. -/
def commentRows (text : List Char) : List (List Char) :=
  match linesOf text with
  | [] => [slashes]
  | lines => lines.map commentRow

section Blanks

variable {text line : List Char} {c : Char}

/-- The last character of a text without white space at its end is not white space. -/
theorem isBlank_of_mem_getLast? (h : c ∈ (dropBlanksBack text).getLast?) : isBlank c = false := by
  obtain ⟨hne, rfl⟩ := List.mem_getLast?_eq_getLast h
  exact Bool.eq_false_iff.mpr (List.rdropWhile_last_not isBlank text hne)

/-- A text that does not end with white space is kept. -/
theorem dropBlanksBack_of_getLast? (h : ∀ c ∈ text.getLast?, isBlank c = false) :
    dropBlanksBack text = text :=
  List.rdropWhile_eq_self_iff.mpr fun hne =>
    Bool.eq_false_iff.mp (h _ (List.getLast_mem_getLast? hne))

/-- Nothing is left of white space alone. -/
theorem dropBlanksBack_eq_nil_iff : dropBlanksBack text = [] ↔ ∀ c ∈ text, isBlank c = true :=
  List.rdropWhile_eq_nil_iff

/-- A text without the white space at its end is the start of the text. -/
theorem prefix_dropBlanksBack (text : List Char) : dropBlanksBack text <+: text :=
  List.rdropWhile_prefix isBlank text

/-- In front of a character that is no white space nothing is removed. -/
theorem dropBlanksBack_append_cons (h : isBlank c = false) (front rest : List Char) :
    dropBlanksBack (front ++ c :: rest) = front ++ c :: dropBlanksBack rest := by
  have hback : ∀ text, dropBlanksBack text = text.rdropWhile isBlank := fun _ => rfl
  induction rest using List.reverseRecOn with
  | nil => rw [hback, hback, List.rdropWhile_concat_neg _ _ _ (by simp [h]), List.rdropWhile_nil]
  | append_singleton rest last ih =>
    rw [hback, hback] at ih
    rw [← List.cons_append, ← List.append_assoc, hback, hback, List.rdropWhile_concat,
      List.rdropWhile_concat, ih]
    split <;> simp

/-- White space may be removed on either side first. -/
theorem dropBlanks_eq (line : List Char) :
    dropBlanks line = dropBlanksBack (dropBlanksFront line) := by
  have hwhole : line.takeWhile isBlank ++ dropBlanksFront line = line :=
    List.takeWhile_append_dropWhile
  have hhead := List.head?_dropWhile_not isBlank line
  rw [← dropBlanksFront] at hhead
  cases hstart : dropBlanksFront line with
  | nil =>
    have hblank : ∀ c ∈ line, isBlank c = true := List.dropWhile_eq_nil_iff.mp hstart
    rw [dropBlanks, dropBlanksBack_eq_nil_iff.mpr hblank]
    rfl
  | cons c rest =>
    rw [hstart] at hwhole hhead
    have hc : isBlank c = false := hhead
    have hfront : ∀ x ∈ line.takeWhile isBlank, isBlank x = true :=
      fun _ => List.mem_takeWhile_imp
    have hrest : dropBlanksBack (c :: rest) = c :: dropBlanksBack rest :=
      dropBlanksBack_append_cons hc [] rest
    rw [dropBlanks, ← hwhole, dropBlanksBack_append_cons hc, hrest, dropBlanksFront,
      List.dropWhile_append_of_pos hfront, List.dropWhile_cons_of_neg (by simp [hc])]

/-- Slashes at the start of a text are not lost with the white space at its end. -/
theorem slashes_prefix_dropBlanksBack : slashes <+: dropBlanksBack text ↔ slashes <+: text := by
  refine ⟨fun h => h.trans (prefix_dropBlanksBack text), ?_⟩
  rintro ⟨rest, rfl⟩
  have hkept := dropBlanksBack_append_cons (c := '/') (by decide) ['/'] rest
  exact ⟨dropBlanksBack rest, hkept.symm⟩

end Blanks

section Lines

variable {begun line text rest : List Char}

/-- Characters that do not end a line go on with it. -/
theorem splitLines_append (h : '\n' ∉ line) (begun rest : List Char) :
    splitLines begun (line ++ rest) = splitLines (line.reverse ++ begun) rest := by
  induction line generalizing begun with
  | nil => rfl
  | cons c line ih =>
    obtain ⟨hc, hline⟩ := not_or.mp (List.mem_cons.not.mp h)
    rw [List.cons_append, splitLines, ih hline, List.reverse_cons, List.append_assoc,
      List.singleton_append]
    exact fun he => hc he.symm

/-- The characters of a line that is closed are those that were split off for it. -/
theorem mem_of_mem_closeLine {c : Char} (h : c ∈ closeLine begun) : c ∈ begun := by
  unfold closeLine at h
  split at h
  · exact List.mem_cons_of_mem _ (List.mem_reverse.mp h)
  · exact List.mem_reverse.mp h

/-- No line holds a line end. -/
theorem unbroken_of_mem_splitLines (hbegun : '\n' ∉ begun) (h : line ∈ splitLines begun text) :
    '\n' ∉ line := by
  fun_induction splitLines begun text with
  | case1 => cases h
  | case2 begun _ =>
    rw [List.mem_singleton.mp h, List.mem_reverse]
    exact hbegun
  | case3 begun rest ih =>
    rcases List.mem_cons.mp h with rfl | h
    · exact fun hm => hbegun (mem_of_mem_closeLine hm)
    · exact ih List.not_mem_nil h
  | case4 begun c rest hc ih =>
    refine ih (fun hm => ?_) h
    rcases List.mem_cons.mp hm with rfl | hm
    · exact hc rfl
    · exact hbegun hm

-- A carriage return belongs to the line end only in front of a line feed.
example : linesOf "a\r\nb\r".toList = ["a".toList, "b\r".toList] := by decide

/-- Only the empty text has no lines. -/
theorem splitLines_eq_nil_iff : splitLines begun text = [] ↔ begun = [] ∧ text = [] := by
  fun_induction splitLines begun text with
  | case1 => simp
  | case2 begun hbegun => simpa using hbegun
  | case3 => simp
  | case4 begun c rest _ ih => simp [ih]

/-- A line that does not end with white space is closed as it is. -/
theorem closeLine_reverse (h : ∀ c ∈ line.getLast?, isBlank c = false) :
    closeLine line.reverse = line := by
  unfold closeLine
  split
  next rest hreverse =>
    have hlast : '\r' ∈ line.getLast? := by rw [← List.head?_reverse, hreverse]; rfl
    exact absurd (h _ hlast) (by decide)
  next => exact List.reverse_reverse line

end Lines

section Rows

variable {line row : List Char} {rows : List (List Char)}

/-- A comment shows its lines as it is said to. -/
theorem shownAs_commentRow (line : List Char) : ShownAs line (commentRow line) := by
  have hopens : slashes.isPrefixOf (dropBlanksFront (dropBlanksBack line)) = true ↔
      slashes <+: dropBlanksFront line := by
    rw [List.isPrefixOf_iff_prefix, ← dropBlanks, dropBlanks_eq, slashes_prefix_dropBlanksBack]
  unfold commentRow
  dsimp only
  split
  next h => exact .kept (hopens.mp h)
  next h =>
    split
    next hempty => exact .blank (dropBlanksBack_eq_nil_iff.mp (List.isEmpty_iff.mp hempty))
    next hempty =>
      refine .put (fun hkept => h (hopens.mpr hkept)) ?_
      by_contra hblank
      refine hempty (List.isEmpty_iff.mpr (dropBlanksBack_eq_nil_iff.mpr fun c hc => ?_))
      by_contra hfalse
      exact hblank ⟨c, hc, Bool.eq_false_iff.mpr hfalse⟩

/-- The slashes alone are a comment. -/
theorem commentRow_slashes : CommentRow slashes where
  opens := List.prefix_rfl
  unbroken := by decide
  trimmed := by
    rintro c ⟨⟩
    rfl

/-- What shows a line is a comment of its own. -/
theorem ShownAs.commentRow (h : ShownAs line row) (hline : '\n' ∉ line) : CommentRow row := by
  have hkept : '\n' ∉ dropBlanksBack line :=
    fun hm => hline ((prefix_dropBlanksBack line).subset hm)
  cases h with
  | kept hopens =>
    refine ⟨?_, fun hm => hkept ((List.dropWhile_suffix _).subset hm), ?_⟩
    · rw [dropBlanks_eq]
      exact slashes_prefix_dropBlanksBack.mpr hopens
    · rw [dropBlanks_eq]
      exact fun _ => isBlank_of_mem_getLast?
  | put _ hsome =>
    refine ⟨List.prefix_append .., ?_, ?_⟩
    · simpa [slashes] using hkept
    · have hne : dropBlanksBack line ≠ [] := by
        intro hempty
        obtain ⟨c, hc, hfalse⟩ := hsome
        rw [dropBlanksBack_eq_nil_iff.mp hempty c hc] at hfalse
        cases hfalse
      rw [List.getLast?_append_of_ne_nil _ (List.cons_ne_nil _ _), List.getLast?_cons_of_ne_nil hne]
      exact fun _ => isBlank_of_mem_getLast?
  | blank _ => exact commentRow_slashes

/-- A row that is a comment is shown as it is. -/
theorem CommentRow.commentRow_eq (h : CommentRow row) : Text.commentRow row = row := by
  have hback : dropBlanksBack row = row := dropBlanksBack_of_getLast? h.trimmed
  have hfront : dropBlanksFront row = row := by
    obtain ⟨rest, rfl⟩ := h.opens
    rfl
  have hopens : slashes.isPrefixOf row = true := List.isPrefixOf_iff_prefix.mpr h.opens
  rw [Text.commentRow, hback, hfront, if_pos hopens]

/-- Rows that are comments are the lines of the text that they make up. -/
theorem linesOf_intercalate (hne : rows ≠ []) (h : ∀ row ∈ rows, CommentRow row) :
    linesOf (['\n'].intercalate rows) = rows := by
  induction rows with
  | nil => exact absurd rfl hne
  | cons row rows ih =>
    obtain ⟨hrow, hrows⟩ := List.forall_mem_cons.mp h
    cases rows with
    | nil =>
      have hlast : row.reverse ≠ [] := by
        obtain ⟨rest, rfl⟩ := hrow.opens
        simp [slashes]
      have hsplit := splitLines_append hrow.unbroken [] []
      rw [List.append_nil, List.append_nil] at hsplit
      rw [List.intercalate_singleton, linesOf, hsplit, splitLines, List.reverse_reverse]
      exact hlast
    | cons next rows =>
      have hrest := ih (List.cons_ne_nil next rows) hrows
      rw [List.intercalate_cons_cons, linesOf, List.append_assoc,
        splitLines_append hrow.unbroken, List.append_nil, List.singleton_append, splitLines,
        closeLine_reverse hrow.trimmed, ← linesOf, hrest]

/-- A comment whose text is made up of comments shows them again. -/
theorem commentRows_intercalate (hne : rows ≠ []) (h : ∀ row ∈ rows, CommentRow row) :
    commentRows (['\n'].intercalate rows) = rows := by
  have hrows : rows.map commentRow = rows := by
    conv_rhs => rw [← List.map_id rows]
    exact List.map_congr_left fun row hrow => (h row hrow).commentRow_eq
  rw [commentRows, linesOf_intercalate hne h]
  split
  next => exact absurd rfl hne
  next => exact hrows

/-- How a comment is written: each line of its text has a row, and there is one row at
least. -/
structure CommentRows (text : List Char) (rows : List (List Char)) : Prop where
  /-- There are as many rows as lines, but never none. -/
  count : rows.length = max 1 (linesOf text).length
  /-- No row goes on outside of the comment. -/
  comments : ∀ row ∈ rows, CommentRow row
  /-- The rows show the lines, in order. -/
  shown : linesOf text ≠ [] → List.Forall₂ ShownAs (linesOf text) rows

/-- The rows of a comment are as they are said to be. -/
theorem commentRows_spec (text : List Char) : CommentRows text (commentRows text) := by
  have hline : ∀ line ∈ linesOf text, CommentRow (commentRow line) := fun line hl =>
    (shownAs_commentRow line).commentRow (unbroken_of_mem_splitLines List.not_mem_nil hl)
  unfold commentRows
  split
  next hnone =>
    refine ⟨by rw [hnone]; rfl, fun row hrow => ?_, fun hsome => absurd hnone hsome⟩
    rw [List.mem_singleton.mp hrow]
    exact commentRow_slashes
  next lines hsome =>
    refine ⟨?_, List.forall_mem_map.mpr hline, fun _ => ?_⟩
    · have hlength : 0 < (linesOf text).length := List.length_pos_iff.mpr hsome
      rw [List.length_map]
      omega
    · rw [List.forall₂_map_right_iff, List.forall₂_same]
      exact fun line _ => shownAs_commentRow line

/-- There is a row. -/
theorem CommentRows.ne_nil {text : List Char} (h : CommentRows text rows) : rows ≠ [] := by
  rintro rfl
  have hcount := h.count
  rw [List.length_nil] at hcount
  omega

end Rows

end Text

/-- At the left margin a row is its text. -/
theorem Row.source_zero (text unit : String) : (Row.mk 0 text).source unit = text := by
  unfold Row.source
  split
  next hempty => exact hempty.symm
  next => simp [indentation]

/-- The rows of a page. -/
def Page.rows (p : Page) : List Row := p.above ++ [p.last]

namespace Layout

/-- Flat layouts behind line ends become rows of their own. -/
theorem rows_write_lines {ls : List Layout} (h : ∀ l ∈ ls, Flat l) (level : Nat) (p : Page) :
    (write level (ls.flatMap fun l => newline ++ l) p).rows =
      p.rows ++ ls.map fun l => ⟨level, String.ofList l.chars⟩ := by
  induction ls generalizing p with
  | nil => simp [write]
  | cons l ls ih =>
    obtain ⟨hl, hls⟩ := List.forall_mem_cons.mp h
    have hrow : write level (newline ++ l) p = ⟨p.rows, ⟨level, String.ofList l.chars⟩⟩ := by
      rw [write_append, hl.write_eq]
      simp [write, newline, Stroke.write, Page.rows]
    rw [List.flatMap_cons, write_append, ih hls, hrow]
    simp [Page.rows]

/-- Flat layouts with line ends between them become rows. -/
theorem rows_write_separated {l : Layout} {ls : List Layout} (h : ∀ m ∈ l :: ls, Flat m)
    (level : Nat) : (write level (separated newline (l :: ls)) (Page.blank level)).rows =
      (l :: ls).map fun m => ⟨level, String.ofList m.chars⟩ := by
  obtain ⟨hl, hls⟩ := List.forall_mem_cons.mp h
  rw [separated, write_append, rows_write_lines hls, hl.write_eq]
  simp [Page.rows, Page.blank]

/-- A line of a comment is flat and spells its row. -/
theorem commentLine_spec (line : List Char) :
    Flat (commentLine line) ∧ chars (commentLine line) = Text.commentRow line := by
  unfold commentLine Text.commentRow
  dsimp only
  rw [← Text.slashes]
  split
  · simp
  · split <;> simp [Text.slashes]

/-- A comment becomes its rows. -/
theorem rows_write_comment (text : String) (level : Nat) :
    (write level (comment text) (Page.blank level)).rows =
      (Text.commentRows text.toList).map fun row => ⟨level, String.ofList row⟩ := by
  unfold comment Text.commentRows
  split
  next hempty =>
    rw [String.isEmpty_iff.mp hempty]
    rfl
  next hempty =>
    have hne : Text.linesOf text.toList ≠ [] := fun hnone =>
      hempty (by simpa using (Text.splitLines_eq_nil_iff.mp hnone).2)
    cases hlines : Text.linesOf text.toList with
    | nil => exact absurd hlines hne
    | cons line lines =>
      have hflat : ∀ m ∈ (line :: lines).map commentLine, Flat m :=
        List.forall_mem_map.mpr fun line _ => (commentLine_spec line).1
      rw [List.map_cons, rows_write_separated hflat, ← List.map_cons, List.map_map, List.map_map]
      exact List.map_congr_left fun line _ =>
        congrArg (fun row => Row.mk level (String.ofList row)) (commentLine_spec line).2

/-- At the left margin a comment is its rows with line ends between them. -/
theorem source_comment (text unit : String) :
    ((comment text).source unit).toList = ['\n'].intercalate (Text.commentRows text.toList) := by
  have hsource : ∀ row : List Char, ((Row.mk 0 (String.ofList row)).source unit).toList = row :=
    fun row => by rw [Row.source_zero, String.toList_ofList]
  rw [source, Page.source, ← Page.rows, rows_write_comment, String.toList_intercalate, List.map_map,
    List.map_map]
  simp only [Function.comp_def, hsource, List.map_id']
  rfl

end Layout

/-- The rows of the page of a buffer are its lines. -/
theorem Buffer.rows_page (b : Buffer) : b.page.rows = b.lines.map Line.row := by
  simp [Buffer.page, Page.rows, Buffer.lines]

namespace Request

variable {ast : Ast} {options : Options} {id : NodeId} {node : Node} {text : String}

/-- The first node of a traversal is let in, unless no path may be that long. -/
theorem gate_first (hn : ast.node? id = some node) (hdepth : 0 < options.maxDepth) :
    (Request.standard ast options).gate true id {} = .ok (some (node, .standard node.tag)) := by
  simp [gate, Request.standard, hn, Nat.not_le_of_lt hdepth, Registry.standard, Visitor.standard,
    Guard.admits]

/-- A comment that is let in is entered, and writes its text and nothing else. -/
theorem render_comment {first : Bool} {visitor : Visitor} {p : Progress}
    (hgate : (Request.standard ast options).gate first id p = .ok (some (node, visitor)))
    (hc : node.construct = .commentStatement text) (hnone : node.children = [])
    (limit indent : Nat) :
    ∃ b p', (Request.standard ast options).render (limit + 1) first id indent p =
        .ok (some b) p' ∧
      (Buffer.ofNode id indent options.indent).Extends (Layout.comment text) b := by
  have ha := admits_of_gate hgate
  have hn : ast.node? id = some node := ha.found
  obtain rfl : visitor = .standard node.tag := (Option.some.inj ha.supported).symm
  have hchildren : ast.children id = [] := (Ast.children_of_node hn).trans hnone
  -- nothing lies below the comment but the comment
  have hbare : ast.BareHeads id := by
    intro x found hr hfound _
    rcases hr.cases_head with rfl | ⟨c, hl, _⟩
    · rw [Option.some.inj (hfound.symm.trans hn), hnone]
    · rw [Ast.Links, hchildren] at hl
      cases hl
  have hfits : ast.Fits id := by
    intro found hfound
    rw [Option.some.inj (hfound.symm.trans hn), hc, hnone]
    rfl
  have hcalls : ((Request.standard ast options).render limit false).Prints options.indent
      node.children (fun _ => ⟨.commentStatement, []⟩) (Within ast id p) := by
    intro done c rest hsplit
    rw [hnone] at hsplit
    simp at hsplit
  obtain ⟨b, p', henter, _, _, hext⟩ := enter_prints hbare .refl hn hfits hcalls
    (by simp [hnone]) indent
  rw [hc] at hext
  refine ⟨b, p', ?_, hext⟩
  simp only [render, hgate]
  exact henter

end Request

/-- The root of the graph is a comment with this text and without children. -/
def Ast.IsComment (ast : Ast) (text : String) : Prop :=
  ∃ root node, ast.root = some root ∧ ast.node? root = some node ∧
    node.construct = .commentStatement text ∧ node.children = []

namespace Generator

/-- The text of a comment is its rows with line ends between them. -/
theorem generate_comment {ast : Ast} {text : String} (h : ast.IsComment text) {options : Options}
    (hdepth : 0 < options.maxDepth) : ∃ source,
      Generator.generate ⟨.standard, options⟩ ast = .ok source ∧
        source.toList = ['\n'].intercalate (Text.commentRows text.toList) := by
  obtain ⟨root, node, hroot, hn, hc, hnone⟩ := h
  obtain ⟨b, p', hrender, hext⟩ :=
    Request.render_comment (Request.gate_first hn hdepth) hc hnone ast.size 0
  refine ⟨b.source, ?_, ?_⟩
  · rw [generate_eq options hroot, Request.run_of_render hrender]
  · rw [hext.source_eq, Layout.source_comment]

/-- **Comments stay comments.** Wherever a comment is let in, it is written, with one line for
each line of its text and at least one, all of them at the level of the place. No line leaves
the comment: each begins with slashes, holds no line end and does not end with white space. A
line of the text that begins like a comment is kept without the white space around it, and any
other is put behind slashes. A graph whose root is the comment has these lines as its text, and
a comment with that text has the same text again. -/
theorem comment_stays_comment (text : String) (options : Options) :
    (∀ (ast : Ast) first id indent p node visitor limit,
      (Request.standard ast options).gate first id p = .ok (some (node, visitor)) →
      node.construct = .commentStatement text → node.children = [] →
        ∃ b p', (Request.standard ast options).render (limit + 1) first id indent p =
            .ok (some b) p' ∧
          (∀ line ∈ b.lines, line.indent = indent) ∧
          Text.CommentRows text.toList (b.lines.map fun line => line.row.text.toList)) ∧
    ∀ ast : Ast, ast.IsComment text → 0 < options.maxDepth → ∃ rows source,
      Text.CommentRows text.toList rows ∧ source.toList = ['\n'].intercalate rows ∧
        Generator.generate ⟨.standard, options⟩ ast = .ok source ∧
        ∀ (again : Ast) (options' : Options), again.IsComment source → 0 < options'.maxDepth →
          Generator.generate ⟨.standard, options'⟩ again = .ok source := by
  have hspec := Text.commentRows_spec text.toList
  refine ⟨?_, ?_⟩
  · intro ast first id indent p node visitor limit hgate hc hnone
    obtain ⟨b, p', hrender, hext⟩ := Request.render_comment hgate hc hnone limit indent
    have hlines : b.lines.map Line.row =
        (Text.commentRows text.toList).map fun row => ⟨indent, String.ofList row⟩ := by
      rw [← Buffer.rows_page, hext.page (Buffer.tidy_ofNode id indent options.indent)]
      exact Layout.rows_write_comment text indent
    refine ⟨b, p', hrender, fun line hl => ?_, ?_⟩
    · have hrow := List.mem_map_of_mem (f := Line.row) hl
      rw [hlines] at hrow
      obtain ⟨row, _, hrow⟩ := List.mem_map.mp hrow
      exact (congrArg Row.level hrow).symm
    · have htexts := congrArg (List.map fun row : Row => row.text.toList) hlines
      rw [List.map_map, List.map_map] at htexts
      simp only [Function.comp_def, String.toList_ofList, List.map_id'] at htexts
      rw [htexts]
      exact hspec
  · intro ast hcomment hdepth
    obtain ⟨source, hgenerate, hsource⟩ := generate_comment hcomment hdepth
    refine ⟨_, source, hspec, hsource, hgenerate, fun again options' hagain hdepth' => ?_⟩
    obtain ⟨source', hgenerate', hsource'⟩ := generate_comment hagain hdepth'
    rw [hsource, Text.commentRows_intercalate hspec.ne_nil hspec.comments, ← hsource,
      String.toList_inj] at hsource'
    rw [hgenerate', hsource']

/-- A graph of one comment. -/
def commentAlone (text : String) : Ast where
  nodes := #[{ construct := .commentStatement text }]
  root := some ⟨0⟩

/-- The graph of one comment is one. -/
theorem commentAlone_isComment (text : String) : (commentAlone text).IsComment text :=
  ⟨⟨0⟩, { construct := .commentStatement text }, rfl, rfl, rfl, rfl⟩

/-- Line ends of both kinds, a line that begins like a comment, and a blank line. -/
def mixedLines : String := "a \r\n\t//b \n \n"

/-- A text of three lines, one kept, one put behind slashes and one blank. -/
theorem comment_stays_comment_mixedLines :
    (∃ b p', (Request.standard (commentAlone mixedLines) {}).render 1 true ⟨0⟩ 3 {} =
        .ok (some b) p' ∧ b.lines.length = 3) ∧
      Generator.generate {} (commentAlone mixedLines) = .ok "// a\n//b\n//" ∧
      Generator.generate {} (commentAlone "// a\n//b\n//") = .ok "// a\n//b\n//" := by
  have hlines : (Text.linesOf mixedLines.toList).length = 3 := by decide
  have hshown : Generator.generate {} (commentAlone mixedLines) = .ok "// a\n//b\n//" := by
    decide +kernel
  obtain ⟨hplace, hroot⟩ := comment_stays_comment mixedLines {}
  obtain ⟨b, p', hrender, _, hrows⟩ := hplace (commentAlone mixedLines) true ⟨0⟩ 3 {}
    { construct := .commentStatement mixedLines } (.standard .commentStatement) 0
    (Request.gate_first rfl (by decide)) rfl rfl
  obtain ⟨rows, source, _, _, hfirst, hagain⟩ :=
    hroot (commentAlone mixedLines) (commentAlone_isComment mixedLines) (by decide)
  have hsource : source = "// a\n//b\n//" := Except.ok.inj (hfirst.symm.trans hshown)
  rw [hsource] at hagain
  refine ⟨⟨b, p', hrender, ?_⟩, hshown, hagain _ {} (commentAlone_isComment _) (by decide)⟩
  have hcount := hrows.count
  rw [List.length_map, hlines] at hcount
  exact hcount

end Generator

end SourceScribe
