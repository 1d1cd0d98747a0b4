import SourceScribe.Proofs.Coverage
import SourceScribe.Proofs.Wording.Declarations

/-!
# The rules for simple statements and the printer

The rules for statements that are not made of clauses realize their constructs.
-/

namespace SourceScribe.Grammar

open Script Layout

theorem realizes_variableDefinitionStatement (type name : String) :
    Rule.Realizes variableDefinitionStatement (.variableDefinitionStatement type name) where
  clean h := by
    simp [variableDefinitionStatement, h.construct, Construct.Accepts, clean_variableText]
  layout h ha := by
    obtain ⟨hle, htyped⟩ := ha
    rw [List.length_map] at hle
    simp only [variableDefinitionStatement, h.construct, Construct.layout]
    exact layout?_variableText hle htyped

theorem realizes_assignmentStatement : Rule.Realizes assignmentStatement .assignmentStatement where
  clean {s kid} _ := by
    simp only [assignmentStatement, Construct.Accepts, List.length_map]
    rcases List.eq_nil_or_concat s.children with hs | ⟨targets, value, hs⟩
    · simp [hs]
    · rw [List.concat_eq_append] at hs
      simp only [hs, List.getLast?_concat, List.dropLast_concat]
      cases targets <;> simp
  layout {s kid} _ ha := by
    simp only [Construct.Accepts, List.length_map] at ha
    simp only [assignmentStatement, Construct.layout]
    rcases List.eq_nil_or_concat s.children with hs | ⟨targets, value, hs⟩
    · simp [hs] at ha
    · rw [List.concat_eq_append] at hs
      have hsome : targets ≠ [] := by
        rintro rfl
        simp [hs] at ha
      simp only [hs, List.getLast?_concat, List.dropLast_concat, List.map_append, List.map_cons,
        List.map_nil]
      simp [hsome, Kid.inline, Layout.listed]

theorem realizes_expressionStatement : Rule.Realizes expressionStatement .expressionStatement where
  clean _ := by simp [expressionStatement, Construct.Accepts]
  layout _ ha := by
    simp only [Construct.Accepts, List.length_map] at ha
    simp [expressionStatement, ha, Construct.layout]

theorem realizes_returnStatement : Rule.Realizes returnStatement .returnStatement where
  clean {s kid} _ := by
    simp only [returnStatement, Construct.Accepts]
    split <;> simp
  layout {s kid} _ _ := by
    simp only [returnStatement, Construct.layout, List.isEmpty_map]
    split <;> simp [Layout.listed]

theorem realizes_keywordStatement {c : Construct} (word : String)
    (hc : ∀ tags, c.Accepts tags ↔ tags.length = 1)
    (hl : ∀ o kids, c.layout o kids = Layout.keyword word kids) :
    Rule.Realizes (keywordStatement word) c where
  clean _ := by simp [keywordStatement, hc]
  layout _ ha := by
    rw [hc, List.length_map] at ha
    simp [keywordStatement, ha, hl, Layout.keyword]

theorem realizes_bareStatement {c : Construct} (word : String)
    (hc : ∀ tags, c.Accepts tags ↔ tags = [])
    (hl : ∀ o kids, c.layout o kids = str word ++ str ";") :
    Rule.Realizes (bareStatement word) c where
  clean _ := by simp [bareStatement, hc]
  layout _ ha := by
    rw [hc, List.map_eq_nil_iff] at ha
    simp [bareStatement, ha, hl]

/-- A line of a comment. -/
theorem layout?_commentLine {blankLines : Bool} {kid : NodeId → Kid} (line : List Char) :
    layout? blankLines kid (commentLine line) = some (Layout.commentLine line) := by
  unfold Grammar.commentLine Layout.commentLine
  dsimp only
  split
  · simp
  · split <;> simp

/-- The lines of a comment with line ends between them. -/
theorem layout?_commentLines {blankLines : Bool} {kid : NodeId → Kid} (lines : List (List Char)) :
    layout? blankLines kid (commentLines lines) =
      some (Layout.separated .newline (lines.map Layout.commentLine)) := by
  cases lines with
  | nil => rfl
  | cons line rest =>
    have hrest : layout? blankLines kid (rest.flatMap fun l => .newline :: Grammar.commentLine l) =
        some (rest.flatMap fun l => Layout.newline ++ Layout.commentLine l) :=
      layout?_flatMap fun l _ => by simp [layout?_commentLine]
    simp [commentLines, hrest, layout?_commentLine, Layout.separated, List.flatMap_map]

theorem realizes_commentStatement (text : String) :
    Rule.Realizes commentStatement (.commentStatement text) where
  clean h := by
    simp only [commentStatement, h.construct, Construct.Accepts]
    split <;> simp [clean_commentLines]
  layout h ha := by
    have hnone : _ = [] := List.map_eq_nil_iff.mp ha
    simp only [commentStatement, h.construct, Construct.layout, Layout.comment]
    by_cases ht : text.isEmpty = true
    · have hlines : Text.linesOf text.toList = [] := by
        rw [String.isEmpty_iff.mp ht]
        rfl
      simp [ht, hnone, hlines, commentLines]
    · simp [ht, hnone, layout?_commentLines]

theorem realizes_workerInteraction {c : Construct} (arrow worker : String)
    (hw : c = .workerInvocationStatement worker ∨ c = .workerReplyStatement worker)
    (hl : ∀ o kids, c.layout o kids = Layout.interaction arrow worker kids) :
    Rule.Realizes (workerInteraction arrow) c where
  clean h := by
    have hc := h.construct
    rcases hw with rfl | rfl <;>
      simp [workerInteraction, hc, Construct.Accepts]
  layout h ha := by
    have hc := h.construct
    rw [hl]
    rcases hw with rfl | rfl
    · obtain ⟨hsome, hname⟩ := ha
      rw [ne_eq, List.map_eq_nil_iff] at hsome
      simp [workerInteraction, hc, hsome, hname, Layout.interaction, Layout.listed]
    · obtain ⟨hsome, hname⟩ := ha
      rw [ne_eq, List.map_eq_nil_iff] at hsome
      simp [workerInteraction, hc, hsome, hname, Layout.interaction, Layout.listed]

theorem realizes_blockStatement : Rule.Realizes blockStatement .blockStatement where
  clean _ := by simp [blockStatement, Construct.Accepts]
  layout _ _ := by simp [blockStatement, Construct.layout]

theorem realizes_transformStatement : Rule.Realizes transformStatement .transformStatement where
  clean _ := by simp [transformStatement, Construct.Accepts]
  layout _ _ := by simp [transformStatement, Construct.layout]

end SourceScribe.Grammar
