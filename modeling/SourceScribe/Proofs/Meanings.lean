import SourceScribe.Proofs.Clauses
import SourceScribe.Proofs.Printer
import SourceScribe.Proofs.Scripts
import SourceScribe.Proofs.Sections

/-!
# What scripts mean

When no child has been written before, a script means a layout: that of its
pieces one behind the other, with the layouts of the children in their places.
A script that rejects the node means nothing, and neither does one that tells
how far the traversal has come. For every combinator of which scripts are built
it is said here what it means and when it is clean.
-/

namespace SourceScribe

/-- The layout of a group of children. -/
def Arrangement.layout (blankLines : Bool) (kids : List Kid) : Arrangement → Layout
  | .separated separator => Layout.separated (Layout.str separator) (Kid.layouts kids)
  | .led text => kids.flatMap fun k => Layout.str text ++ k.layout
  | .followed text => kids.flatMap fun k => k.layout ++ Layout.str text
  | .lines => Layout.rows (Kid.layouts kids)
  | .members => Layout.rows (Kid.spaced blankLines kids)
  | .topLevel => Kid.topLevel blankLines kids

/-- The layout of a piece, if it means one. -/
def Piece.layout? (blankLines : Bool) (kid : NodeId → Kid) : Piece → Option Layout
  | .text value => some (.str value)
  | .newline => some .newline
  | .required _ child => some (kid child).layout
  | .group arrangement ids => some (arrangement.layout blankLines (ids.map kid))
  | .braced .lines ids => some (Layout.braces (Kid.layouts (ids.map kid)))
  | .braced .members ids => some (Layout.braces (Kid.spaced blankLines (ids.map kid)))
  | _ => none

attribute [simp] Arrangement.layout Piece.layout?

/-- The kinds of the children are those that are given for them. -/
def Setting.Knows (s : Setting) (kid : NodeId → Kid) : Prop :=
  ∀ child ∈ s.children, s.tag? child = some (kid child).tag

namespace Script

variable {blankLines : Bool} {kid : NodeId → Kid}

/-- The layout of a script, if it means one. -/
def layout? (blankLines : Bool) (kid : NodeId → Kid) : Script → Option Layout
  | [] => some []
  | p :: rest =>
    (p.layout? blankLines kid).bind fun l => (layout? blankLines kid rest).map (l ++ ·)

@[simp]
theorem layout?_nil : layout? blankLines kid [] = some [] := rfl

@[simp]
theorem layout?_cons (p : Piece) (s : Script) :
    layout? blankLines kid (p :: s) =
      (p.layout? blankLines kid).bind fun l => (layout? blankLines kid s).map (l ++ ·) := rfl

/-- Scripts one behind the other mean layouts one behind the other. -/
@[simp]
theorem layout?_append (s t : Script) :
    layout? blankLines kid (s ++ t) =
      (layout? blankLines kid s).bind fun l => (layout? blankLines kid t).map (l ++ ·) := by
  induction s with
  | nil => cases h : layout? blankLines kid t <;> simp [h]
  | cons p s ih =>
    rw [List.cons_append, layout?_cons, layout?_cons, ih]
    cases p.layout? blankLines kid <;> cases layout? blankLines kid s <;>
      cases layout? blankLines kid t <;> simp

/-- Scripts that are made for the members of a list mean layouts that are. -/
theorem layout?_flatMap {α : Type} {as : List α} {f : α → Script} {g : α → Layout}
    (h : ∀ a ∈ as, layout? blankLines kid (f a) = some (g a)) :
    layout? blankLines kid (as.flatMap f) = some (as.flatMap g) := by
  induction as with
  | nil => rfl
  | cons a as ih =>
    have hrest := ih fun b hb => h b (List.mem_cons_of_mem a hb)
    simp [h a List.mem_cons_self, hrest]

@[simp]
theorem layout?_texts (values : List String) :
    layout? blankLines kid (texts values) = some (values.flatMap Layout.str) := by
  induction values with
  | nil => rfl
  | cons value values ih =>
    change layout? blankLines kid (.text value :: texts values) = _
    simp [ih]

section Fragments

@[simp]
theorem layout?_demand {condition : Bool} {fault : Fault} (h : condition = true) :
    layout? blankLines kid (demand condition fault) = some [] := by
  rw [demand, if_pos h]
  rfl

@[simp]
theorem layout?_identifier {what value : String} (h : Text.Name.isIdentifier value = true) :
    layout? blankLines kid (identifier what value) = some (.str value) := by
  unfold identifier
  have hne : value.isEmpty = false := by
    by_contra he
    rw [Bool.not_eq_false, String.isEmpty_iff] at he
    rw [he, isIdentifier_empty] at h
    cases h
  simp [hne, h]

@[simp]
theorem layout?_typeName {value : String} (h : Text.Name.isTypeName value = true) :
    layout? blankLines kid (typeName value) = some (.str value) := by
  simp [typeName, h]

@[simp]
theorem layout?_qualified {package : Option String} {name : String}
    (h : Text.Name.Qualified package name) :
    layout? blankLines kid (qualified package name) = some (.qualified package name) := by
  obtain ⟨hp, hn⟩ := h
  cases package with
  | none => simp [qualified, hn, Layout.qualified]
  | some p => simp [qualified, hn, hp, Layout.qualified]

@[simp]
theorem layout?_typed {type what name : String} (h : Text.Name.Typed type name) :
    layout? blankLines kid (typed type what name) = some (.typed type name) := by
  simp [typed, h.1, h.2, Layout.typed]

@[simp]
theorem layout?_childless {s : Setting} (h : s.children = []) :
    layout? blankLines kid (childless s) = some [] := by
  simp [childless, h]

@[simp]
theorem layout?_arguments (s : Setting) :
    layout? blankLines kid (arguments s) = some (.arguments s.options (s.children.map kid)) := by
  simp [arguments, Layout.arguments]

@[simp]
theorem layout?_plain (ids : List NodeId) :
    layout? blankLines kid (plain ids) =
      some (Layout.separated (Layout.str "") (Kid.layouts (ids.map kid))) := by
  simp [plain]

@[simp]
theorem layout?_block (ids : List NodeId) :
    layout? blankLines kid (block ids) = some (.block (ids.map kid)) := by
  simp [block, Layout.block]

@[simp]
theorem layout?_memberBlock (ids : List NodeId) :
    layout? blankLines kid (memberBlock ids) =
      some (Layout.braces (Kid.spaced blankLines (ids.map kid))) := by
  simp [memberBlock]

@[simp]
theorem layout?_requiredAll (slot separator : String) (ids : List NodeId) :
    layout? blankLines kid (requiredAll slot separator ids) =
      some (Layout.separated (Layout.str separator) (Kid.layouts (ids.map kid))) := by
  cases ids with
  | nil => rfl
  | cons id ids =>
    have hrest : layout? blankLines kid
        (ids.flatMap fun c => [.text separator, .required slot c]) =
          some (ids.flatMap fun c => Layout.str separator ++ (kid c).layout) :=
      layout?_flatMap fun c _ => by simp
    simp [requiredAll, hrest, Layout.separated, Kid.layouts, List.flatMap_map]

end Fragments

section Children

variable {s : Setting}

@[simp]
theorem clean_operand {expected slot : String} :
    Clean (operand s expected slot) ↔ s.children.length = 1 := by
  unfold operand one
  split
  next child hs => simp [hs]
  next hs =>
    simp only [not_clean_fail, List.length_eq_one_iff, false_iff, not_exists]
    exact hs

@[simp]
theorem layout?_operand {expected slot : String} (h : s.children.length = 1) :
    layout? blankLines kid (operand s expected slot) =
      some (Kid.inline (s.children.map kid)) := by
  obtain ⟨child, hs⟩ := List.length_eq_one_iff.mp h
  simp [operand, one, hs, Kid.inline]

/-- A script for two children is clean when there are two and it is for them. -/
theorem clean_two {expected : String} {next : NodeId → NodeId → Script}
    (h : ∀ first second, Clean (next first second)) :
    Clean (two s expected next) ↔ s.children.length = 2 := by
  unfold two
  split
  next first second hs => simp [hs, h]
  next hs =>
    simp only [not_clean_fail, List.length_eq_two, false_iff, not_exists]
    exact hs

/-- A script for the first child and the others is clean when there is a child
and it is for them. -/
theorem clean_firstOf {what : String} {next : NodeId → List NodeId → Script} {P : Prop}
    (h : ∀ first rest, Clean (next first rest) ↔ P) :
    Clean (firstOf s what next) ↔ s.children ≠ [] ∧ P := by
  unfold firstOf
  split
  next first rest hs => simp [hs, h]
  next hs => simp [hs]

/-- Clauses are clean when they follow the rules. -/
theorem clean_clauses {rules : List ClauseRule} (hd : ClauseRule.Distinct rules)
    (hk : s.Knows kid) {next : Script} (hn : Clean next) :
    Clean (clauses s rules next) ↔
      ClauseRule.Follows rules (s.children.map (Kid.tag ∘ kid)) := by
  have hcheck : ClauseRule.check s.tag? rules s.children = .ok () ↔
      ClauseRule.Follows rules (s.children.map (Kid.tag ∘ kid)) := ClauseRule.check_eq_ok hd hk
  rw [← hcheck]
  unfold clauses checked
  split
  next h => simp [hn, h]
  next fault h => simp [h]

/-- Clauses that follow the rules mean what comes next. -/
theorem layout?_clauses {rules : List ClauseRule} (hd : ClauseRule.Distinct rules)
    (hk : s.Knows kid) {next : Script}
    (h : ClauseRule.Follows rules (s.children.map (Kid.tag ∘ kid))) :
    layout? blankLines kid (clauses s rules next) = layout? blankLines kid next := by
  have hcheck : ClauseRule.check s.tag? rules s.children = .ok () :=
    (ClauseRule.check_eq_ok hd hk).mpr h
  rw [clauses, hcheck]
  rfl

end Children

end Script

end SourceScribe
