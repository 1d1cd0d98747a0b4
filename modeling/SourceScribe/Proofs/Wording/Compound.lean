import SourceScribe.Grammar.Compound
import SourceScribe.Proofs.Wording.Declarations

/-!
# The rules for compound statements and the printer

The rules for statements that are made of clauses, and for the clauses, realize
their constructs.
-/

namespace SourceScribe.Grammar

open Script Layout

theorem realizes_clauseSequence {c : Construct} {rules : List ClauseRule}
    (hd : ClauseRule.Distinct rules) (hc : ∀ tags, c.Accepts tags ↔ ClauseRule.Follows rules tags)
    (hl : ∀ o kids, c.layout o kids = Layout.clauses kids) :
    Rule.Realizes (fun s => clauseSequence s rules) c where
  clean h := by
    rw [hc]
    exact clean_clauses hd h.knows (by simp)
  layout h ha := by
    rw [hc] at ha
    rw [clauseSequence, layout?_clauses hd h.knows ha]
    simp [hl, Layout.clauses]

theorem realizes_conditionalClause {c : Construct} (word : String)
    (hc : ∀ tags, c.Accepts tags ↔ tags ≠ [])
    (hl : ∀ o kids, c.layout o kids = Layout.conditional word kids) :
    Rule.Realizes (conditionalClause word) c where
  clean {s kid} _ := by
    have hfirst : Clean (firstOf s "condition" fun condition rest =>
        [.required "condition" condition, .text ") "] ++ Script.block rest) ↔
          s.children ≠ [] ∧ True := clean_firstOf (by simp)
    simp only [conditionalClause, hc, clean_append, clean_texts, true_and, hfirst, and_true, ne_eq,
      List.map_eq_nil_iff]
  layout {s kid} _ ha := by
    rw [hc, ne_eq, List.map_eq_nil_iff] at ha
    obtain ⟨condition, rest, hs⟩ := List.exists_cons_of_ne_nil ha
    simp [conditionalClause, hs, hl, Layout.conditional, firstOf, Kid.inline]

theorem realizes_plainClause {c : Construct} (word : String) (hc : ∀ tags, c.Accepts tags)
    (hl : ∀ o kids, c.layout o kids = Layout.plainClause word kids) :
    Rule.Realizes (plainClause word) c where
  clean _ := by simp [Grammar.plainClause, hc]
  layout _ _ := by simp [Grammar.plainClause, hl, Layout.plainClause]

theorem realizes_catchStatement (type name : String) :
    Rule.Realizes catchStatement (.catchStatement type name) where
  clean h := by simp [catchStatement, h.construct, Construct.Accepts, Text.Name.Typed]
  layout h ha := by
    have htyped : Text.Name.Typed type name := ha
    simp [catchStatement, h.construct, htyped, Construct.layout]

/-- The workers of a fork lead its clauses. -/
theorem forkWorkers_map {s : Setting} {kid : NodeId → Kid} (hk : s.Knows kid)
    (hf : ClauseRule.Follows forkJoinClauses (s.children.map (Kid.tag ∘ kid))) :
    (forkWorkers s).map kid = Kid.ofKind .workerDeclaration (s.children.map kid) ∧
      (forkRest s).map kid =
        (s.children.map kid).filter fun k => k.tag ≠ .workerDeclaration := by
  have hp : ∀ id ∈ s.children, (s.tag? id == some .workerDeclaration) =
      decide ((kid id).tag = .workerDeclaration) := by
    intro id hid
    rw [hk id hid]
    rfl
  obtain ⟨hworkers, hothers⟩ := forkWorkers_eq_filter ((ClauseRule.obeys_iff_follows hk).mpr hf)
  rw [hworkers, hothers, Kid.ofKind, List.filter_map, List.filter_map]
  constructor
  · congr 1
    exact List.filter_congr hp
  · congr 1
    refine List.filter_congr fun id hid => ?_
    rw [hp id hid]
    simp

theorem realizes_forkJoinStatement : Rule.Realizes forkJoinStatement .forkJoinStatement where
  clean h := clean_clauses (by decide) h.knows (by simp)
  layout h ha := by
    obtain ⟨hworkers, hrest⟩ := forkWorkers_map h.knows ha
    rw [forkJoinStatement, layout?_clauses (by decide) h.knows ha]
    simp [hworkers, hrest, Construct.layout]

theorem realizes_joinStatement (condition type name : String) :
    Rule.Realizes joinStatement (.joinStatement condition type name) where
  clean h := by
    simp [joinStatement, h.construct, Construct.Accepts, Text.Name.Typed]
  layout h ha := by
    obtain ⟨hcondition, htyped⟩ := ha
    simp [joinStatement, h.construct, hcondition, htyped, Construct.layout]

theorem realizes_timeoutStatement (type name : String) :
    Rule.Realizes timeoutStatement (.timeoutStatement type name) where
  clean {s kid} h := by
    simp only [timeoutStatement, h.construct, Construct.Accepts, ne_eq, List.map_eq_nil_iff]
    refine clean_firstOf fun timeout rest => ?_
    simp [Text.Name.Typed]
  layout {s kid} h ha := by
    obtain ⟨hsome, htyped⟩ := ha
    rw [ne_eq, List.map_eq_nil_iff] at hsome
    obtain ⟨timeout, rest, hs⟩ := List.exists_cons_of_ne_nil hsome
    simp [timeoutStatement, h.construct, htyped, hs, Construct.layout, firstOf, Kid.inline]

end SourceScribe.Grammar
