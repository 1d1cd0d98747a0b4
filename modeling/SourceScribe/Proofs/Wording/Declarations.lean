import SourceScribe.Grammar.Declarations
import SourceScribe.Proofs.Definitions

/-!
# The rules for declarations and the printer

A rule realizes a construct when it rejects a node exactly if the construct does
not accept the kinds of its children, and otherwise means the layout that the
printer has for the construct. The rules for declarations and definitions do.
-/

namespace SourceScribe

/-- A setting shows a construct whose children are of given kinds. Packages and
imports are shown without children. -/
structure Setting.Shows (s : Setting) (kid : NodeId → Kid) (c : Construct) : Prop where
  /-- The construct of the node. -/
  construct : s.construct = c
  /-- The kinds of its children. -/
  knows : s.Knows kid
  /-- A package or an import has no children. -/
  bare : c.tag = .packageDeclaration ∨ c.tag = .importDeclaration → s.children = []

/-- A rule rejects a construct where it should, and means its layout elsewhere. -/
structure Rule.Realizes (rule : Rule) (c : Construct) : Prop where
  /-- The node is rejected unless the construct accepts its children. -/
  clean : ∀ {s : Setting} {kid : NodeId → Kid}, s.Shows kid c →
    (Script.Clean (rule s) ↔ c.Accepts (s.children.map (Kid.tag ∘ kid)))
  /-- The layout is that of the construct. -/
  layout : ∀ {s : Setting} {kid : NodeId → Kid}, s.Shows kid c →
    c.Accepts (s.children.map (Kid.tag ∘ kid)) →
      Script.layout? s.options.blankLineBetweenDefinitions kid (rule s) =
        some (c.layout s.options (s.children.map kid))

namespace Grammar

open Script Layout
open Sections (Holds)

theorem realizes_compilationUnit : Rule.Realizes compilationUnit .compilationUnit where
  clean _ := by simp [compilationUnit, Construct.Accepts]
  layout _ _ := by
    simp [compilationUnit, Construct.layout]

theorem realizes_packageDeclaration (name : String) :
    Rule.Realizes packageDeclaration (.packageDeclaration name) where
  clean h := by
    have hnone := h.bare (.inl rfl)
    simp only [packageDeclaration, h.construct, hnone, Construct.Accepts]
    split <;> simp_all
  layout h ha := by
    have hnone := h.bare (.inl rfl)
    have hname : Text.Name.isDotted name = true := ha
    simp [packageDeclaration, h.construct, hnone, hname, Construct.layout, Layout.separated,
      Kid.layouts]

theorem realizes_importDeclaration (package : String) (shortName : Option String) :
    Rule.Realizes importDeclaration (.importDeclaration package shortName) where
  clean h := by
    have hnone := h.bare (.inr rfl)
    simp only [importDeclaration, h.construct, hnone, Construct.Accepts]
    cases shortName <;> split <;> simp_all
  layout h ha := by
    have hnone := h.bare (.inr rfl)
    obtain ⟨hpackage, hname⟩ := ha
    cases shortName with
    | none =>
      simp [importDeclaration, h.construct, hnone, hpackage, Construct.layout, Layout.separated,
        Kid.layouts]
    | some name =>
      simp [importDeclaration, h.construct, hnone, hpackage, hname name rfl, Construct.layout,
        Layout.separated, Kid.layouts]

theorem realizes_annotationUse (package : Option String) (name : String) :
    Rule.Realizes annotationUse (.annotationUse package name) where
  clean h := by simp [annotationUse, h.construct, Construct.Accepts, Text.Name.Qualified]
  layout h ha := by
    have hname : Text.Name.Qualified package name := ha
    simp [annotationUse, h.construct, hname, Construct.layout,
      Layout.listed]

theorem realizes_annotationAttribute (key : String) :
    Rule.Realizes annotationAttribute (.annotationAttribute key) where
  clean h := by simp [annotationAttribute, h.construct, Construct.Accepts]
  layout h ha := by
    obtain ⟨hkey, hone⟩ := ha
    rw [List.length_map] at hone
    simp [annotationAttribute, h.construct, hkey, hone, Construct.layout]

theorem realizes_serviceDefinition (protocol name : String) :
    Rule.Realizes serviceDefinition (.serviceDefinition protocol name) where
  clean h := by
    simp only [serviceDefinition, h.construct, Construct.Accepts]
    refine clean_sections h.knows fun parts hp => ?_
    simp [Holds.eq_nil_iff hp.parameters, Holds.eq_nil_iff hp.returns]
  layout h ha := by
    obtain ⟨ho, hparameters, hreturns, hprotocol, hname⟩ := ha
    simp only [serviceDefinition, h.construct, Construct.layout]
    refine layout?_sections h.knows ho fun parts hp => ?_
    have hnone := (Holds.eq_nil_iff hp.parameters).mpr hparameters
    have hvoid := (Holds.eq_nil_iff hp.returns).mpr hreturns
    simp [noReturns, hnone, hvoid, hprotocol, hname, hp.annotations, hp.body, Layout.annotations,
      Layout.members]

theorem realizes_resourceDefinition (name : String) :
    Rule.Realizes resourceDefinition (.resourceDefinition name) where
  clean h := by
    simp only [resourceDefinition, h.construct, Construct.Accepts]
    refine clean_sections h.knows fun parts hp => ?_
    simp [Holds.eq_nil_iff hp.returns]
  layout h ha := by
    obtain ⟨ho, hreturns, hname⟩ := ha
    simp only [resourceDefinition, h.construct, Construct.layout]
    refine layout?_sections h.knows ho fun parts hp => ?_
    have hvoid := (Holds.eq_nil_iff hp.returns).mpr hreturns
    simp [noReturns, hvoid, hname, hp.annotations, hp.parameters, layout?_body hp.body,
      Layout.annotations, Layout.parameters]

theorem realizes_functionDefinition (name : String) (given : Modifiers) :
    Rule.Realizes functionDefinition (.functionDefinition name given) where
  clean h := by
    simp only [functionDefinition, h.construct, Construct.Accepts]
    refine clean_sections h.knows fun parts hp => ?_
    simp [hp.body_eq_nil]
  layout h ha := by
    obtain ⟨ho, hg, hn, hbody⟩ := ha
    simp only [functionDefinition, h.construct, Construct.layout]
    refine layout?_sections h.knows ho fun parts hp => ?_
    simp [hg, hn, hp.annotations, hp.parameters, layout?_returnList hp.returns,
      layout?_bodyUnlessNative hp.body fun hnative => hp.body_eq_nil.mpr (hbody hnative),
      Layout.annotations, Layout.parameters]

theorem realizes_connectorDefinition (name : String) (given : Modifiers) :
    Rule.Realizes connectorDefinition (.connectorDefinition name given) where
  clean h := by
    simp only [connectorDefinition, h.construct, Construct.Accepts]
    refine clean_sections h.knows fun parts hp => ?_
    simp [Holds.eq_nil_iff hp.returns]
  layout h ha := by
    obtain ⟨ho, hreturns, hgiven, hname⟩ := ha
    simp only [connectorDefinition, h.construct, Construct.layout]
    refine layout?_sections h.knows ho fun parts hp => ?_
    have hvoid := (Holds.eq_nil_iff hp.returns).mpr hreturns
    simp [noReturns, hvoid, hgiven, hname, hp.annotations, hp.parameters, hp.body,
      Layout.annotations, Layout.parameters, Layout.members]

theorem realizes_actionDefinition (name : String) (given : Modifiers) :
    Rule.Realizes actionDefinition (.actionDefinition name given) where
  clean h := by
    simp only [actionDefinition, h.construct, Construct.Accepts]
    refine clean_sections h.knows fun parts hp => ?_
    simp [hp.body_eq_nil]
  layout h ha := by
    obtain ⟨ho, hgiven, hname, hbody⟩ := ha
    simp only [actionDefinition, h.construct, Construct.layout]
    refine layout?_sections h.knows ho fun parts hp => ?_
    simp [hgiven, hname, hp.annotations, hp.parameters, layout?_returnList hp.returns,
      layout?_bodyUnlessNative hp.body fun hnative => hp.body_eq_nil.mpr (hbody hnative),
      Layout.annotations, Layout.parameters]

/-- The members of a record type are fields when its children are annotations
and fields. -/
theorem find?_fields {s : Setting} {kid : NodeId → Kid} (hk : s.Knows kid) {parts : Sections}
    (hp : parts.Holds kid s.children) :
    (parts.parameters = [] ∧ parts.returns = []) ∧
        (parts.body.find? fun child => s.tag? child != some .variableDefinition) = none ↔
      ∀ tag ∈ s.children.map (Kid.tag ∘ kid), tag = .annotationUse ∨ tag = .variableDefinition := by
  have hbody : ∀ {k : Kid}, k ∈ parts.body.map kid ↔ k ∈ Kid.bodyOf (s.children.map kid) := by
    rw [hp.body]
  have htag : ∀ {c : NodeId}, c ∈ parts.body →
      ((s.tag? c != some .variableDefinition) = false ↔ (kid c).tag = .variableDefinition) := by
    intro c hc
    rw [hk c (hp.listed c hc)]
    simp
  rw [Holds.eq_nil_iff hp.parameters, Holds.eq_nil_iff hp.returns, List.find?_eq_none]
  simp only [List.mem_map, Function.comp_apply, forall_exists_index, and_imp,
    forall_apply_eq_imp_iff₂, Bool.not_eq_true] at hbody ⊢
  constructor
  · rintro ⟨⟨hparameter, hreturn⟩, hfields⟩ c hc
    by_contra hno
    rw [not_or] at hno
    have hk' : kid c ∈ Kid.bodyOf (s.children.map kid) := by
      simp only [Kid.bodyOf, List.mem_filter, decide_eq_true_eq, List.mem_cons, List.not_mem_nil,
        or_false, not_or]
      exact ⟨List.mem_map_of_mem hc, hno.1, fun h => hparameter ⟨c, hc, h⟩,
        fun h => hreturn ⟨c, hc, h⟩⟩
    obtain ⟨b, hb, heq⟩ := hbody.mpr hk'
    exact hno.2 (heq ▸ (htag hb).mp (hfields b hb))
  · intro hall
    refine ⟨⟨?_, ?_⟩, fun b hb => (htag hb).mpr ?_⟩
    · rintro ⟨c, hc, h⟩
      rcases hall c hc with h' | h' <;> rw [h] at h' <;> cases h'
    · rintro ⟨c, hc, h⟩
      rcases hall c hc with h' | h' <;> rw [h] at h' <;> cases h'
    · have hk' : kid b ∈ Kid.bodyOf (s.children.map kid) := hbody.mp ⟨b, hb, rfl⟩
      simp only [Kid.bodyOf, List.mem_filter, decide_eq_true_eq, List.mem_cons, List.not_mem_nil,
        or_false, not_or] at hk'
      exact (hall b (hp.listed b hb)).resolve_left hk'.2.1

theorem realizes_structDefinition (name : String) :
    Rule.Realizes structDefinition (.structDefinition name) where
  clean {s kid} h := by
    simp only [structDefinition, h.construct, Construct.Accepts]
    refine clean_sections h.knows fun parts hp => ?_
    rw [← find?_fields h.knows hp]
    cases parts.body.find? fun child => s.tag? child != some .variableDefinition with
    | none => simp
    | some child => simp
  layout h ha := by
    obtain ⟨ho, hfields, hname⟩ := ha
    simp only [structDefinition, h.construct, Construct.layout]
    refine layout?_sections h.knows ho fun parts hp => ?_
    obtain ⟨⟨hnone, hvoid⟩, hfind⟩ := (find?_fields h.knows hp).mpr hfields
    simp [hnone, hvoid, hfind, hname, hp.annotations, hp.body, Layout.annotations]

theorem realizes_constantDefinition (type name : String) :
    Rule.Realizes constantDefinition (.constantDefinition type name) where
  clean h := by
    simp [constantDefinition, h.construct, Construct.Accepts, Text.Name.Typed]
  layout h ha := by
    obtain ⟨htyped, hone⟩ := ha
    rw [List.length_map] at hone
    simp [constantDefinition, h.construct, htyped, hone, Construct.layout]

theorem realizes_typeMapperDefinition (name : String) :
    Rule.Realizes typeMapperDefinition (.typeMapperDefinition name) where
  clean h := by
    simp only [typeMapperDefinition, h.construct, Construct.Accepts]
    refine clean_sections h.knows fun parts hp => ?_
    simp [Holds.length_eq hp.parameters, Holds.length_eq hp.returns, and_assoc]
  layout h ha := by
    obtain ⟨ho, hparameters, hreturns, hname⟩ := ha
    simp only [typeMapperDefinition, h.construct, Construct.layout]
    refine layout?_sections h.knows ho fun parts hp => ?_
    rw [← Holds.length_eq hp.parameters] at hparameters
    rw [← Holds.length_eq hp.returns] at hreturns
    simp [hparameters, hreturns, hname, hp.annotations, hp.parameters,
      layout?_returnList hp.returns, layout?_body hp.body, Layout.annotations, Layout.parameters]

theorem realizes_workerDeclaration (name : String) :
    Rule.Realizes workerDeclaration (.workerDeclaration name) where
  clean h := by
    simp only [workerDeclaration, h.construct, Construct.Accepts]
    refine clean_sections h.knows fun parts hp => ?_
    simp [Holds.eq_nil_iff hp.annotations, Holds.eq_nil_iff hp.returns]
  layout h ha := by
    obtain ⟨ho, hannotations, hreturns, hname⟩ := ha
    simp only [workerDeclaration, h.construct, Construct.layout]
    refine layout?_sections h.knows ho fun parts hp => ?_
    have hnone := (Holds.eq_nil_iff hp.annotations).mpr hannotations
    have hvoid := (Holds.eq_nil_iff hp.returns).mpr hreturns
    simp [noReturns, hnone, hvoid, hname, hp.parameters, layout?_body hp.body, Layout.parameters]

theorem realizes_parameterDefinition (type name : String) :
    Rule.Realizes parameterDefinition (.parameterDefinition type name) where
  clean {s kid} h := by
    have hclean : ∀ child ∈ s.children, (Clean (if s.tag? child = some .annotationUse then
        [.group (.followed " ") [child]] else fail .parameterChild) ↔
          (kid child).tag = .annotationUse) := by
      intro child hc
      simp only [h.knows child hc, Option.some.injEq]
      split <;> simp [*]
    simp only [parameterDefinition, h.construct, Construct.Accepts, clean_append, clean_flatMap,
      clean_typed, Text.Name.Typed, List.forall_mem_map, Function.comp_apply]
    exact and_congr (forall₂_congr hclean) Iff.rfl
  layout {s kid} h ha := by
    obtain ⟨hannotations, htyped⟩ := ha
    rw [List.forall_mem_map] at hannotations
    have hfollowed : layout? s.options.blankLineBetweenDefinitions kid
        (s.children.flatMap fun child => if s.tag? child = some .annotationUse then
          [.group (.followed " ") [child]] else fail .parameterChild) =
        some (s.children.flatMap fun child => (kid child).layout ++ str " ") := by
      refine layout?_flatMap fun child hc => ?_
      have htag : (kid child).tag = .annotationUse := hannotations child hc
      rw [h.knows child hc, htag, if_pos rfl]
      simp
    simp [parameterDefinition, h.construct, hfollowed, htyped, Construct.layout, List.flatMap_map]

theorem realizes_returnParameter (type : String) (name : Option String) :
    Rule.Realizes returnParameter (.returnParameter type name) where
  clean h := by
    cases name <;> simp [returnParameter, h.construct, Construct.Accepts]
  layout h ha := by
    obtain ⟨htype, hname, hnone⟩ := ha
    rw [List.map_eq_nil_iff] at hnone
    cases name with
    | none => simp [returnParameter, h.construct, htype, hnone, Construct.layout]
    | some n => simp [returnParameter, h.construct, htype, hname n rfl, hnone, Construct.layout]

/-- The text of a variable is clean when it has one initial value at most. -/
theorem clean_variableText {s : Setting} {type name : String} :
    Clean (variableText s type name) ↔ s.children.length ≤ 1 ∧ Text.Name.Typed type name := by
  unfold variableText
  split <;> simp [Text.Name.Typed, *]

/-- The text of a variable with one initial value at most. -/
theorem layout?_variableText {s : Setting} {kid : NodeId → Kid} {blankLines : Bool}
    {type name : String} (hle : s.children.length ≤ 1) (ht : Text.Name.Typed type name) :
    layout? blankLines kid (variableText s type name) =
      some (Layout.declared type name (s.children.map kid)) := by
  unfold variableText Layout.declared
  split <;> simp_all

theorem realizes_variableDefinition (type name : String) :
    Rule.Realizes variableDefinition (.variableDefinition type name) where
  clean h := by simp [variableDefinition, h.construct, Construct.Accepts, clean_variableText]
  layout h ha := by
    obtain ⟨hle, htyped⟩ := ha
    rw [List.length_map] at hle
    simp only [variableDefinition, h.construct, Construct.layout]
    exact layout?_variableText hle htyped

end Grammar

end SourceScribe
