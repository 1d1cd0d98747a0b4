import Mathlib.Data.List.TakeWhile
import SourceScribe.Proofs.Thinning

/-!
# Children that stand in lists

A child of a node stands in a list when it is an argument, an item, an entry, an
attribute, an annotation, a parameter, a statement, a member or a worker, or when
it belongs to a file. When only such children are taken out of the list of a node,
the rule of its kind writes what is left as before.
-/

namespace SourceScribe

/-- Whether a child of a kind that has an index among the children of a construct stands
in a list of the construct. -/
def Construct.listSlot (construct : Construct) (index : Nat) (tag : Option Tag) : Bool :=
  match construct with
  | .functionInvocationExpression _ | .actionInvocationExpression _ _ _
  | .connectorInitExpression _ _ | .arrayInitExpression | .mapInitExpression
  | .annotationUse _ _ | .compilationUnit => true
  | .blockStatement | .transformStatement | .elseStatement | .tryStatement
  | .catchStatement _ _ | .finallyStatement | .joinStatement _ _ _ | .transactionStatement
  | .abortedStatement | .committedStatement => true
  -- behind a condition or an expression
  | .ifStatement | .elseIfStatement | .whileStatement | .timeoutStatement _ _ => index != 0
  | .parameterDefinition _ _ => tag == some .annotationUse
  | .forkJoinStatement => tag == some .workerDeclaration
  -- annotations, parameters and the body
  | .resourceDefinition _ | .functionDefinition _ _ | .connectorDefinition _ _
  | .actionDefinition _ _ | .workerDeclaration _ => Sections.rank tag != 2
  -- annotations and the body
  | .serviceDefinition _ _ | .structDefinition _ | .typeMapperDefinition _ =>
    Sections.rank tag == 0 || Sections.rank tag == 3
  | _ => false

/-- Whether the child at a place, a node and an index among its children, stands in a
list. -/
def Ast.isListSlot (ast : Ast) (place : NodeId × Nat) : Bool :=
  match ast.node? place.1 with
  | some node =>
    node.children[place.2]?.any fun child => node.construct.listSlot place.2 (ast.tag? child)
  | none => false

/-- Every child that is not kept stands in a list. -/
def Setting.Spares (s : Setting) (ms : Marked) : Prop :=
  ∀ index child, ms[index]? = some (child, false) →
    s.construct.listSlot index (s.tag? child) = true

namespace Setting

variable {s : Setting} {ms : Marked}

/-- Some children are all kept when none of them may be left out at any place. -/
theorem Spares.whole (h : s.Spares ms) {gs : Marked} (hgs : gs ⊆ ms)
    (hslot : ∀ index, ∀ m ∈ gs, s.construct.listSlot index (s.tag? m.1) = false) :
    gs.Whole := by
  intro m hm
  obtain ⟨child, mark⟩ := m
  cases mark with
  | true => rfl
  | false =>
    obtain ⟨index, hindex⟩ := List.mem_iff_getElem?.mp (hgs hm)
    have hnot := hslot index (child, false) hm
    rw [h index child hindex] at hnot
    cases hnot

/-- The first child is kept when the first place is in no list. -/
theorem Spares.first (h : s.Spares ms)
    (hslot : ∀ tag, s.construct.listSlot 0 tag = false) (child : NodeId) :
    ms[0]? ≠ some (child, false) := by
  intro hfirst
  have hnot := hslot (s.tag? child)
  rw [h 0 child hfirst] at hnot
  cases hnot

end Setting

namespace Grammar

open Script Marked

variable {s s' : Setting} {ms : Marked}

/-- To rename nothing leaves a script as it is. -/
theorem rename_id (s : Script) : rename id s = s := by
  have hpiece : Piece.rename id = id := by
    funext p
    cases p with
    | reject fault => cases fault <;> rfl
    | _ => simp
  rw [rename, hpiece, List.map_id]

/-- A node all of whose children are kept is written as before. -/
theorem thins_of_whole (tag : Tag) (h : s.Thinned s' ms) (hwhole : Whole ms)
    (hclean : Clean (rule tag s)) : Thins ms (rule tag s) (rule tag s') := by
  have hchildren : s'.children = s.children := by rw [h.kept, h.children, hwhole.kept_eq]
  have hrenamed : s.Renamed id s' :=
    ⟨h.construct, by rw [hchildren, List.map_id], h.options, fun child _ => by rw [h.tags, id]⟩
  rw [(natural_rule tag id s s' hrenamed).renamed, rename_id]
  exact thins_whole hwhole (((covers_rule tag s).all hclean).trans h.children)

/-- Arguments without some of them. -/
theorem thins_arguments (h : s.Thinned s' ms) : Thins ms (arguments s) (arguments s') := by
  rw [arguments, arguments, h.children, h.kept, h.options]
  exact thins_group _ ms

section Expressions

theorem thins_functionInvocation {function : String} (h : s.Thinned s' ms)
    (hc : s.construct = .functionInvocationExpression function) :
    Thins ms (functionInvocation s) (functionInvocation s') := by
  simp only [functionInvocation, h.construct, hc]
  refine ((thins_arguments h).behind ?_).before rfl
  split
  · rfl
  · split <;> rfl

theorem thins_actionInvocation {package : Option String} {connector action : String}
    (h : s.Thinned s' ms)
    (hc : s.construct = .actionInvocationExpression package connector action) :
    Thins ms (actionInvocation s) (actionInvocation s') := by
  simp only [actionInvocation, h.construct, hc]
  exact ((thins_arguments h).behind (by simp)).before rfl

theorem thins_connectorInit {package : Option String} {connector : String}
    (h : s.Thinned s' ms) (hc : s.construct = .connectorInitExpression package connector) :
    Thins ms (connectorInit s) (connectorInit s') := by
  simp only [connectorInit, h.construct, hc]
  exact ((thins_arguments h).behind (by simp)).before rfl

theorem thins_arrayInit (h : s.Thinned s' ms) : Thins ms (arrayInit s) (arrayInit s') :=
  ((thins_arguments h).behind (t := [.text "["]) rfl).before rfl

/-- What is not found among all children is not found among some of them. -/
theorem find?_kept {test : NodeId → Bool} {gs : Marked} (h : (ids gs).find? test = none) :
    (kept gs).find? test = none :=
  List.find?_eq_none.mpr fun child hm =>
    List.find?_eq_none.mp h child ((kept_sublist gs).subset hm)

theorem thins_mapInit (h : s.Thinned s' ms) (hclean : Clean (mapInit s)) :
    Thins ms (mapInit s) (mapInit s') := by
  unfold mapInit at hclean ⊢
  rw [h.tags]
  cases hfind : s.children.find? fun child => s.tag? child != some .keyValueExpression with
  | some child =>
    rw [hfind] at hclean
    exact absurd hclean (not_clean_fail _)
  | none =>
    rw [h.children] at hfind
    rw [h.kept, find?_kept hfind]
    exact ((thins_arguments h).behind (t := [.text "\x7b"]) rfl).before rfl

end Expressions

section Declarations

theorem thins_compilationUnit (h : s.Thinned s' ms) :
    Thins ms (compilationUnit s) (compilationUnit s') := by
  rw [compilationUnit, compilationUnit, h.children, h.kept]
  exact thins_group _ ms

theorem thins_annotationUse {package : Option String} {name : String} (h : s.Thinned s' ms)
    (hc : s.construct = .annotationUse package name) :
    Thins ms (annotationUse s) (annotationUse s') := by
  simp only [annotationUse, h.construct, hc, h.children, h.kept]
  refine Thins.behind ?_ (by simp)
  exact .same rfl ((thins_group _ ms).before rfl)

/-- Annotations that are written one by one without some of them. -/
theorem thins_annotationsOf (tag? : NodeId → Option Tag) (gs : Marked)
    (hclean : Clean ((ids gs).flatMap fun child =>
      if tag? child = some .annotationUse then [.group (.followed " ") [child]]
      else fail .parameterChild)) :
    Thins gs
      ((ids gs).flatMap fun child =>
        if tag? child = some .annotationUse then [.group (.followed " ") [child]]
        else fail .parameterChild)
      ((kept gs).flatMap fun child =>
        if tag? child = some .annotationUse then [.group (.followed " ") [child]]
        else fail .parameterChild) := by
  induction gs with
  | nil => exact .nil
  | cons m gs ih =>
    obtain ⟨child, mark⟩ := m
    rw [ids_cons, List.flatMap_cons] at hclean ⊢
    obtain ⟨hchild, hrest⟩ := clean_append.mp hclean
    have htag : tag? child = some .annotationUse := by
      by_contra hne
      rw [if_neg hne] at hchild
      exact not_clean_fail _ hchild
    rw [if_pos htag]
    cases mark with
    | true =>
      rw [kept_cons_true, List.flatMap_cons, if_pos htag]
      exact .group (.followed " ") [(child, true)] (ih hrest)
    | false =>
      rw [kept_cons_false]
      have hgone : kept [(child, false)] = [] := rfl
      exact .gone (.followed " ") hgone (ih hrest)

theorem thins_parameterDefinition {type name : String} (h : s.Thinned s' ms)
    (hc : s.construct = .parameterDefinition type name) (hclean : Clean (parameterDefinition s)) :
    Thins ms (parameterDefinition s) (parameterDefinition s') := by
  simp only [parameterDefinition, h.construct, hc, h.children, h.kept, h.tags] at hclean ⊢
  exact (thins_annotationsOf s.tag? ms (clean_append.mp hclean).1).before (by simp)

/-- Children of one section of a definition are all children of the definition. -/
theorem section_subset {as ps rs bs : Marked} :
    as ⊆ as ++ ps ++ rs ++ bs ∧ ps ⊆ as ++ ps ++ rs ++ bs ∧ rs ⊆ as ++ ps ++ rs ++ bs := by
  refine ⟨?_, ?_, ?_⟩ <;>
    · intro m hm
      simp [hm]

/-- No child is missing from a section without children. -/
theorem eq_nil_of_ids {gs : Marked} (h : ids gs = []) : gs = [] := List.map_eq_nil_iff.mp h

theorem thins_serviceDefinition {protocol name : String} (h : s.Thinned s' ms)
    (hc : s.construct = .serviceDefinition protocol name)
    (hclean : Clean (serviceDefinition s)) :
    Thins ms (serviceDefinition s) (serviceDefinition s') := by
  simp only [serviceDefinition, h.construct, hc] at hclean ⊢
  refine thins_sections h hclean fun as ps rs bs _ _ _ hparts => ?_
  simp only [clean_append, clean_demand, clean_noReturns, List.isEmpty_iff] at hparts
  obtain rfl := eq_nil_of_ids hparts.1.1.1.1.1.1
  obtain rfl := eq_nil_of_ids hparts.1.1.1.1.1.2
  simp only [List.append_nil]
  exact (((((thins_annotationLines as).behind (by simp)).before rfl).before (by simp)).before
    (by simp)).append (thins_memberBlock bs)

theorem thins_resourceDefinition {name : String} (h : s.Thinned s' ms)
    (hc : s.construct = .resourceDefinition name) (hclean : Clean (resourceDefinition s)) :
    Thins ms (resourceDefinition s) (resourceDefinition s') := by
  simp only [resourceDefinition, h.construct, hc] at hclean ⊢
  refine thins_sections h hclean fun as ps rs bs _ _ _ hparts => ?_
  simp only [clean_append, clean_noReturns] at hparts
  obtain rfl := eq_nil_of_ids hparts.1.1.1.1
  rw [List.append_nil]
  exact ((((thins_annotationLines as).behind (by simp)).before (by simp)).append
    (thins_parameterList ps)).append (thins_body bs)

/-- Return parameters of a definition are kept where they stand in no list. -/
theorem whole_returns (hspares : s.Spares ms) {rs : Marked} (hrs : rs ⊆ ms)
    (hrank : ∀ m ∈ rs, Sections.rank (s.tag? m.1) = 2)
    (hslot : ∀ index tag, Sections.rank tag = 2 → s.construct.listSlot index tag = false) :
    Whole rs :=
  hspares.whole hrs fun index m hm => hslot index _ (hrank m hm)

theorem thins_functionDefinition {name : String} {given : Modifiers} (h : s.Thinned s' ms)
    (hspares : s.Spares ms) (hc : s.construct = .functionDefinition name given)
    (hclean : Clean (functionDefinition s)) :
    Thins ms (functionDefinition s) (functionDefinition s') := by
  simp only [functionDefinition, h.construct, hc] at hclean ⊢
  refine thins_sections h hclean fun as ps rs bs hms _ hrank hparts => ?_
  have hreturns : Whole rs := whole_returns hspares (hms ▸ section_subset.2.2) hrank
    fun index tag htag => by simp [hc, Construct.listSlot, htag]
  exact (((((thins_annotationLines as).before (by simp)).before (by simp)).append
    (thins_parameterList ps)).append (thins_returnList hreturns)).append
    (thins_bodyUnlessNative (clean_append.mp hparts).2)

theorem thins_connectorDefinition {name : String} {given : Modifiers} (h : s.Thinned s' ms)
    (hc : s.construct = .connectorDefinition name given)
    (hclean : Clean (connectorDefinition s)) :
    Thins ms (connectorDefinition s) (connectorDefinition s') := by
  simp only [connectorDefinition, h.construct, hc] at hclean ⊢
  refine thins_sections h hclean fun as ps rs bs _ _ _ hparts => ?_
  simp only [clean_append, clean_noReturns] at hparts
  obtain rfl := eq_nil_of_ids hparts.1.1.1.1.1.1
  rw [List.append_nil]
  exact ((((((thins_annotationLines as).behind (by simp)).before (by simp)).before
    (by simp)).append (thins_parameterList ps)).before rfl).append (thins_memberBlock bs)

theorem thins_actionDefinition {name : String} {given : Modifiers} (h : s.Thinned s' ms)
    (hspares : s.Spares ms) (hc : s.construct = .actionDefinition name given)
    (hclean : Clean (actionDefinition s)) :
    Thins ms (actionDefinition s) (actionDefinition s') := by
  simp only [actionDefinition, h.construct, hc] at hclean ⊢
  refine thins_sections h hclean fun as ps rs bs hms _ hrank hparts => ?_
  have hreturns : Whole rs := whole_returns hspares (hms ▸ section_subset.2.2) hrank
    fun index tag htag => by simp [hc, Construct.listSlot, htag]
  exact (((((thins_annotationLines as).before (by simp)).before (by simp)).append
    (thins_parameterList ps)).append (thins_returnList hreturns)).append
    (thins_bodyUnlessNative (clean_append.mp hparts).2)

theorem thins_structDefinition {name : String} (h : s.Thinned s' ms)
    (hc : s.construct = .structDefinition name) (hclean : Clean (structDefinition s)) :
    Thins ms (structDefinition s) (structDefinition s') := by
  simp only [structDefinition, h.construct, hc] at hclean ⊢
  refine thins_sections h hclean fun as ps rs bs _ _ _ hparts => ?_
  cases hfind : (ids bs).find? fun child => s.tag? child != some .variableDefinition with
  | some child =>
    simp [hfind] at hparts
  | none =>
    simp only [hfind, clean_append, clean_demand, Bool.and_eq_true, List.isEmpty_iff] at hparts
    obtain rfl := eq_nil_of_ids hparts.1.1.1.1.1
    obtain rfl := eq_nil_of_ids hparts.1.1.1.1.2
    simp only [List.append_nil, h.tags, find?_kept hfind]
    exact (((thins_annotationLines as).behind (by simp)).before (by simp)).append (thins_block bs)

theorem thins_typeMapperDefinition {name : String} (h : s.Thinned s' ms)
    (hspares : s.Spares ms) (hc : s.construct = .typeMapperDefinition name)
    (hclean : Clean (typeMapperDefinition s)) :
    Thins ms (typeMapperDefinition s) (typeMapperDefinition s') := by
  simp only [typeMapperDefinition, h.construct, hc] at hclean ⊢
  refine thins_sections h hclean fun as ps rs bs hms hone hrank hparts => ?_
  have hparameters : Whole ps := hspares.whole (hms ▸ section_subset.2.1) fun index m hm => by
    simp [hc, Construct.listSlot, hone m hm]
  have hreturns : Whole rs := whole_returns hspares (hms ▸ section_subset.2.2) hrank
    fun index tag htag => by simp [hc, Construct.listSlot, htag]
  rw [hparameters.kept_eq, hreturns.kept_eq]
  exact (((((thins_annotationLines as).behind (by simp)).before (by simp)).append
    (thins_whole hparameters (by simp))).append (thins_whole hreturns (by simp))).append
    (thins_body bs)

theorem thins_workerDeclaration {name : String} (h : s.Thinned s' ms)
    (hc : s.construct = .workerDeclaration name) (hclean : Clean (workerDeclaration s)) :
    Thins ms (workerDeclaration s) (workerDeclaration s') := by
  simp only [workerDeclaration, h.construct, hc] at hclean ⊢
  refine thins_sections h hclean fun as ps rs bs _ _ _ hparts => ?_
  simp only [clean_append, clean_demand, clean_noReturns, List.isEmpty_iff] at hparts
  obtain rfl := eq_nil_of_ids hparts.1.1.1.1
  obtain rfl := eq_nil_of_ids hparts.1.1.1.2
  rw [List.nil_append, List.append_nil]
  exact (((thins_parameterList ps).behind (by simp))).append (thins_body bs)

end Declarations

section Statements

/-- A word and statements between braces without some of them. -/
theorem thins_plainClause (word : String) (h : s.Thinned s' ms) :
    Thins ms (plainClause word s) (plainClause word s') := by
  rw [plainClause, plainClause, h.children, h.kept]
  exact (thins_block ms).behind (by simp)

theorem thins_blockStatement (h : s.Thinned s' ms) :
    Thins ms (blockStatement s) (blockStatement s') := by
  rw [blockStatement, blockStatement, h.children, h.kept]
  exact thins_block ms

theorem thins_transformStatement (h : s.Thinned s' ms) :
    Thins ms (transformStatement s) (transformStatement s') := by
  rw [transformStatement, transformStatement, h.children, h.kept]
  exact .same rfl (thins_block ms)

theorem thins_conditionalClause (word : String) (h : s.Thinned s' ms)
    (hfirst : ∀ child, ms[0]? ≠ some (child, false)) (hclean : Clean (conditionalClause word s)) :
    Thins ms (conditionalClause word s) (conditionalClause word s') := by
  have hbody (first : NodeId) (gs : Marked) :
      Thins ((first, true) :: gs)
        ([.required "condition" first, .text ") "] ++ block (ids gs))
        ([.required "condition" first, .text ") "] ++ block (kept gs)) :=
    .required "condition" first (.same rfl (thins_block gs))
  exact (thins_firstOf h hfirst (clean_append.mp hclean).2 hbody).behind (by simp)

theorem thins_catchStatement {type name : String} (h : s.Thinned s' ms)
    (hc : s.construct = .catchStatement type name) :
    Thins ms (catchStatement s) (catchStatement s') := by
  simp only [catchStatement, h.construct, hc, h.children, h.kept]
  exact (thins_block ms).behind (by simp)

theorem thins_joinStatement {condition type name : String} (h : s.Thinned s' ms)
    (hc : s.construct = .joinStatement condition type name) :
    Thins ms (joinStatement s) (joinStatement s') := by
  simp only [joinStatement, h.construct, hc, h.children, h.kept]
  exact (thins_block ms).behind (by simp)

theorem thins_timeoutStatement {type name : String} (h : s.Thinned s' ms)
    (hfirst : ∀ child, ms[0]? ≠ some (child, false))
    (hc : s.construct = .timeoutStatement type name) (hclean : Clean (timeoutStatement s)) :
    Thins ms (timeoutStatement s) (timeoutStatement s') := by
  simp only [timeoutStatement, h.construct, hc] at hclean ⊢
  refine thins_firstOf h hfirst hclean fun first gs => ?_
  exact .same rfl (.required "timeout expression" first
    (.same rfl ((thins_block gs).behind (by simp))))

/-- Clauses that follow rules are each of the kind of a rule. -/
theorem tag_of_check {tag? : NodeId → Option Tag} {rules : List ClauseRule}
    {children : List NodeId} (h : ClauseRule.check tag? rules children = .ok ()) :
    ∀ child ∈ children, ∃ rule ∈ rules, tag? child = some rule.tag := by
  induction rules generalizing children with
  | nil =>
    cases children with
    | nil => simp
    | cons child rest => cases h
  | cons rule rules ih =>
    simp only [ClauseRule.check] at h
    split at h
    next => cases h
    next =>
      intro child hm
      rw [← List.take_append_drop (rule.taken tag? children) children, List.mem_append] at hm
      rcases hm with hm | hm
      · -- a rule takes only leading children of its kind
        have hle : rule.taken tag? children ≤
            (children.takeWhile fun child => tag? child == some rule.tag).length := by
          unfold ClauseRule.taken
          dsimp only
          split <;> omega
        generalize rule.taken tag? children = n at hm hle
        have htake : children.take n =
            (children.takeWhile fun child => tag? child == some rule.tag).take n := by
          conv_lhs =>
            rw [← List.takeWhile_append_dropWhile (p := fun c => tag? c == some rule.tag)
              (l := children)]
          exact List.take_append_of_le_length hle
        rw [htake] at hm
        have hlead := List.mem_takeWhile_imp (p := fun c => tag? c == some rule.tag)
          (List.mem_of_mem_take hm)
        exact ⟨rule, List.mem_cons_self, beq_iff_eq.mp hlead⟩
      · obtain ⟨other, hother, htag⟩ := ih h child hm
        exact ⟨other, List.mem_cons_of_mem _ hother, htag⟩

/-- Behind the workers of a fork its other clauses are checked. -/
theorem check_forkJoinClauses (tag? : NodeId → Option Tag) (children : List NodeId) :
    ClauseRule.check tag? forkJoinClauses children =
      ClauseRule.check tag? [.optional .joinStatement, .optional .timeoutStatement]
        (children.dropWhile fun child => tag? child == some .workerDeclaration) := by
  have hdrop : children.drop
      (children.takeWhile fun child => tag? child == some .workerDeclaration).length =
      children.dropWhile fun child => tag? child == some .workerDeclaration := by
    conv_lhs =>
      arg 2
      rw [← List.takeWhile_append_dropWhile (p := fun c => tag? c == some .workerDeclaration)
        (l := children)]
    exact List.drop_left
  rw [← hdrop]
  rfl

/-- Workers in front of other clauses are told apart from them. -/
theorem span_workers {tag? : NodeId → Option Tag} {workers rest : List NodeId}
    (hworkers : ∀ child ∈ workers, tag? child = some .workerDeclaration)
    (hrest : ∀ child ∈ rest, tag? child ≠ some .workerDeclaration) :
    (workers ++ rest).takeWhile (fun child => tag? child == some .workerDeclaration) = workers ∧
      (workers ++ rest).dropWhile (fun child => tag? child == some .workerDeclaration) = rest := by
  have hlead : ∀ child ∈ workers, (tag? child == some .workerDeclaration) = true :=
    fun child hm => beq_iff_eq.mpr (hworkers child hm)
  rw [List.takeWhile_append_of_pos hlead, List.dropWhile_append_of_pos hlead]
  cases rest with
  | nil => simp
  | cons child rest =>
    have hchild := hrest child List.mem_cons_self
    simp [hchild]

theorem thins_forkJoinStatement (h : s.Thinned s' ms) (hspares : s.Spares ms)
    (hc : s.construct = .forkJoinStatement) (hclean : Clean (forkJoinStatement s)) :
    Thins ms (forkJoinStatement s) (forkJoinStatement s') := by
  have hchecked : ClauseRule.check s.tag? forkJoinClauses s.children = .ok () := by
    unfold forkJoinStatement clauses checked at hclean
    split at hclean
    next hcheck => exact hcheck
    next => exact absurd hclean (not_clean_fail _)
  rw [check_forkJoinClauses] at hchecked
  -- the marks of the workers and of the other clauses
  have hsplit := forkWorkers_append_forkRest s
  rw [h.children, eq_comm] at hsplit
  obtain ⟨ws, rs, rfl, hworkers, hrest⟩ := List.map_eq_append_iff.mp hsplit
  have hworker : ∀ child ∈ ids ws, s.tag? child = some .workerDeclaration := by
    intro child hm
    rw [ids, hworkers] at hm
    have hlead := List.mem_takeWhile_imp (p := fun c => s.tag? c == some .workerDeclaration) hm
    exact beq_iff_eq.mp hlead
  have hother : ∀ child ∈ ids rs, s.tag? child ≠ some .workerDeclaration := by
    intro child hm
    rw [ids, hrest] at hm
    obtain ⟨rule, hrule, htag⟩ := tag_of_check hchecked child hm
    simp only [List.mem_cons, List.not_mem_nil, or_false] at hrule
    rcases hrule with rfl | rfl <;> simp [htag, ClauseRule.optional]
  have hwhole : Whole rs := by
    refine hspares.whole (List.subset_append_right ws rs) fun index m hm => ?_
    have hne := hother m.1 (List.mem_map_of_mem hm)
    simp [hc, Construct.listSlot, hne]
  -- the workers that are kept are told apart in the same way
  have hspan' := span_workers (fun child hm => hworker child ((kept_sublist ws).subset hm)) hother
  have hworkers' : forkWorkers s' = kept ws := by
    rw [forkWorkers, h.tags, h.kept, kept_append, hwhole.kept_eq]
    exact hspan'.1
  have hrest' : forkRest s' = ids rs := by
    rw [forkRest, h.tags, h.kept, kept_append, hwhole.kept_eq]
    exact hspan'.2
  have hchecked' : ClauseRule.check s'.tag? forkJoinClauses s'.children = .ok () := by
    rw [check_forkJoinClauses]
    change ClauseRule.check s'.tag? _ (forkRest s') = _
    rw [hrest', h.tags, ids, hrest]
    exact hchecked
  rw [← check_forkJoinClauses] at hchecked
  simp only [forkJoinStatement, clauses, hchecked, hchecked', checked, hworkers', hrest']
  rw [← hworkers, ← hrest]
  have hclauses := thins_group (.led " ") rs
  rw [hwhole.kept_eq] at hclauses
  exact .same rfl ((thins_block ws).append hclauses)

end Statements

/-- **Children in lists may be missing**: when only children that stand in lists are not
kept, the rule of a node that is not rejected asks for those that are kept with nothing
else changed. -/
theorem thins_rule (h : s.Thinned s' ms) (hspares : s.Spares ms)
    (hclean : Clean (rule s.node.tag s)) :
    Thins ms (rule s.node.tag s) (rule s.node.tag s') := by
  have htag : s.node.tag = s.construct.tag := rfl
  rw [htag] at hclean ⊢
  have hnone (hslot : ∀ index tag, s.construct.listSlot index tag = false) : Whole ms :=
    hspares.whole (List.Subset.refl ms) fun index m _ => hslot index _
  have hfirst (hslot : ∀ tag, s.construct.listSlot 0 tag = false) :
      ∀ child, ms[0]? ≠ some (child, false) := hspares.first hslot
  cases hc : s.construct with
  | compilationUnit => exact thins_compilationUnit h
  | annotationUse package name => exact thins_annotationUse h hc
  | serviceDefinition protocol name =>
    exact thins_serviceDefinition h hc (by rwa [hc] at hclean)
  | resourceDefinition name => exact thins_resourceDefinition h hc (by rwa [hc] at hclean)
  | functionDefinition name given =>
    exact thins_functionDefinition h hspares hc (by rwa [hc] at hclean)
  | connectorDefinition name given => exact thins_connectorDefinition h hc (by rwa [hc] at hclean)
  | actionDefinition name given =>
    exact thins_actionDefinition h hspares hc (by rwa [hc] at hclean)
  | structDefinition name => exact thins_structDefinition h hc (by rwa [hc] at hclean)
  | typeMapperDefinition name =>
    exact thins_typeMapperDefinition h hspares hc (by rwa [hc] at hclean)
  | workerDeclaration name => exact thins_workerDeclaration h hc (by rwa [hc] at hclean)
  | parameterDefinition type name =>
    exact thins_parameterDefinition h hc (by rwa [hc] at hclean)
  | blockStatement => exact thins_blockStatement h
  | transformStatement => exact thins_transformStatement h
  | ifStatement =>
    exact thins_conditionalClause "if" h (hfirst fun tag => by rw [hc]; rfl)
      (by rwa [hc] at hclean)
  | elseIfStatement =>
    exact thins_conditionalClause "else if" h (hfirst fun tag => by rw [hc]; rfl)
      (by rwa [hc] at hclean)
  | elseStatement => exact thins_plainClause "else" h
  | whileStatement =>
    exact thins_conditionalClause "while" h (hfirst fun tag => by rw [hc]; rfl)
      (by rwa [hc] at hclean)
  | tryStatement => exact thins_plainClause "try" h
  | catchStatement type name => exact thins_catchStatement h hc
  | finallyStatement => exact thins_plainClause "finally" h
  | forkJoinStatement => exact thins_forkJoinStatement h hspares hc (by rwa [hc] at hclean)
  | joinStatement condition type name => exact thins_joinStatement h hc
  | timeoutStatement type name =>
    exact thins_timeoutStatement h (hfirst fun tag => by rw [hc]; rfl) hc (by rwa [hc] at hclean)
  | transactionStatement => exact thins_plainClause "transaction" h
  | abortedStatement => exact thins_plainClause "aborted" h
  | committedStatement => exact thins_plainClause "committed" h
  | functionInvocationExpression function => exact thins_functionInvocation h hc
  | actionInvocationExpression package connector action => exact thins_actionInvocation h hc
  | connectorInitExpression package connector => exact thins_connectorInit h hc
  | arrayInitExpression => exact thins_arrayInit h
  | mapInitExpression => exact thins_mapInit h (by rwa [hc] at hclean)
  | _ =>
    rw [hc] at hclean
    exact thins_of_whole _ h (hnone fun index tag => by rw [hc]; rfl) hclean

end Grammar

end SourceScribe
