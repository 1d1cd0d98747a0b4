import SourceScribe.Proofs.Scripts
import SourceScribe.Proofs.Sections

/-!
# Scripts under other names

A rule of the grammar may look at the construct of its node, at the kinds of its
children and at the options, and it hands the children on; it never looks at an
identity itself. So for a node that is the same but for the identities of its
children, the script is the same but for these. The scripts of the grammar also
say nothing about the traversal that writes them, nor that a child was written
elsewhere, and what they put between braces are whole lines. All this is said
here for the combinators of which the rules are made.
-/

namespace SourceScribe

variable {f : NodeId → NodeId}

/-- The same fault for nodes with other names. -/
def Fault.rename (f : NodeId → NodeId) : Fault → Fault
  | .outOfOrder tag child => .outOfOrder tag (f child)
  | .unexpectedClause tag child => .unexpectedClause tag (f child)
  | .notField child => .notField (f child)
  | .notPair child => .notPair (f child)
  | .alreadyGenerated slot tag child => .alreadyGenerated slot tag (f child)
  | fault => fault

/-- The same piece for nodes with other names. -/
def Piece.rename (f : NodeId → NodeId) : Piece → Piece
  | .required slot child => .required slot (f child)
  | .group arrangement children => .group arrangement (children.map f)
  | .braced arrangement children => .braced arrangement (children.map f)
  | .reject fault => .reject (fault.rename f)
  | p => p

/-- Whether a fault is one of the node itself. -/
def Fault.isOwn : Fault → Bool
  | .alreadyGenerated .. => false
  | _ => true

/-- Whether every child of a group ends its line. -/
def Arrangement.endsLines : Arrangement → Bool
  | .lines | .members => true
  | _ => false

/-- Whether a piece does without the traversal: it does not tell about it, does
not say that a child was written elsewhere, and puts only lines between braces. -/
def Piece.isPlain : Piece → Bool
  | .standing _ => false
  | .reject fault => fault.isOwn
  | .braced arrangement _ => arrangement.endsLines
  | _ => true

attribute [simp] Piece.rename Piece.isPlain Fault.rename Fault.isOwn Arrangement.endsLines

/-- The same sections for nodes with other names. -/
def Sections.rename (f : NodeId → NodeId) (parts : Sections) : Sections where
  annotations := parts.annotations.map f
  parameters := parts.parameters.map f
  returns := parts.returns.map f
  body := parts.body.map f

attribute [simp] Sections.rename

/-- A node with its surroundings is the same as another one but for the names of
its children. -/
structure Setting.Renamed (f : NodeId → NodeId) (s s' : Setting) : Prop where
  /-- The construct is the same. -/
  construct : s'.construct = s.construct
  /-- The children have other names. -/
  children : s'.children = s.children.map f
  /-- The options are the same. -/
  options : s'.options = s.options
  /-- The children are of the same kinds. -/
  tags : ∀ child ∈ s.children, s'.tag? (f child) = s.tag? child

namespace Script

/-- The same script for nodes with other names. -/
def rename (f : NodeId → NodeId) (s : Script) : Script := s.map (Piece.rename f)

/-- All pieces do without the traversal. -/
def Plain (s : Script) : Prop := ∀ p ∈ s, p.isPlain = true

/-- A script does without the traversal, and another one is the same under other
names. -/
structure Carries (f : NodeId → NodeId) (s s' : Script) : Prop where
  /-- The other script is the same. -/
  renamed : s' = s.rename f
  /-- The script does without the traversal. -/
  plain : s.Plain

variable {s t s' t' : Script}

@[simp]
theorem rename_nil : rename f [] = [] := rfl

@[simp]
theorem rename_cons (p : Piece) (s : Script) : rename f (p :: s) = p.rename f :: rename f s := rfl

@[simp]
theorem rename_append (s t : Script) : rename f (s ++ t) = rename f s ++ rename f t :=
  List.map_append

@[simp]
theorem plain_nil : Plain [] := by simp [Plain]

@[simp]
theorem plain_cons {p : Piece} : Plain (p :: s) ↔ p.isPlain = true ∧ Plain s := by simp [Plain]

@[simp]
theorem plain_append : Plain (s ++ t) ↔ Plain s ∧ Plain t := by simp [Plain, or_imp, forall_and]

/-- What is carried is carried one after the other. -/
theorem Carries.append (hs : Carries f s s') (ht : Carries f t t') :
    Carries f (s ++ t) (s' ++ t') where
  renamed := by rw [rename_append, hs.renamed, ht.renamed]
  plain := plain_append.mpr ⟨hs.plain, ht.plain⟩

/-- A piece goes in front. -/
theorem Carries.cons {p p' : Piece} (hp : p' = p.rename f) (hplain : p.isPlain = true)
    (hs : Carries f s s') : Carries f (p :: s) (p' :: s') where
  renamed := by rw [rename_cons, hp, hs.renamed]
  plain := plain_cons.mpr ⟨hplain, hs.plain⟩

section Fragments

@[simp]
theorem rename_fail (fault : Fault) : rename f (fail fault) = fail (fault.rename f) := rfl

@[simp]
theorem plain_fail {fault : Fault} : Plain (fail fault) ↔ fault.isOwn = true := by simp [fail]

/-- A node that is rejected is rejected under other names as well. -/
theorem carries_fail {fault : Fault} (h : fault.isOwn = true) :
    Carries f (fail fault) (fail (fault.rename f)) := ⟨rfl, plain_fail.mpr h⟩

@[simp]
theorem rename_demand (condition : Bool) (fault : Fault) :
    rename f (demand condition fault) = demand condition (fault.rename f) := by
  cases condition <;> rfl

@[simp]
theorem plain_demand {condition : Bool} {fault : Fault} :
    Plain (demand condition fault) ↔ condition = true ∨ fault.isOwn = true := by
  cases condition <;> simp [demand]

@[simp]
theorem rename_texts (values : List String) : rename f (texts values) = texts values := by
  simp [rename, texts]

@[simp]
theorem plain_texts (values : List String) : Plain (texts values) := by simp [Plain, texts]

@[simp]
theorem rename_identifier (what value : String) :
    rename f (identifier what value) = identifier what value := by
  unfold identifier
  split
  · rfl
  · split <;> rfl

@[simp]
theorem plain_identifier (what value : String) : Plain (identifier what value) := by
  unfold identifier
  split
  · simp
  · split <;> simp

@[simp]
theorem rename_typeName (value : String) : rename f (typeName value) = typeName value := by
  unfold typeName
  split <;> rfl

@[simp]
theorem plain_typeName (value : String) : Plain (typeName value) := by
  unfold typeName
  split <;> simp

@[simp]
theorem rename_qualified (package : Option String) (name : String) :
    rename f (qualified package name) = qualified package name := by
  cases package <;> simp [qualified]

@[simp]
theorem plain_qualified (package : Option String) (name : String) :
    Plain (qualified package name) := by
  cases package <;> simp [qualified]

@[simp]
theorem rename_typed (type what name : String) :
    rename f (typed type what name) = typed type what name := by simp [typed]

@[simp]
theorem plain_typed (type what name : String) : Plain (typed type what name) := by simp [typed]

@[simp]
theorem rename_plain (children : List NodeId) :
    rename f (plain children) = plain (children.map f) := rfl

@[simp]
theorem plain_plain (children : List NodeId) : Plain (plain children) := by simp [plain]

@[simp]
theorem rename_block (children : List NodeId) :
    rename f (block children) = block (children.map f) := rfl

@[simp]
theorem plain_block (children : List NodeId) : Plain (block children) := by simp [block]

@[simp]
theorem rename_memberBlock (children : List NodeId) :
    rename f (memberBlock children) = memberBlock (children.map f) := rfl

@[simp]
theorem plain_memberBlock (children : List NodeId) : Plain (memberBlock children) := by
  simp [memberBlock]

@[simp]
theorem rename_requiredAll (slot separator : String) (children : List NodeId) :
    rename f (requiredAll slot separator children) =
      requiredAll slot separator (children.map f) := by
  cases children with
  | nil => rfl
  | cons child rest => simp [requiredAll, rename, List.map_flatMap, List.flatMap_map]

@[simp]
theorem plain_requiredAll (slot separator : String) (children : List NodeId) :
    Plain (requiredAll slot separator children) := by
  cases children with
  | nil => simp [requiredAll]
  | cons child rest =>
    rw [requiredAll, plain_cons]
    refine ⟨rfl, fun p hp => ?_⟩
    obtain ⟨c, -, hp⟩ := List.mem_flatMap.mp hp
    have hplain : Plain [.text separator, .required slot c] := by simp
    exact hplain p hp

end Fragments

section Definitions

@[simp]
theorem rename_annotationLines (children : List NodeId) :
    rename f (annotationLines children) = annotationLines (children.map f) := rfl

@[simp]
theorem plain_annotationLines (children : List NodeId) : Plain (annotationLines children) := by
  simp [annotationLines]

@[simp]
theorem rename_parameterList (children : List NodeId) :
    rename f (parameterList children) = parameterList (children.map f) := rfl

@[simp]
theorem plain_parameterList (children : List NodeId) : Plain (parameterList children) := by
  simp [parameterList]

@[simp]
theorem rename_returnList (children : List NodeId) :
    rename f (returnList children) = returnList (children.map f) := by
  cases children <;> rfl

@[simp]
theorem plain_returnList (children : List NodeId) : Plain (returnList children) := by
  cases children <;> simp [returnList]

@[simp]
theorem rename_noReturns (parts : Sections) :
    rename f (noReturns parts) = noReturns (parts.rename f) := by
  simp [noReturns]

@[simp]
theorem plain_noReturns (parts : Sections) : Plain (noReturns parts) := by simp [noReturns]

@[simp]
theorem rename_modifiers (given allowed : Modifiers) :
    rename f (modifiers given allowed) = modifiers given allowed := by
  unfold modifiers
  split <;> split <;> simp

@[simp]
theorem plain_modifiers (given allowed : Modifiers) : Plain (modifiers given allowed) := by
  unfold modifiers
  split <;> split <;> simp

@[simp]
theorem rename_body (children : List NodeId) : rename f (body children) = body (children.map f) :=
  rfl

@[simp]
theorem plain_body (children : List NodeId) : Plain (body children) := by simp [body]

@[simp]
theorem rename_bodyUnlessNative (given : Modifiers) (children : List NodeId) :
    rename f (bodyUnlessNative given children) = bodyUnlessNative given (children.map f) := by
  unfold bodyUnlessNative
  split <;> simp

@[simp]
theorem plain_bodyUnlessNative (given : Modifiers) (children : List NodeId) :
    Plain (bodyUnlessNative given children) := by
  unfold bodyUnlessNative
  split <;> simp

@[simp]
theorem rename_header (word what name : String) :
    rename f (header word what name) = header word what name := by simp [header]

@[simp]
theorem plain_header (word what name : String) : Plain (header word what name) := by
  simp [header]

end Definitions

section Settings

variable {set set' : Setting}

/-- What goes on after a check is carried if the checks agree. -/
theorem carries_checked {α β : Type} {result : Except Fault α} {result' : Except Fault β}
    {next : α → Script} {next' : β → Script} (g : α → β)
    (hresult : result' = (result.map g).mapError (Fault.rename f))
    (hown : ∀ fault, result = .error fault → fault.isOwn = true)
    (hnext : ∀ a, result = .ok a → Carries f (next a) (next' (g a))) :
    Carries f (checked result next) (checked result' next') := by
  cases result with
  | error fault =>
    rw [hresult]
    exact carries_fail (hown fault rfl)
  | ok a =>
    rw [hresult]
    exact hnext a rfl

/-- No children are no children under other names. -/
theorem carries_childless (h : set.Renamed f set') :
    Carries f (childless set) (childless set') := by
  refine ⟨?_, by simp [childless]⟩
  simp [childless, h.children]

/-- Arguments are the children. -/
theorem carries_arguments (h : set.Renamed f set') :
    Carries f (arguments set) (arguments set') := by
  refine ⟨?_, by simp [arguments]⟩
  simp [arguments, h.children, h.options]

/-- The only child has another name. -/
theorem carries_one (h : set.Renamed f set') {expected : String} {next next' : NodeId → Script}
    (hnext : ∀ child, Carries f (next child) (next' (f child))) :
    Carries f (one set expected next) (one set' expected next') := by
  unfold one
  rw [h.children]
  match set.children with
  | [] => exact carries_fail rfl
  | [child] => exact hnext child
  | first :: second :: rest =>
    simp only [List.map_cons, List.length_cons, List.length_map]
    exact carries_fail rfl

/-- The only two children have other names. -/
theorem carries_two (h : set.Renamed f set') {expected : String}
    {next next' : NodeId → NodeId → Script}
    (hnext : ∀ first second, Carries f (next first second) (next' (f first) (f second))) :
    Carries f (two set expected next) (two set' expected next') := by
  unfold two
  rw [h.children]
  match set.children with
  | [] => exact carries_fail rfl
  | [child] => exact carries_fail rfl
  | [first, second] => exact hnext first second
  | first :: second :: third :: rest =>
    simp only [List.map_cons, List.length_cons, List.length_map]
    exact carries_fail rfl

/-- The first child and the others have other names. -/
theorem carries_firstOf (h : set.Renamed f set') {what : String}
    {next next' : NodeId → List NodeId → Script}
    (hnext : ∀ first rest, Carries f (next first rest) (next' (f first) (rest.map f))) :
    Carries f (firstOf set what next) (firstOf set' what next') := by
  unfold firstOf
  rw [h.children]
  cases set.children with
  | nil => exact carries_fail rfl
  | cons first rest => exact hnext first rest

/-- An operand has another name. -/
theorem carries_operand (h : set.Renamed f set') (expected slot : String) :
    Carries f (operand set expected slot) (operand set' expected slot) :=
  carries_one h fun child => ⟨by simp, by simp⟩

end Settings

end Script

/-- To put a child in front of its section is the same under other names. -/
theorem Sections.rename_put (parts : Sections) (child : NodeId) (n : Nat) :
    (parts.put child n).rename f = (parts.rename f).put (f child) n := by
  match n with
  | 0 | 1 | 2 => rfl
  | n + 3 => rfl

/-- Children with other names are split into the same sections. -/
theorem Sections.splitFrom_map {tag? tag?' : NodeId → Option Tag} {children : List NodeId}
    (h : ∀ child ∈ children, tag?' (f child) = tag? child) (current : Nat) :
    splitFrom tag?' current (children.map f) =
      ((splitFrom tag? current children).map (Sections.rename f)).mapError (Fault.rename f) := by
  induction children generalizing current with
  | nil => rfl
  | cons child rest ih =>
    obtain ⟨hchild, hrest⟩ := List.forall_mem_cons.mp h
    simp only [List.map_cons, splitFrom, hchild]
    split
    next => rfl
    next =>
      rw [ih hrest]
      cases splitFrom tag? (rank (tag? child)) rest with
      | error fault => rfl
      | ok parts =>
        simp only [Except.map, Except.mapError, bind, Except.bind, pure, Except.pure,
          Sections.rename_put]

/-- The sections are made of the children, and a fault is one of the node. -/
theorem Sections.splitFrom_own {tag? : NodeId → Option Tag} {children : List NodeId} {current : Nat}
    {fault : Fault} (h : splitFrom tag? current children = .error fault) :
    fault.isOwn = true := by
  induction children generalizing current with
  | nil => cases h
  | cons child rest ih =>
    rw [splitFrom] at h
    split at h
    next =>
      cases h
      rfl
    next =>
      cases hs : splitFrom tag? (rank (tag? child)) rest with
      | error fault' =>
        rw [hs] at h
        cases h
        exact ih hs
      | ok parts =>
        rw [hs] at h
        cases h

/-- The sections of a definition are the same under other names. -/
theorem Script.carries_sections {set set' : Setting} (h : set.Renamed f set')
    {next next' : Sections → Script}
    (hnext : ∀ parts : Sections,
      parts.annotations ++ parts.parameters ++ parts.returns ++ parts.body = set.children →
        Carries f (next parts) (next' (parts.rename f))) :
    Carries f (sections set next) (sections set' next') := by
  refine carries_checked (Sections.rename f) ?_ (fun fault => Sections.splitFrom_own)
    fun parts hparts => hnext parts (Sections.split_flatten hparts)
  rw [Sections.split, h.children]
  exact Sections.splitFrom_map h.tags 0

/-- A rule takes as many children under other names. -/
theorem ClauseRule.taken_map {tag? tag?' : NodeId → Option Tag} {children : List NodeId}
    (h : ∀ child ∈ children, tag?' (f child) = tag? child) (rule : ClauseRule) :
    rule.taken tag?' (children.map f) = rule.taken tag? children := by
  have hrun : ((children.map f).takeWhile fun child => tag?' child == some rule.tag).length =
      (children.takeWhile fun child => tag? child == some rule.tag).length := by
    induction children with
    | nil => rfl
    | cons child rest ih =>
      obtain ⟨hchild, hrest⟩ := List.forall_mem_cons.mp h
      simp only [List.map_cons, List.takeWhile_cons, hchild]
      split
      next => rw [List.length_cons, List.length_cons, ih hrest]
      next => rfl
  simp only [taken, hrun]

/-- Children with other names follow the same rules. -/
theorem ClauseRule.check_map {tag? tag?' : NodeId → Option Tag} (rules : List ClauseRule)
    {children : List NodeId} (h : ∀ child ∈ children, tag?' (f child) = tag? child) :
    check tag?' rules (children.map f) =
      ((check tag? rules children).map id).mapError (Fault.rename f) := by
  induction rules generalizing children with
  | nil =>
    cases children with
    | nil => rfl
    | cons child rest =>
      simp only [List.map_cons, check, h child List.mem_cons_self]
      rfl
  | cons rule rules ih =>
    simp only [check, taken_map h, ← List.map_drop]
    split
    next => rfl
    next => exact ih fun child hm => h child (List.mem_of_mem_drop hm)

/-- A fault of a sequence of clauses is one of the node. -/
theorem ClauseRule.check_own {tag? : NodeId → Option Tag} {rules : List ClauseRule}
    {children : List NodeId} {fault : Fault} (h : check tag? rules children = .error fault) :
    fault.isOwn = true := by
  induction rules generalizing children with
  | nil =>
    cases children with
    | nil => cases h
    | cons child rest =>
      cases h
      rfl
  | cons rule rules ih =>
    rw [check] at h
    split at h
    next =>
      cases h
      rfl
    next => exact ih h

/-- Clauses are the same under other names. -/
theorem Script.carries_clauses {set set' : Setting} (h : set.Renamed f set')
    (rules : List ClauseRule) {next next' : Script} (hnext : Carries f next next') :
    Carries f (clauses set rules next) (clauses set' rules next') := by
  refine carries_checked id ?_ (fun fault => ClauseRule.check_own) fun _ _ => hnext
  rw [h.children]
  exact ClauseRule.check_map rules h.tags

end SourceScribe
