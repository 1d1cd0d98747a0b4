import SourceScribe.Grammar.Clauses
import SourceScribe.Grammar.Sections

/-!
# What scripts ask for

A script hands children over to the traversal in a fixed order, and it is
clean when none of its pieces rejects the node. Scripts are built from few
combinators; what each of them asks for is said here once, so that the rules
of the grammar need not be opened piece by piece.
-/

namespace SourceScribe

/-- The children that a piece hands over, in order. -/
def Piece.calls : Piece → List NodeId
  | .required _ child => [child]
  | .group _ children => children
  | .braced _ children => children
  | _ => []

/-- Whether a piece rejects its node. -/
def Piece.isFault : Piece → Bool
  | .reject _ => true
  | _ => false

attribute [simp] Piece.calls Piece.isFault

namespace Script

/-- The children that a script hands over, in order. -/
def calls (s : Script) : List NodeId := s.flatMap Piece.calls

/-- No piece of the script rejects the node. -/
def Clean (s : Script) : Prop := ∀ p ∈ s, p.isFault = false

/-- A script asks for nothing but the given children, in order and each no more
often than it is given, and for all of them unless it rejects the node. -/
structure Covers (s : Script) (children : List NodeId) : Prop where
  /-- Nothing else is asked for. -/
  only : (calls s).Sublist children
  /-- Everything is asked for. -/
  all : Clean s → calls s = children

@[simp]
theorem calls_nil : calls [] = [] := rfl

@[simp]
theorem calls_cons (p : Piece) (s : Script) : calls (p :: s) = p.calls ++ calls s :=
  List.flatMap_cons

@[simp]
theorem calls_append (s t : Script) : calls (s ++ t) = calls s ++ calls t := List.flatMap_append

@[simp]
theorem clean_nil : Clean [] := by simp [Clean]

@[simp]
theorem clean_cons {p : Piece} {s : Script} : Clean (p :: s) ↔ p.isFault = false ∧ Clean s := by
  simp [Clean]

@[simp]
theorem clean_append {s t : Script} : Clean (s ++ t) ↔ Clean s ∧ Clean t := by
  simp [Clean, or_imp, forall_and]

@[simp]
theorem calls_flatMap {α : Type} (l : List α) (f : α → Script) :
    calls (l.flatMap f) = l.flatMap fun a => calls (f a) := List.flatMap_assoc

@[simp]
theorem clean_flatMap {α : Type} {l : List α} {f : α → Script} :
    Clean (l.flatMap f) ↔ ∀ a ∈ l, Clean (f a) := by
  simp only [Clean, List.mem_flatMap]
  constructor
  · intro h a ha p hp
    exact h p ⟨a, ha, hp⟩
  · rintro h p ⟨a, ha, hp⟩
    exact h a ha p hp

section Fragments

@[simp]
theorem calls_fail (fault : Fault) : calls (fail fault) = [] := rfl

@[simp]
theorem not_clean_fail (fault : Fault) : ¬Clean (fail fault) := by simp [fail]

@[simp]
theorem calls_demand (condition : Bool) (fault : Fault) : calls (demand condition fault) = [] := by
  cases condition <;> rfl

@[simp]
theorem clean_demand {condition : Bool} {fault : Fault} :
    Clean (demand condition fault) ↔ condition = true := by
  cases condition <;> simp [demand]

@[simp]
theorem calls_texts (values : List String) : calls (texts values) = [] := by
  simp [calls, texts, List.flatMap_map]

@[simp]
theorem clean_texts (values : List String) : Clean (texts values) := by
  simp [Clean, texts]

@[simp]
theorem calls_identifier (what value : String) : calls (identifier what value) = [] := by
  unfold identifier
  split
  · rfl
  · split <;> rfl

/-- The empty text is no identifier. -/
theorem isIdentifier_empty : Text.Name.isIdentifier "" = false := by decide

@[simp]
theorem clean_identifier {what value : String} :
    Clean (identifier what value) ↔ Text.Name.isIdentifier value = true := by
  unfold identifier
  split
  next h =>
    rw [String.isEmpty_iff.mp h, isIdentifier_empty]
    simp
  next => split <;> simp_all [Piece.isFault]

@[simp]
theorem calls_typeName (value : String) : calls (typeName value) = [] := by
  unfold typeName
  split <;> rfl

@[simp]
theorem clean_typeName {value : String} :
    Clean (typeName value) ↔ Text.Name.isTypeName value = true := by
  unfold typeName
  split <;> simp_all [Piece.isFault]

@[simp]
theorem calls_qualified (package : Option String) (name : String) :
    calls (qualified package name) = [] := by
  cases package <;> simp [qualified]

@[simp]
theorem clean_qualified {package : Option String} {name : String} :
    Clean (qualified package name) ↔
      (∀ p ∈ package, Text.Name.isIdentifier p = true) ∧ Text.Name.isIdentifier name = true := by
  cases package <;> simp [qualified]

@[simp]
theorem calls_typed (type what name : String) : calls (typed type what name) = [] := by
  simp [typed]

@[simp]
theorem clean_typed {type what name : String} :
    Clean (typed type what name) ↔
      Text.Name.isTypeName type = true ∧ Text.Name.isIdentifier name = true := by
  simp [typed]

@[simp]
theorem calls_childless (s : Setting) : calls (childless s) = [] := by simp [childless]

@[simp]
theorem clean_childless {s : Setting} : Clean (childless s) ↔ s.children = [] := by
  simp [childless]

@[simp]
theorem calls_arguments (s : Setting) : calls (arguments s) = s.children := by
  simp [arguments]

@[simp]
theorem clean_arguments (s : Setting) : Clean (arguments s) := by simp [arguments]

@[simp]
theorem calls_plain (children : List NodeId) : calls (plain children) = children := by
  simp [plain]

@[simp]
theorem clean_plain (children : List NodeId) : Clean (plain children) := by
  simp [plain]

@[simp]
theorem calls_block (children : List NodeId) : calls (block children) = children := by
  simp [block]

@[simp]
theorem clean_block (children : List NodeId) : Clean (block children) := by
  simp [block]

@[simp]
theorem calls_memberBlock (children : List NodeId) : calls (memberBlock children) = children := by
  simp [memberBlock]

@[simp]
theorem clean_memberBlock (children : List NodeId) : Clean (memberBlock children) := by
  simp [memberBlock]

@[simp]
theorem calls_requiredAll (slot separator : String) (children : List NodeId) :
    calls (requiredAll slot separator children) = children := by
  cases children with
  | nil => rfl
  | cons child rest => simp [requiredAll]

@[simp]
theorem clean_requiredAll (slot separator : String) (children : List NodeId) :
    Clean (requiredAll slot separator children) := by
  cases children <;> simp [requiredAll]

end Fragments

section Definitions

@[simp]
theorem calls_annotationLines (children : List NodeId) :
    calls (annotationLines children) = children := by
  simp [annotationLines]

@[simp]
theorem clean_annotationLines (children : List NodeId) : Clean (annotationLines children) := by
  simp [annotationLines]

@[simp]
theorem calls_parameterList (children : List NodeId) :
    calls (parameterList children) = children := by
  simp [parameterList]

@[simp]
theorem clean_parameterList (children : List NodeId) : Clean (parameterList children) := by
  simp [parameterList]

@[simp]
theorem calls_returnList (children : List NodeId) : calls (returnList children) = children := by
  cases children <;> simp [returnList]

@[simp]
theorem clean_returnList (children : List NodeId) : Clean (returnList children) := by
  cases children <;> simp [returnList]

@[simp]
theorem calls_noReturns (parts : Sections) : calls (noReturns parts) = [] := by simp [noReturns]

@[simp]
theorem clean_noReturns {parts : Sections} : Clean (noReturns parts) ↔ parts.returns = [] := by
  simp [noReturns]

@[simp]
theorem calls_modifiers (given allowed : Modifiers) : calls (modifiers given allowed) = [] := by
  unfold modifiers
  split <;> split <;> simp [Piece.calls]

@[simp]
theorem clean_modifiers {given allowed : Modifiers} :
    Clean (modifiers given allowed) ↔ allowed.contains given = true := by
  unfold modifiers
  split <;> split <;> simp [Piece.isFault]

@[simp]
theorem calls_body (children : List NodeId) : calls (body children) = children := by
  simp [body]

@[simp]
theorem clean_body (children : List NodeId) : Clean (body children) := by
  simp [body]

@[simp]
theorem clean_bodyUnlessNative {given : Modifiers} {children : List NodeId} :
    Clean (bodyUnlessNative given children) ↔
      (given.contains .isNative = true → children = []) := by
  unfold bodyUnlessNative
  split <;> simp_all [Piece.isFault]

/-- A body that is left out asks for nothing. -/
theorem calls_bodyUnlessNative (given : Modifiers) (children : List NodeId) :
    calls (bodyUnlessNative given children) =
      if given.contains .isNative then [] else children := by
  unfold bodyUnlessNative
  split <;> simp [Piece.calls]

@[simp]
theorem calls_header (word what name : String) : calls (header word what name) = [] := by
  simp [header]

@[simp]
theorem clean_header {word what name : String} :
    Clean (header word what name) ↔ Text.Name.isIdentifier name = true := by
  simp [header]

end Definitions

end Script

end SourceScribe
