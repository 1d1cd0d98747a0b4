import Mathlib.Computability.Language
import SourceScribe.Proofs.Delimiters

/-!
# Names as languages

The shapes of names, as regular expressions write them: classes of characters, put
together by concatenation, choice and repetition. Each check of a name accepts the texts
of its language and no others, although it looks at a text from its start to its end and
never goes back: a character that may go on with an identifier cannot begin what follows
one. The head of an invocation is the same for its open and its closed form.
-/

namespace SourceScribe.Text.Name

open Computability

/-- The texts of one character of a class. -/
def oneOf (p : Char → Prop) : Language Char := {text | ∃ c, p c ∧ text = [c]}

/-- A letter of ASCII or the underscore. -/
def Letter (c : Char) : Prop := ('A' ≤ c ∧ c ≤ 'Z') ∨ ('a' ≤ c ∧ c ≤ 'z') ∨ c = '_'

/-- A letter or digit of ASCII or the underscore. -/
def LetterOrDigit (c : Char) : Prop := Letter c ∨ ('0' ≤ c ∧ c ≤ '9')

/-- A letter or underscore, and then letters, digits and underscores. -/
def identifiers : Language Char := oneOf Letter * (oneOf LetterOrDigit)∗

/-- One or more identifiers with single dots between them. -/
def dottedNames : Language Char := identifiers * ({['.']} * identifiers)∗

/-- Nothing, or an identifier and a colon. -/
def packages : Language Char := 1 + identifiers * {[':']}

/-- What may stand inside a constraint. -/
def constrained : Language Char := oneOf fun c => c ≠ '<' ∧ c ≠ '>'

/-- One or more characters between angle brackets. -/
def constraints : Language Char := {['<']} * (constrained * constrained∗) * {['>']}

/-- What may follow the name of a type: a constraint or nothing, and any number of
bracket pairs. -/
def typeTails : Language Char := (1 + constraints) * {['[', ']']}∗

/-- An identifier, possibly behind a package, and what may follow the name of a type. -/
def typeNames : Language Char := packages * identifiers * typeTails

/-- A dotted name, possibly behind a package. -/
def callees : Language Char := packages * dottedNames

section Repetition

variable {p : Char → Prop} {L : Language Char} {c : Char} {text : List Char}

/-- A repeated class has the texts whose characters are in it. -/
theorem mem_oneOf_kstar : text ∈ (oneOf p)∗ ↔ ∀ c ∈ text, p c := by
  rw [Language.mem_kstar]
  constructor
  · rintro ⟨pieces, rfl, hpieces⟩ c hc
    obtain ⟨piece, hpiece, hmem⟩ := List.mem_flatten.mp hc
    obtain ⟨d, hd, rfl⟩ := hpieces piece hpiece
    rwa [List.mem_singleton.mp hmem]
  · intro h
    refine ⟨text.map fun c => [c], by rw [← List.flatMap_def]; simp, fun piece hpiece => ?_⟩
    obtain ⟨c, hc, rfl⟩ := List.mem_map.mp hpiece
    exact ⟨c, h c hc, rfl⟩

/-- A class and its repetition have the texts that are not empty and whose characters are in
the class. -/
theorem mem_oneOf_mul_kstar {q : Char → Prop} :
    text ∈ oneOf p * (oneOf q)∗ ↔ ∃ c rest, text = c :: rest ∧ p c ∧ ∀ d ∈ rest, q d := by
  rw [Language.mem_mul]
  constructor
  · rintro ⟨_, ⟨c, hc, rfl⟩, rest, hrest, rfl⟩
    exact ⟨c, rest, rfl, hc, mem_oneOf_kstar.mp hrest⟩
  · rintro ⟨c, rest, rfl, hc, hrest⟩
    exact ⟨[c], ⟨c, hc, rfl⟩, rest, mem_oneOf_kstar.mpr hrest, rfl⟩

/-- Pieces with a separator between them are the first piece and the others, each behind the
separator. -/
theorem intercalate_cons_eq (c : Char) (first : List Char) (rest : List (List Char)) :
    [c].intercalate (first :: rest) = first ++ (rest.map (c :: ·)).flatten := by
  induction rest generalizing first with
  | nil => simp
  | cons next rest ih =>
    rw [List.intercalate_cons_cons, ih next, List.map_cons, List.flatten_cons]
    simp

/-- Texts of a language with a separator between them. -/
theorem mem_separated : text ∈ L * ({[c]} * L)∗ ↔
    ∃ pieces, pieces ≠ [] ∧ (∀ piece ∈ pieces, piece ∈ L) ∧ text = [c].intercalate pieces := by
  have hrest {pieces : List (List Char)} : (∀ piece ∈ pieces, piece ∈ ({[c]} * L : Language Char)) →
      ∃ rest : List (List Char), (∀ piece ∈ rest, piece ∈ L) ∧ pieces = rest.map (c :: ·) := by
    induction pieces with
    | nil => exact fun _ => ⟨[], by simp, rfl⟩
    | cons piece pieces ih =>
      intro h
      obtain ⟨hpiece, hpieces⟩ := List.forall_mem_cons.mp h
      obtain ⟨rest, hmem, rfl⟩ := ih hpieces
      obtain ⟨_, rfl, name, hname, rfl⟩ := Language.mem_mul.mp hpiece
      exact ⟨name :: rest, List.forall_mem_cons.mpr ⟨hname, hmem⟩, rfl⟩
  constructor
  · intro h
    obtain ⟨first, hfirst, _, hmore, rfl⟩ := Language.mem_mul.mp h
    obtain ⟨pieces, rfl, hpieces⟩ := Language.mem_kstar.mp hmore
    obtain ⟨rest, hmem, rfl⟩ := hrest hpieces
    exact ⟨first :: rest, by simp, List.forall_mem_cons.mpr ⟨hfirst, hmem⟩,
      (intercalate_cons_eq c first rest).symm⟩
  · rintro ⟨pieces, hne, hmem, rfl⟩
    obtain ⟨first, rest, rfl⟩ := List.exists_cons_of_ne_nil hne
    obtain ⟨hfirst, hmore⟩ := List.forall_mem_cons.mp hmem
    rw [intercalate_cons_eq]
    refine Language.append_mem_mul hfirst (Language.join_mem_kstar fun piece hpiece => ?_)
    obtain ⟨name, hname, rfl⟩ := List.mem_map.mp hpiece
    exact Language.append_mem_mul (show [c] ∈ ({[c]} : Language Char) from rfl) (hmore name hname)

end Repetition

section Classes

variable {c : Char}

/-- The characters that may begin a name. -/
theorem isFirst_iff : isFirst c = true ↔ Letter c := by
  unfold isFirst Letter Char.isAlpha Char.isUpper Char.isLower
  simp only [Bool.or_eq_true, Bool.and_eq_true, decide_eq_true_eq, beq_iff_eq, or_assoc]
  rfl

/-- The characters that may follow in a name. -/
theorem isFollowing_iff : isFollowing c = true ↔ LetterOrDigit c := by
  have hdigit : c.isDigit = true ↔ '0' ≤ c ∧ c ≤ '9' := by
    simp only [Char.isDigit, Bool.and_eq_true, decide_eq_true_eq]
    rfl
  have hsplit : isFollowing c = (isFirst c || c.isDigit) := by
    rw [isFollowing, isFirst, Char.isAlphanum, Bool.or_right_comm]
  rw [hsplit, Bool.or_eq_true, isFirst_iff, hdigit, LetterOrDigit]

end Classes

variable {text name rest : List Char}

/-- Identifiers are the texts of their language. -/
theorem mem_identifiers : text ∈ identifiers ↔ identifier text = true := by
  rw [identifiers, mem_oneOf_mul_kstar]
  constructor
  · rintro ⟨c, rest, rfl, hc, hrest⟩
    rw [identifier, isFirst_iff.mpr hc, Bool.true_and, List.all_eq_true]
    exact fun d hd => isFollowing_iff.mpr (hrest d hd)
  · intro h
    cases text with
    | nil => cases h
    | cons c rest =>
      rw [identifier, Bool.and_eq_true, List.all_eq_true] at h
      exact ⟨c, rest, rfl, isFirst_iff.mp h.1, fun d hd => isFollowing_iff.mp (h.2 d hd)⟩

/-- A character that does not follow in names stands in no identifier. -/
theorem not_mem_of_mem_identifiers {c : Char} (hc : isFollowing c = false)
    (h : text ∈ identifiers) : c ∉ text := fun hmem => by
  have hfollowing := isFollowing_of_identifier (mem_identifiers.mp h) c hmem
  rw [hc] at hfollowing
  cases hfollowing

/-- Dotted names are the texts of their language. -/
theorem mem_dottedNames : text ∈ dottedNames ↔ dotted text = true := by
  rw [dottedNames, mem_separated, dotted, List.all_eq_true]
  constructor
  · rintro ⟨pieces, hne, hmem, rfl⟩
    have hdot : ∀ piece ∈ pieces, '.' ∉ piece := fun piece hpiece =>
      not_mem_of_mem_identifiers (by decide) (hmem piece hpiece)
    rw [List.splitOn_intercalate '.' hdot hne]
    exact fun piece hpiece => mem_identifiers.mp (hmem piece hpiece)
  · intro h
    exact ⟨text.splitOn '.', List.splitOn_ne_nil '.' text,
      fun piece hpiece => mem_identifiers.mpr (h piece hpiece), (List.intercalate_splitOn '.').symm⟩

/-- No colon stands in a dotted name. -/
theorem not_mem_of_mem_dottedNames (h : text ∈ dottedNames) : ':' ∉ text := fun hmem => by
  have hname : ∀ c, isFollowing c = true → c ≠ ':' := by
    rintro c hc rfl
    cases hc
  exact forall_mem_of_dotted hname (by decide) (mem_dottedNames.mp h) ':' hmem rfl

/-- Callees are the texts of their language. -/
theorem mem_callees : text ∈ callees ↔ callee text = true := by
  rw [callees, packages, Language.mem_mul]
  constructor
  · rintro ⟨package, hpackage, name, hname, rfl⟩
    have hplain := not_mem_of_mem_dottedNames hname
    rcases (Language.mem_add _ _ _).mp hpackage with rfl | hpackage
    · have hsplit : ([':'].intercalate [name]).splitOn ':' = [name] :=
        List.splitOn_intercalate ':' (List.forall_mem_singleton.mpr hplain) (by simp)
      rw [List.intercalate_singleton] at hsplit
      rw [List.nil_append, callee, hsplit]
      exact mem_dottedNames.mp hname
    · obtain ⟨owner, howner, _, rfl, rfl⟩ := Language.mem_mul.mp hpackage
      have hcolon : ∀ piece ∈ [owner, name], ':' ∉ piece := List.forall_mem_cons.mpr
        ⟨not_mem_of_mem_identifiers (by decide) howner, List.forall_mem_singleton.mpr hplain⟩
      have hsplit : ([':'].intercalate [owner, name]).splitOn ':' = [owner, name] :=
        List.splitOn_intercalate ':' hcolon (by simp)
      rw [List.intercalate_cons_cons, List.intercalate_singleton] at hsplit
      rw [callee, hsplit]
      simp only [mem_identifiers.mp howner, mem_dottedNames.mp hname, Bool.and_self]
  · intro h
    have htext : [':'].intercalate (text.splitOn ':') = text := List.intercalate_splitOn ':'
    unfold callee at h
    split at h
    next name hsplit =>
      rw [hsplit] at htext
      exact ⟨[], .inl rfl, name, mem_dottedNames.mpr h, by simpa using htext⟩
    next package name hsplit =>
      obtain ⟨hpackage, hname⟩ := Bool.and_eq_true_iff.mp h
      rw [hsplit] at htext
      have howned : package ++ [':'] ∈ identifiers * ({[':']} : Language Char) :=
        Language.append_mem_mul (mem_identifiers.mpr hpackage) rfl
      exact ⟨package ++ [':'], .inr howned, name, mem_dottedNames.mpr hname, by simpa using htext⟩
    next => cases h

/-- An identifier at the start of a text goes as far as characters that may follow. -/
theorem afterIdentifier_iff : afterIdentifier text = some rest ↔
    ∃ name ∈ identifiers, text = name ++ rest ∧ ∀ c ∈ rest.head?, isFollowing c = false := by
  constructor
  · intro h
    unfold afterIdentifier at h
    split at h
    next => cases h
    next c text =>
      split at h
      next hfirst =>
        cases h
        refine ⟨c :: text.takeWhile isFollowing, mem_identifiers.mpr ?_, by simp, ?_⟩
        · rw [identifier, hfirst, Bool.true_and]
          exact List.all_takeWhile
        · have hstop := List.head?_dropWhile_not isFollowing text
          intro d hd
          rwa [Option.mem_def.mp hd] at hstop
      next => cases h
  · rintro ⟨name, hname, rfl, hrest⟩
    have hid := mem_identifiers.mp hname
    cases name with
    | nil => cases hid
    | cons c name =>
      rw [identifier, Bool.and_eq_true, List.all_eq_true] at hid
      have hdrop : rest.dropWhile isFollowing = rest := by
        cases rest with
        | nil => rfl
        | cons d rest => rw [List.dropWhile_cons, if_neg (by simp [hrest d rfl])]
      rw [List.cons_append, afterIdentifier, if_pos hid.1, List.dropWhile_append_of_pos hid.2,
        hdrop]

/-- Bracket pairs are the texts of their language. -/
theorem mem_bracketPairs : text ∈ ({['[', ']']}∗ : Language Char) ↔ bracketPairs text = true := by
  constructor
  · intro h
    obtain ⟨pieces, rfl, hpieces⟩ := Language.mem_kstar.mp h
    induction pieces with
    | nil => rfl
    | cons piece pieces ih =>
      obtain ⟨rfl, hrest⟩ := List.forall_mem_cons.mp hpieces
      exact ih hrest (Language.join_mem_kstar hrest)
  · intro h
    fun_induction bracketPairs text with
    | case1 => exact Language.nil_mem_kstar _
    | case2 rest ih =>
      have hpair : ['[', ']'] ∈ ({['[', ']']} : Language Char) := rfl
      exact (mul_kstar_le_kstar : _ ≤ ({['[', ']']} : Language Char)∗)
        (Language.append_mem_mul hpair (ih h))
    | case3 => cases h

/-- What stands between angle brackets is one or more characters that are none. -/
theorem mem_constraints : text ∈ constraints ↔ ∃ inside, inside ≠ [] ∧
    (∀ c ∈ inside, isConstraint c = true) ∧ text = '<' :: inside ++ ['>'] := by
  have hclass (c : Char) : isConstraint c = true ↔ c ≠ '<' ∧ c ≠ '>' := by simp [isConstraint]
  rw [constraints, Language.mem_mul]
  constructor
  · rintro ⟨_, hopen, _, rfl, rfl⟩
    obtain ⟨_, rfl, _, hinside, rfl⟩ := Language.mem_mul.mp hopen
    obtain ⟨c, rest, rfl, hc, hrest⟩ := mem_oneOf_mul_kstar.mp hinside
    refine ⟨c :: rest, by simp, List.forall_mem_cons.mpr ⟨(hclass c).mpr hc, ?_⟩, rfl⟩
    exact fun d hd => (hclass d).mpr (hrest d hd)
  · rintro ⟨inside, hne, hinside, rfl⟩
    obtain ⟨c, rest, rfl⟩ := List.exists_cons_of_ne_nil hne
    obtain ⟨hc, hrest⟩ := List.forall_mem_cons.mp hinside
    have hmem : c :: rest ∈ constrained * constrained∗ := mem_oneOf_mul_kstar.mpr
      ⟨c, rest, rfl, (hclass c).mp hc, fun d hd => (hclass d).mp (hrest d hd)⟩
    exact ⟨'<' :: c :: rest, Language.append_mem_mul (a := ['<']) rfl hmem, ['>'], rfl, rfl⟩

/-- A text that does not begin with an angle bracket has no constraint. -/
theorem typeTail_of_head? (h : text.head? ≠ some '<') : typeTail text = bracketPairs text := by
  unfold typeTail
  split
  next => exact absurd rfl h
  next => rfl

/-- Behind a constraint there are bracket pairs. -/
theorem typeTail_of_constraint {inside after : List Char} (hne : inside ≠ [])
    (h : ∀ c ∈ inside, isConstraint c = true) :
    typeTail ('<' :: inside ++ '>' :: after) = bracketPairs after := by
  have htake : (inside ++ '>' :: after).takeWhile isConstraint = inside := by
    rw [List.takeWhile_append_of_pos h]
    simp [isConstraint]
  have hdrop : (inside ++ '>' :: after).dropWhile isConstraint = '>' :: after := by
    rw [List.dropWhile_append_of_pos h]
    simp [isConstraint]
  obtain ⟨c, rest, rfl⟩ := List.exists_cons_of_ne_nil hne
  rw [List.cons_append, typeTail]
  simp only [htake, hdrop]

/-- What may follow the name of a type are the texts of its language. -/
theorem mem_typeTails : text ∈ typeTails ↔ typeTail text = true := by
  rw [typeTails, Language.mem_mul]
  constructor
  · rintro ⟨front, hfront, pairs, hpairs, rfl⟩
    rw [mem_bracketPairs] at hpairs
    rcases (Language.mem_add _ _ _).mp hfront with rfl | hfront
    · rw [List.nil_append, typeTail_of_head?, hpairs]
      rintro hhead
      obtain ⟨rest, rfl⟩ := List.head?_eq_some_iff.mp hhead
      cases hpairs
    · obtain ⟨inside, hne, hinside, rfl⟩ := mem_constraints.mp hfront
      rw [List.append_assoc, List.singleton_append, typeTail_of_constraint hne hinside, hpairs]
  · intro h
    unfold typeTail at h
    split at h
    next rest =>
      split at h
      next c inside after htake hdrop =>
        have htext : rest = c :: inside ++ '>' :: after := by
          rw [← htake, ← hdrop, List.takeWhile_append_dropWhile]
        have hinside : ∀ d ∈ c :: inside, isConstraint d = true := fun d hd =>
          List.mem_takeWhile_imp (htake ▸ hd)
        have hfront : '<' :: (c :: inside) ++ ['>'] ∈ constraints :=
          mem_constraints.mpr ⟨_, by simp, hinside, rfl⟩
        refine ⟨_, .inr hfront, after, mem_bracketPairs.mpr h, ?_⟩
        rw [htext]
        simp
      next => cases h
    next => exact ⟨[], .inl rfl, text, mem_bracketPairs.mpr h, rfl⟩

/-- What may follow the name of a type does not go on with it, and is no colon. -/
theorem head?_of_mem_typeTails (h : text ∈ typeTails) :
    ∀ c ∈ text.head?, isFollowing c = false ∧ c ≠ ':' := by
  rw [mem_typeTails] at h
  intro c hc
  obtain ⟨rest, rfl⟩ := List.head?_eq_some_iff.mp hc
  by_cases hopen : c = '<'
  · rw [hopen]
    decide
  · rw [typeTail_of_head? (by simpa using hopen)] at h
    unfold bracketPairs at h
    split at h
    next heq => cases heq
    next heq =>
      cases heq
      decide
    next => cases h

/-- Type names are the texts of their language. -/
theorem mem_typeNames : text ∈ typeNames ↔ typeName text = true := by
  have hcolon : isFollowing ':' = false := by decide
  have hafter {name tail : List Char} (hname : name ∈ identifiers) (htail : tail ∈ typeTails) :
      afterIdentifier (name ++ tail) = some tail :=
    afterIdentifier_iff.mpr ⟨name, hname, rfl, fun c hc => (head?_of_mem_typeTails htail c hc).1⟩
  rw [typeNames, mul_assoc, packages, Language.mem_mul]
  constructor
  · rintro ⟨package, hpackage, _, hmore, rfl⟩
    obtain ⟨name, hname, tail, htail, rfl⟩ := Language.mem_mul.mp hmore
    rcases (Language.mem_add _ _ _).mp hpackage with rfl | hpackage
    · rw [List.nil_append, typeName, hafter hname htail]
      split
      next rest heq =>
        cases heq
        exact absurd rfl (head?_of_mem_typeTails htail ':' rfl).2
      next heq =>
        cases heq
        exact mem_typeTails.mp htail
      next heq => cases heq
    · obtain ⟨owner, howner, _, rfl, rfl⟩ := Language.mem_mul.mp hpackage
      have howned : afterIdentifier (owner ++ [':'] ++ (name ++ tail)) =
          some (':' :: (name ++ tail)) := afterIdentifier_iff.mpr
        ⟨owner, howner, by simp, by rintro c ⟨⟩; exact hcolon⟩
      rw [typeName, howned]
      simp only [hafter hname htail, mem_typeTails.mp htail]
  · intro h
    unfold typeName at h
    split at h
    next rest howned =>
      split at h
      next tail hnamed =>
        obtain ⟨owner, howner, rfl, -⟩ := afterIdentifier_iff.mp howned
        obtain ⟨name, hname, rfl, -⟩ := afterIdentifier_iff.mp hnamed
        refine ⟨owner ++ [':'], .inr (Language.append_mem_mul howner rfl), name ++ tail,
          Language.append_mem_mul hname (mem_typeTails.mpr h), by simp⟩
      next => cases h
    next tail _ hnamed =>
      obtain ⟨name, hname, rfl, -⟩ := afterIdentifier_iff.mp hnamed
      exact ⟨[], .inl rfl, name ++ tail, Language.append_mem_mul hname (mem_typeTails.mpr h), rfl⟩
    next => cases h

/-- The head of an invocation is a callee and a parenthesis, of the open form and of the
closed one. -/
theorem invocationHead?_iff {head : List Char} : invocationHead? text = some head ↔
    ∃ name ∈ callees, head = name ++ ['('] ∧ (text = head ∨ text = head ++ [')']) := by
  constructor
  · intro h
    unfold invocationHead? at h
    dsimp only at h
    split at h
    next hforms =>
      cases h
      simp only [Bool.and_eq_true, Bool.or_eq_true, beq_iff_eq] at hforms
      obtain ⟨hrest, hname⟩ := hforms
      have htext : text.takeWhile (· != '(') ++ text.dropWhile (· != '(') = text :=
        List.takeWhile_append_dropWhile
      refine ⟨_, mem_callees.mpr hname, rfl, ?_⟩
      rcases hrest with hrest | hrest
      · exact .inl (by rw [← hrest, htext])
      · exact .inr (by rw [List.append_assoc, List.singleton_append, ← hrest, htext])
    next => cases h
  · rintro ⟨name, hname, rfl, hforms⟩
    have hcallee := mem_callees.mp hname
    have hopen : ∀ c ∈ name, (c != '(') = true := forall_mem_of_callee
      (fun c hc => by rw [bne_iff_ne]; rintro rfl; cases hc) (by decide) (by decide) hcallee
    rcases hforms with rfl | rfl
    · rw [invocationHead?, List.takeWhile_append_of_pos hopen, List.dropWhile_append_of_pos hopen]
      simp [hcallee]
    · rw [List.append_assoc, invocationHead?, List.takeWhile_append_of_pos hopen,
        List.dropWhile_append_of_pos hopen]
      simp [hcallee]

/-- The open and the closed form have the same head. -/
theorem invocationHead?_closed (name : List Char) :
    invocationHead? (name ++ ['(']) = invocationHead? (name ++ ['('] ++ [')']) := by
  refine Option.ext fun head => ?_
  rw [invocationHead?_iff, invocationHead?_iff]
  refine exists_congr fun callee => and_congr_right fun _ => and_congr_right ?_
  rintro rfl
  have hdiffer : '(' ≠ ')' := by decide
  simp only [List.append_singleton_inj, hdiffer, hdiffer.symm, and_true, and_false, or_false,
    false_or]

/-- What is taken for the head of an invocation, as texts. -/
theorem invocation?_iff {text head : String} : invocation? text = some head ↔
    ∃ name ∈ callees, head = String.ofList name ++ "(" ∧ (text = head ∨ text = head ++ ")") := by
  have hopen (name : List Char) : String.ofList (name ++ ['(']) = String.ofList name ++ "(" :=
    String.ofList_append
  have hforms (head : List Char) : (text.toList = head ∨ text.toList = head ++ [')']) ↔
      (text = String.ofList head ∨ text = String.ofList head ++ ")") := by
    have hclosed : String.ofList head ++ ")" = String.ofList (head ++ [')']) :=
      String.ofList_append.symm
    rw [hclosed, ← String.toList_inj, ← String.toList_inj, String.toList_ofList,
      String.toList_ofList]
  rw [invocation?, Option.map_eq_some_iff]
  constructor
  · rintro ⟨chars, hchars, rfl⟩
    obtain ⟨name, hname, rfl, htext⟩ := invocationHead?_iff.mp hchars
    exact ⟨name, hname, hopen name, (hforms _).mp htext⟩
  · rintro ⟨name, hname, rfl, htext⟩
    rw [← hopen] at htext
    have hhead := invocationHead?_iff.mpr ⟨name, hname, rfl, (hforms _).mpr htext⟩
    exact ⟨name ++ ['('], hhead, hopen name⟩

/-- No name ends with a line end. -/
theorem not_dotted_newline (text : List Char) : dotted (text ++ ['\n']) = false := by
  rw [← Bool.not_eq_true]
  intro h
  have hchars := forall_mem_of_dotted (P := (· ≠ '\n')) (fun c hc => by rintro rfl; cases hc)
    (by decide) h
  exact hchars '\n' (by simp) rfl

/-- **Checks of names accept exactly their languages.** A text is accepted as an
identifier, as a dotted name or as the name of a type if and only if it is in the language
of that shape. The head of an invocation is found in a callee with an opening parenthesis,
and with a closing one behind it or not, and in nothing else. So no identifier and no dotted
name ends with a line end, the head of a head is the head itself, and the open and the closed
form have the same head. -/
theorem checks_accept_languages :
    (∀ text : String, isIdentifier text = true ↔ text.toList ∈ identifiers) ∧
      (∀ text : String, isDotted text = true ↔ text.toList ∈ dottedNames) ∧
      (∀ text : String, isTypeName text = true ↔ text.toList ∈ typeNames) ∧
      (∀ text head : String, invocation? text = some head ↔
        ∃ name ∈ callees, head = String.ofList name ++ "(" ∧ (text = head ∨ text = head ++ ")")) ∧
      (∀ text : String, invocation? text = none ↔ ∀ name ∈ callees,
        text ≠ String.ofList name ++ "(" ∧ text ≠ String.ofList name ++ "(" ++ ")") ∧
      (∀ text : String, isIdentifier (text ++ "\n") = false ∧ isDotted (text ++ "\n") = false) ∧
      (∀ text head : String, invocation? text = some head → invocation? head = some head) ∧
      ∀ text : String, invocation? (text ++ "(") = invocation? (text ++ "()") := by
  refine ⟨fun text => mem_identifiers.symm, fun text => mem_dottedNames.symm,
    fun text => mem_typeNames.symm, fun text head => invocation?_iff, fun text => ?_,
    fun text => ?_, fun text head h => ?_, fun text => ?_⟩
  · rw [Option.eq_none_iff_forall_ne_some]
    constructor
    · intro h name hname
      exact ⟨fun heq => h _ (invocation?_iff.mpr ⟨name, hname, rfl, .inl heq⟩),
        fun heq => h _ (invocation?_iff.mpr ⟨name, hname, rfl, .inr heq⟩)⟩
    · intro h head hhead
      obtain ⟨name, hname, rfl, hforms⟩ := invocation?_iff.mp hhead
      exact hforms.elim (h name hname).1 (h name hname).2
  · have hlist : (text ++ "\n").toList = text.toList ++ ['\n'] := String.toList_append
    rw [isIdentifier, isDotted, hlist]
    refine ⟨?_, not_dotted_newline text.toList⟩
    rw [← Bool.not_eq_true]
    intro h
    exact not_mem_of_mem_identifiers (c := '\n') (by decide) (mem_identifiers.mpr h) (by simp)
  · obtain ⟨name, hname, rfl, -⟩ := invocation?_iff.mp h
    exact invocation?_iff.mpr ⟨name, hname, rfl, .inl rfl⟩
  · have hopen : (text ++ "(").toList = text.toList ++ ['('] := String.toList_append
    have hclosed : (text ++ "()").toList = text.toList ++ ['('] ++ [')'] := by
      rw [String.toList_append, List.append_assoc]
      rfl
    rw [invocation?, invocation?, hopen, hclosed, invocationHead?_closed]

/-- A name with a package, dots and a closing parenthesis is taken down to its head. A
constraint may hold a line end, but no other constraint. -/
theorem checks_accept_languages_packagedNames :
    invocation? "http:client.get()" = some "http:client.get(" ∧
      invocation? "http:client.get(" = some "http:client.get(" ∧
      "sys:json<a\n>[][]".toList ∈ typeNames ∧ "json<a<b>>".toList ∉ typeNames ∧
      "a:b.c".toList ∉ dottedNames := by
  obtain ⟨_, hdotted, htype, _, _, _, hhead, _⟩ := checks_accept_languages
  have hclosed : invocation? "http:client.get()" = some "http:client.get(" := by decide +kernel
  refine ⟨hclosed, hhead _ _ hclosed, (htype _).mp (by decide +kernel), ?_, ?_⟩
  · rw [← htype]
    decide +kernel
  · rw [← hdotted]
    decide +kernel

end SourceScribe.Text.Name
