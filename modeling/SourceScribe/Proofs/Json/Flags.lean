import SourceScribe.Construct.Codec

/-!
# Flags are read back

The text of a set of flags has bars between the flags, and white space around
the bars. The pieces between the bars are the flags again when the white space
is dropped, and the union of what they stand for is the set.
-/

namespace SourceScribe

namespace Text

/-- Nothing is dropped in front of other characters than white space. -/
theorem dropWhile_append_of_not_blank {text : List Char} (h : ∀ c ∈ text, isBlank c = false)
    (hne : text ≠ []) (rest : List Char) : (text ++ rest).dropWhile isBlank = text ++ rest := by
  cases text with
  | nil => exact absurd rfl hne
  | cons c text =>
    exact List.dropWhile_cons_of_neg (by rw [h c List.mem_cons_self]; exact Bool.false_ne_true)

/-- White space around other characters is dropped. -/
theorem dropBlanks_append {front middle back : List Char} (hf : ∀ c ∈ front, isBlank c = true)
    (hm : ∀ c ∈ middle, isBlank c = false) (hne : middle ≠ [])
    (hb : ∀ c ∈ back, isBlank c = true) : dropBlanks (front ++ middle ++ back) = middle := by
  have hback : dropBlanksBack (front ++ middle ++ back) = front ++ middle := by
    rw [dropBlanksBack, List.reverse_append, List.reverse_append,
      List.dropWhile_append_of_pos fun c hc => hb c (List.mem_reverse.mp hc),
      dropWhile_append_of_not_blank (fun c hc => hm c (List.mem_reverse.mp hc))
        (by simpa using hne),
      List.reverse_append, List.reverse_reverse, List.reverse_reverse]
  have hfront := dropWhile_append_of_not_blank hm hne []
  rw [List.append_nil] at hfront
  rw [dropBlanks, hback, dropBlanksFront, List.dropWhile_append_of_pos hf, hfront]

/-- Something is left of a text that begins with another character. -/
theorem dropBlanks_ne_nil {c : Char} (h : isBlank c = false) (rest : List Char) :
    dropBlanks (c :: rest) ≠ [] := by
  have hback : ∃ rest', dropBlanksBack (c :: rest) = c :: rest' := by
    rw [dropBlanksBack, List.reverse_cons, List.dropWhile_append]
    split
    next => exact ⟨[], by simp [h]⟩
    next => exact ⟨_, by rw [List.reverse_append]; rfl⟩
  obtain ⟨rest', hrest⟩ := hback
  rw [dropBlanks, hrest, dropBlanksFront,
    List.dropWhile_cons_of_neg (by rw [h]; exact Bool.false_ne_true)]
  exact List.cons_ne_nil c rest'

end Text

namespace Modifiers

/-- Characters of a flag: neither white space nor a bar. -/
def IsFlag (text : List Char) : Prop := text ≠ [] ∧ ∀ c ∈ text, Text.isBlank c = false ∧ c ≠ '|'

/-- Characters are checked one by one. -/
theorem isFlag_of_all {text : List Char} (hne : text ≠ [])
    (h : text.all (fun c => !Text.isBlank c && c != '|') = true) : IsFlag text :=
  ⟨hne, fun c hc => by simpa using List.all_eq_true.mp h c hc⟩

/-- The pieces between the bars of a text of flags, by what stands in front of
the first flag. -/
def pieces (front : List Char) : List (List Char) → List (List Char)
  | [] => []
  | [flag] => [front ++ flag]
  | flag :: next :: rest => (front ++ flag ++ [' ']) :: pieces [' '] (next :: rest)

/-- There is a piece for the first flag. -/
theorem pieces_ne_nil (front flag : List Char) (flags : List (List Char)) :
    pieces front (flag :: flags) ≠ [] := by
  cases flags <;> exact List.cons_ne_nil _ _

/-- Texts with something between them begin with the first. -/
theorem exists_intercalate_cons (between first : List Char) (rest : List (List Char)) :
    ∃ more, between.intercalate (first :: rest) = first ++ more := by
  cases rest with
  | nil => exact ⟨[], by simp [List.intercalate]⟩
  | cons second rest => exact ⟨_, List.intercalate_cons_cons.trans (List.append_assoc _ _ _)⟩

/-- With bars between them, the pieces are the text. -/
theorem intercalate_pieces (front : List Char) (flag : List Char) (flags : List (List Char)) :
    ['|'].intercalate (pieces front (flag :: flags)) =
      front ++ [' ', '|', ' '].intercalate (flag :: flags) := by
  induction flags generalizing front flag with
  | nil => simp [pieces, List.intercalate]
  | cons next flags ih =>
    have hnext := ih [' '] next
    obtain ⟨first, rest, hpieces⟩ := List.exists_cons_of_ne_nil (pieces_ne_nil [' '] next flags)
    rw [hpieces] at hnext
    rw [pieces, hpieces, List.intercalate_cons_cons, hnext, List.intercalate_cons_cons]
    simp

/-- Without the white space around them, the pieces are the flags. -/
theorem dropBlanks_pieces {front : List Char} (hf : ∀ c ∈ front, Text.isBlank c = true)
    {flags : List (List Char)} (h : ∀ flag ∈ flags, IsFlag flag) :
    (pieces front flags).map Text.dropBlanks = flags := by
  induction front, flags using pieces.induct with
  | case1 front => rfl
  | case2 front flag =>
    obtain ⟨hne, hflag⟩ := h flag List.mem_cons_self
    have hback : ∀ c ∈ ([] : List Char), Text.isBlank c = true := by simp
    have hdrop := Text.dropBlanks_append hf (fun c hc => (hflag c hc).1) hne hback
    rw [List.append_nil] at hdrop
    rw [pieces, List.map_singleton, hdrop]
  | case3 front flag next rest ih =>
    obtain ⟨hne, hflag⟩ := h flag List.mem_cons_self
    have hspace : ∀ c ∈ [' '], Text.isBlank c = true := fun c hc => by
      rw [List.mem_singleton.mp hc]
      rfl
    rw [pieces, List.map_cons, ih hspace fun flag hmem => h flag (List.mem_cons_of_mem _ hmem),
      Text.dropBlanks_append hf (fun c hc => (hflag c hc).1) hne hspace]

/-- There is no bar in a piece. -/
theorem not_mem_pieces {front : List Char} (hf : '|' ∉ front) {flags : List (List Char)}
    (h : ∀ flag ∈ flags, IsFlag flag) : ∀ piece ∈ pieces front flags, '|' ∉ piece := by
  have hbar : ∀ flag ∈ flags, '|' ∉ flag := fun flag hmem hc => ((h flag hmem).2 '|' hc).2 rfl
  clear h
  induction front, flags using pieces.induct with
  | case1 front => simp [pieces]
  | case2 front flag =>
    have hflag := hbar flag List.mem_cons_self
    simp [pieces, hf, hflag]
  | case3 front flag next rest ih =>
    have hflag := hbar flag List.mem_cons_self
    have hrest := ih (by decide) fun flag hmem => hbar flag (List.mem_cons_of_mem _ hmem)
    intro piece hmem
    rcases List.mem_cons.mp hmem with rfl | hmem
    · simp [hf, hflag]
    · exact hrest piece hmem

/-- The union of flags that are read one by one. -/
theorem foldlM_ofFlag {flags : List (String × Modifiers)}
    (h : ∀ flag ∈ flags, ofFlag flag.1 = .ok flag.2) (m : Modifiers) :
    (flags.map Prod.fst).foldlM (fun m flag => return m.union (← ofFlag flag)) m =
      (.ok ((flags.map Prod.snd).foldl union m) : Except Json.Reason Modifiers) := by
  induction flags generalizing m with
  | nil => rfl
  | cons flag flags ih =>
    rw [List.map_cons, List.foldlM_cons, h flag List.mem_cons_self]
    exact ih (fun flag hmem => h flag (List.mem_cons_of_mem _ hmem)) (m.union flag.2)

/-- Flags with bars between them are read as their union. -/
theorem ofText_intercalate {flags : List (String × Modifiers)} (hne : flags ≠ [])
    (h : ∀ flag ∈ flags, IsFlag flag.1.toList ∧ ofFlag flag.1 = .ok flag.2) :
    ofText (String.intercalate " | " (flags.map Prod.fst)) =
      .ok ((flags.map Prod.snd).foldl union empty) := by
  have htexts : ∀ text ∈ (flags.map Prod.fst).map String.toList, IsFlag text := by
    intro text hmem
    obtain ⟨name, hname, rfl⟩ := List.mem_map.mp hmem
    obtain ⟨flag, hflag, rfl⟩ := List.mem_map.mp hname
    exact (h flag hflag).1
  obtain ⟨flag, rest, rfl⟩ := List.exists_cons_of_ne_nil hne
  generalize hjoined : String.intercalate " | " ((flag :: rest).map Prod.fst) = text
  have htext : text.toList =
      [' ', '|', ' '].intercalate (((flag :: rest).map Prod.fst).map String.toList) := by
    rw [← hjoined, String.toList_intercalate]
    rfl
  have hblank : ¬ (Text.trim text).isEmpty = true := by
    obtain ⟨hne, hflag⟩ := htexts flag.1.toList (List.mem_map_of_mem List.mem_cons_self)
    obtain ⟨c, more, hc⟩ := List.exists_cons_of_ne_nil hne
    obtain ⟨tail, htail⟩ := exists_intercalate_cons [' ', '|', ' '] flag.1.toList
      ((rest.map Prod.fst).map String.toList)
    intro hempty
    have hnil := congrArg String.toList (String.isEmpty_iff.mp hempty)
    rw [Text.trim, String.toList_ofList, htext, List.map_cons, List.map_cons, htail, hc] at hnil
    exact Text.dropBlanks_ne_nil (hflag c (hc ▸ List.mem_cons_self)).1 _ hnil
  have hsplit : (text.toList.splitOn '|').map Text.dropBlanks =
      ((flag :: rest).map Prod.fst).map String.toList := by
    have hpieces := intercalate_pieces [] flag.1.toList ((rest.map Prod.fst).map String.toList)
    rw [List.nil_append] at hpieces
    rw [htext, List.map_cons, List.map_cons, ← hpieces, List.splitOn_intercalate]
    · exact dropBlanks_pieces (by simp) htexts
    · exact not_mem_pieces (by simp) htexts
    · exact pieces_ne_nil _ _ _
  have hnames : ((text.toList.splitOn '|').map Text.dropBlanks).map String.ofList =
      (flag :: rest).map Prod.fst := by
    rw [hsplit, List.map_map]
    simp
  rw [ofText, if_neg hblank, ← foldlM_ofFlag (fun flag hmem => (h flag hmem).2), ← hnames,
    List.foldlM_map, List.foldlM_map]
  simp only [Text.trim, String.toList_ofList]

/-- The flags of a set, with what each of them stands for. -/
def flags (m : Modifiers) : List (String × Modifiers) :=
  let others := m.without (isPublic.union isNative)
  named.filter (fun flag => m.contains flag.2) ++
    if others = empty then []
    else [("0x" ++ String.ofList (Nat.toDigits 16 others.bits.toNat), others)]

/-- The text of a set is that of its flags. -/
theorem text_eq_intercalate (m : Modifiers) :
    m.text = String.intercalate " | " (m.flags.map Prod.fst) := by
  by_cases h : m.without (isPublic.union isNative) = empty
  · simp only [text, flags, h, if_true, List.append_nil]
  · simp only [text, flags, h, if_false, List.map_append, List.map_cons, List.map_nil]

/-- The set is the union of its flags. -/
theorem foldl_flags (m : Modifiers) : (m.flags.map Prod.snd).foldl union empty = m := by
  have hall : ∀ n : Fin 256, ((flags ⟨.ofFin n⟩).map Prod.snd).foldl union empty = ⟨.ofFin n⟩ := by
    decide +kernel
  exact hall m.bits.toFin

/-- A flag without a name is read back from its number. -/
theorem ofHex?_toDigits (bits : UInt8) : ofHex? (Nat.toDigits 16 bits.toNat) = some bits := by
  have hall : ∀ n : Fin 256, ofHex? (Nat.toDigits 16 n.val) = some (.ofFin n) := by
    decide +kernel
  exact hall bits.toFin

/-- The number of a flag has neither white space nor a bar. -/
theorem isFlag_number (bits : UInt8) : IsFlag ('0' :: 'x' :: Nat.toDigits 16 bits.toNat) := by
  have hall : ∀ n : Fin 256, ('0' :: 'x' :: Nat.toDigits 16 n.val).all
      (fun c => !Text.isBlank c && c != '|') = true := by
    decide +kernel
  exact isFlag_of_all (List.cons_ne_nil _ _) (hall bits.toFin)

/-- The flags of a set are read back. -/
theorem ofFlag_of_mem_flags {m : Modifiers} {flag : String × Modifiers} (h : flag ∈ m.flags) :
    IsFlag flag.1.toList ∧ ofFlag flag.1 = .ok flag.2 := by
  rcases List.mem_append.mp h with hnamed | hothers
  · have hall : ∀ flag ∈ named, IsFlag flag.1.toList ∧ ofFlag flag.1 = .ok flag.2 := by
      simp only [named, List.forall_mem_cons]
      exact ⟨⟨isFlag_of_all (by decide) (by decide), rfl⟩,
        ⟨isFlag_of_all (by decide) (by decide), rfl⟩, by simp⟩
    exact hall flag (List.mem_filter.mp hnamed).1
  · split at hothers
    next => cases hothers
    next =>
      obtain rfl := List.mem_singleton.mp hothers
      have hchars : ∀ digits : List Char,
          ("0x" ++ String.ofList digits).toList = '0' :: 'x' :: digits := by simp
      refine ⟨?_, ?_⟩
      · rw [hchars]
        exact isFlag_number _
      · simp only [ofFlag, hchars, ofHex?_toDigits]

/-- A set of flags is read back from its text. -/
theorem ofText_text {m : Modifiers} (h : m ≠ empty) : ofText m.text = .ok m := by
  have hne : m.flags ≠ [] := by
    intro hnil
    have hfold := foldl_flags m
    rw [hnil] at hfold
    exact h hfold.symm
  rw [text_eq_intercalate, ofText_intercalate hne fun flag hmem => ofFlag_of_mem_flags hmem,
    foldl_flags]

end Modifiers

end SourceScribe
