import SourceScribe.Proofs.Json.Flags
import SourceScribe.Proofs.Json.Records

/-!
# Constructs are restored

The fragments of a construct have the types that its kind declares, and each of
them is read back from the member that writes it, or stands for itself if the
member is left out. As the names of the members differ, the members give the
fragments in declared order, and these give the construct.
-/

namespace SourceScribe

open Json (Reason Value Spacing)

namespace Fragment

/-- The type of a fragment. -/
def type : Fragment → FragmentType
  | .text _ => .text
  | .optionalText _ => .optionalText
  | .modifiers _ => .modifiers
  | .binary _ => .binary
  | .unary _ => .unary
  | .literal _ => .literal

/-- A fragment is read back from the text that writes it, or it is left out and
stands for itself. -/
theorem toMember_cases (name : String) (f : Fragment) :
    (∃ text, f.toMember name = [(name, .string text)] ∧ f.type.read (.string text) = .ok f) ∨
      (f.toMember name = [] ∧ f.type.absent? = some f) := by
  cases f with
  | text s => exact .inl ⟨s, rfl, rfl⟩
  | optionalText o =>
    cases o with
    | none => exact .inr ⟨rfl, rfl⟩
    | some s => exact .inl ⟨s, rfl, rfl⟩
  | modifiers m =>
    by_cases h : m = .empty
    · subst h
      exact .inr ⟨rfl, rfl⟩
    · refine .inl ⟨m.text, by rw [toMember, if_neg h], ?_⟩
      simp only [type, FragmentType.read, Value.toText, bind, Except.bind, pure, Except.pure,
        Modifiers.ofText_text h]
  | binary op => exact .inl ⟨op.symbol, rfl, by cases op <;> rfl⟩
  | unary op => exact .inl ⟨op.symbol, rfl, by cases op <;> rfl⟩
  | literal t => exact .inl ⟨t.name, rfl, by cases t <;> rfl⟩

end Fragment

namespace Tag

/-- The type of a fragment is found under its name. -/
theorem lookup_fragments (t : Tag) :
    ∀ field ∈ t.fragments, t.fragments.lookup field.1 = some field.2 := by
  cases t <;> decide

/-- The names of fragments differ. -/
theorem nodup_fragments (t : Tag) : (t.fragments.map Prod.fst).Nodup := by
  cases t <;> decide

/-- No fragment has the name of the member that names the kind. -/
theorem fragments_ne_type (t : Tag) : ∀ field ∈ t.fragments, field.1 ≠ "type" := by
  cases t <;> decide

/-- A kind is found under its name. -/
theorem lookup_all (t : Tag) : (all.map fun t => (t.name, t)).lookup t.name = some t := by
  cases t <;> decide +kernel

end Tag

namespace Construct

/-- The fragments of a construct with their names, in declared order. -/
def namedFragments (c : Construct) : List (String × Fragment) :=
  (c.tag.fragments.map Prod.fst).zip c.fragments

/-- The fragments have the types that the kind declares. -/
theorem fragments_tag (c : Construct) :
    c.tag.fragments = c.namedFragments.map fun p => (p.1, p.2.type) := by
  cases c <;> rfl

/-- The fragments in declared order are those of the construct. -/
theorem map_snd_namedFragments (c : Construct) : c.namedFragments.map Prod.snd = c.fragments := by
  cases c <;> rfl

/-- A construct is known from its kind and its fragments. -/
theorem ofFragments?_fragments (c : Construct) : ofFragments? c.tag c.fragments = some c := by
  cases c <;> rfl

/-- The members that write fragments. -/
def fragmentMembers (fragments : List (String × Fragment)) : List (String × Value) :=
  fragments.flatMap fun p => p.2.toMember p.1

/-- A construct is written as the name of its kind and the members that write its
fragments. -/
theorem toValue_eq (c : Construct) :
    c.toValue = .object (("type", .string c.tag.name) :: fragmentMembers c.namedFragments) := by
  cases c <;> rfl

/-- The member that writes a fragment is read: the fragment is then found under its
name, or is left out and stands for itself, and other names are as before. -/
theorem readMembers_toMember {fields : List (String × FragmentType)} {name : String} {f : Fragment}
    {read : List (String × Fragment)} (hfield : fields.lookup name = some f.type)
    (hread : read.lookup name = none) (rest : List (String × Value)) :
    ∃ next, readMembers fields read (f.toMember name ++ rest) = readMembers fields next rest ∧
      (next.lookup name).or f.type.absent? = some f ∧
      ∀ other, other ≠ name → next.lookup other = read.lookup other := by
  rcases f.toMember_cases name with ⟨text, hmember, hf⟩ | ⟨hmember, hf⟩
  · refine ⟨(name, f) :: read, ?_, ?_, fun other hother => ?_⟩
    · rw [hmember]
      simp only [List.singleton_append, readMembers, hfield, hread, hf]
      rfl
    · rw [List.lookup_cons_self]
      rfl
    · rw [List.lookup_cons, beq_false_of_ne hother]
  · refine ⟨read, ?_, ?_, fun _ _ => rfl⟩
    · rw [hmember, List.nil_append]
    · rw [hread, Option.none_or]
      exact hf

/-- Members are read one by one: each fragment is then found under its name, or
is left out and stands for itself. -/
theorem readMembers_fragmentMembers {fields : List (String × FragmentType)}
    {fragments : List (String × Fragment)}
    (hfields : ∀ p ∈ fragments, fields.lookup p.1 = some p.2.type)
    (hnodup : (fragments.map Prod.fst).Nodup) {read : List (String × Fragment)}
    (hread : ∀ p ∈ fragments, read.lookup p.1 = none) :
    ∃ final, readMembers fields read (fragmentMembers fragments) = .ok final ∧
      (∀ p ∈ fragments, (final.lookup p.1).or p.2.type.absent? = some p.2) ∧
      ∀ name, name ∉ fragments.map Prod.fst → final.lookup name = read.lookup name := by
  induction fragments generalizing read with
  | nil => exact ⟨read, rfl, by simp, fun _ _ => rfl⟩
  | cons p fragments ih =>
    obtain ⟨hnew, hnodup⟩ := List.nodup_cons.mp hnodup
    obtain ⟨hfield, hfields⟩ := List.forall_mem_cons.mp hfields
    obtain ⟨hname, hread⟩ := List.forall_mem_cons.mp hread
    obtain ⟨next, hnext, hfirst, hkept⟩ :=
      readMembers_toMember hfield hname (fragmentMembers fragments)
    have hbefore : ∀ q ∈ fragments, next.lookup q.1 = none := fun q hq =>
      (hkept q.1 fun heq => hnew (List.mem_map.mpr ⟨q, hq, heq⟩)).trans (hread q hq)
    obtain ⟨final, hfinal, hfound, hothers⟩ := ih hfields hnodup hbefore
    refine ⟨final, ?_, ?_, fun other hother => ?_⟩
    · rw [fragmentMembers, List.flatMap_cons]
      exact hnext.trans hfinal
    · refine List.forall_mem_cons.mpr ⟨?_, hfound⟩
      rw [hothers p.1 hnew]
      exact hfirst
    · rw [List.map_cons, List.mem_cons, not_or] at hother
      rw [hothers other hother.2, hkept other hother.1]

/-- Fragments that are found under their names, or stand for themselves, are
arranged in declared order. -/
theorem arrange_fragments {read fragments : List (String × Fragment)}
    (h : ∀ p ∈ fragments, (read.lookup p.1).or p.2.type.absent? = some p.2) :
    arrange read (fragments.map fun p => (p.1, p.2.type)) = .ok (fragments.map Prod.snd) := by
  induction fragments with
  | nil => rfl
  | cons p fragments ih =>
    have hrest := ih fun p hp => h p (List.mem_cons_of_mem _ hp)
    simp only [List.map_cons, arrange, h p List.mem_cons_self, Json.required, hrest]
    rfl

/-- The construct is made from the members that write its fragments. -/
theorem ofContent_fragmentMembers (c : Construct) :
    ofContent c.tag (.members (fragmentMembers c.namedFragments)) = .ok c := by
  have hfields : ∀ p ∈ c.namedFragments, c.tag.fragments.lookup p.1 = some p.2.type := by
    intro p hp
    have hmem : (p.1, p.2.type) ∈ c.tag.fragments := by
      rw [fragments_tag]
      exact List.mem_map.mpr ⟨p, hp, rfl⟩
    exact c.tag.lookup_fragments _ hmem
  have hnames : c.namedFragments.map Prod.fst = c.tag.fragments.map Prod.fst := by
    rw [fragments_tag, List.map_map]
    rfl
  have hnone : ∀ p ∈ c.namedFragments, ([] : List (String × Fragment)).lookup p.1 = none :=
    fun _ _ => rfl
  obtain ⟨read, hread, hfound, _⟩ := readMembers_fragmentMembers hfields
    (hnames ▸ c.tag.nodup_fragments) hnone
  have harrange := arrange_fragments hfound
  rw [← fragments_tag, map_snd_namedFragments] at harrange
  simp only [ofContent, hread, bind, Except.bind, harrange, ofFragments?_fragments, Json.required]

/-- A member that writes a fragment has the name of the fragment and a text. -/
theorem of_mem_fragmentMembers {fragments : List (String × Fragment)} {m : String × Value}
    (h : m ∈ fragmentMembers fragments) : ∃ p ∈ fragments, ∃ text, m = (p.1, .string text) := by
  obtain ⟨p, hp, hm⟩ := List.mem_flatMap.mp h
  rcases p.2.toMember_cases p.1 with ⟨text, hmember, _⟩ | ⟨hmember, _⟩
  · rw [hmember] at hm
    exact ⟨p, hp, text, List.mem_singleton.mp hm⟩
  · rw [hmember] at hm
    cases hm

/-- The members of a construct have names of their own, and texts. -/
theorem of_mem_namedFragments (c : Construct) {m : String × Value}
    (h : m ∈ fragmentMembers c.namedFragments) : m.1 ≠ "type" ∧ ∃ text, m.2 = .string text := by
  obtain ⟨p, hp, text, rfl⟩ := of_mem_fragmentMembers h
  have hmem : (p.1, p.2.type) ∈ c.tag.fragments := by
    rw [fragments_tag]
    exact List.mem_map.mpr ⟨p, hp, rfl⟩
  exact ⟨c.tag.fragments_ne_type _ hmem, text, rfl⟩

/-- A construct is written as a plain value. -/
theorem plain_toValue (c : Construct) : c.toValue.Plain := by
  rw [toValue_eq]
  refine ⟨trivial, Value.plainMembers_iff.mpr fun m hm => ?_⟩
  obtain ⟨_, text, htext⟩ := c.of_mem_namedFragments hm
  rw [htext]
  trivial

/-- A construct is written with one bracket. -/
theorem levels_toValue (c : Construct) : c.toValue.levels ≤ 1 := by
  rw [toValue_eq]
  refine Nat.succ_le_succ (Value.levelsOfMembers_le_iff.mpr fun m hm => ?_)
  rcases List.mem_cons.mp hm with rfl | hm
  · exact Nat.le_refl 0
  · obtain ⟨_, text, htext⟩ := c.of_mem_namedFragments hm
    rw [htext]
    exact Nat.le_refl 0

open Json.Decoder

/-- The name of a kind is taken. -/
theorem takes_decodeTag (t : Tag) : decodeTag.Takes (Json.stringChars t.name) t := by
  refine takes_token (by decide) fun rest _ => ?_
  refine (reads_advance '"' _).bind ?_
  refine (reads_stringBody t.name rest).andThen ?_
  rw [readTag, Value.chosen, t.lookup_all]
  exact reads_pure t rest

/-- Texts of members are collected, the last of them first. -/
theorem fills_members {l : Json.Limits} (s : Spacing) (depth : Nat) (t : Tag)
    {members : List (String × Value)}
    (h : ∀ m ∈ members, m.1 ≠ "type" ∧ ∃ text, m.2 = .string text) (done : List (String × Value)) :
    Fills s (decodeMember l) (some t, done) (named s depth members)
      (some t, members.reverse ++ done) := by
  induction members generalizing done with
  | nil => exact .nil _
  | cons m members ih =>
    obtain ⟨name, v⟩ := m
    obtain ⟨hname, text, rfl⟩ := h _ List.mem_cons_self
    have hmore := ih (fun m hm => h m (List.mem_cons_of_mem _ hm)) ((name, .string text) :: done)
    rw [List.reverse_cons, List.append_assoc]
    refine .cons (fun rest hr => ?_) hmore
    have hvalue := takes_valueAt_plain s (v := .string text) trivial rfl l.steps l.depth (depth + 1)
    unfold decodeMember
    rw [if_neg hname]
    exact reads_behind_colon s (hvalue.andThen fun rest => reads_pure _ rest) hr

/-- A construct is restored. -/
theorem restores_decoder {l : Json.Limits} (hl : 0 < l.depth) (c : Construct) :
    (decoder l).Restores l.steps c.toValue c := by
  intro s depth hsteps
  have hlength : (named s depth
      (("type", .string c.tag.name) :: fragmentMembers c.namedFragments)).length < l.steps := by
    rw [toValue_eq] at hsteps
    rw [named, List.length_map]
    exact Nat.lt_trans (s.length_members depth _) hsteps
  have htag : ∀ rest, Json.Ends rest → (decodeMember l.inside "type" (none, [])).Reads
      (':' :: s.gap ++ Json.stringChars c.tag.name) (some c.tag, []) rest := fun rest hr =>
    reads_behind_colon s ((takes_decodeTag c.tag).andThen fun rest => reads_pure _ rest) hr
  have hfills : Fills s (decodeMember l.inside) (none, [])
      (named s depth (("type", .string c.tag.name) :: fragmentMembers c.namedFragments))
      (some c.tag, (fragmentMembers c.namedFragments).reverse ++ []) :=
    .cons htag (fills_members s depth c.tag (fun _ => c.of_mem_namedFragments) [])
  have hcontent : (decodeContent l).Takes (s.chars depth c.toValue)
      (c.tag, .members (fragmentMembers c.namedFragments)) := by
    rw [toValue_eq, chars_object_named]
    refine takes_token (by decide) fun rest _ => ?_
    refine reads_object s depth hl hfills hlength (fun rest => ?_) rest
    simp only [List.append_nil, List.reverse_reverse]
    exact reads_pure _ rest
  refine hcontent.andThen fun rest => ?_
  simp only [ofContent_fragmentMembers]
  exact reads_pure c rest

end Construct

end SourceScribe
