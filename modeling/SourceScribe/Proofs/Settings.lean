import SourceScribe.Project.Config
import SourceScribe.Proofs.Json.Agreement

/-!
# Options are read alike

The options of generation are read either straight from a text or from among the
members of a configuration. A configuration keeps the values of the members that
are not its own and checks them at the end; the other reader checks every option
where it stands and passes over all other members. Both go through the members
of the object that stands in the text, so an accepted configuration has the
options that are read from its text, and they depend on its option members only.
-/

namespace SourceScribe

open Json (Cursor Decoder Limits Reason Value)
open Json.Decoder

namespace Options

/-- The names of the options. -/
def names : List String := fields.map (·.name)

/-- A member leads from one draft to another: an option that was not there is put into
its place, and any other member is left out. -/
inductive Taken (d : Draft) : String → Value → Draft → Prop
  | indent (text : String) : d.indent = none →
    Taken d "indent" (.string text) { d with indent := some text }
  | argumentSeparator (text : String) : d.argumentSeparator = none →
    Taken d "argumentSeparator" (.string text) { d with argumentSeparator := some text }
  | maxDepth {v : Value} {n : Nat} : d.maxDepth = none → v.toWord .size = .ok n →
    Taken d "maxDepth" v { d with maxDepth := some n }
  | blankLineBetweenDefinitions (b : Bool) : d.blankLineBetweenDefinitions = none →
    Taken d "blankLineBetweenDefinitions" (.bool b)
      { d with blankLineBetweenDefinitions := some b }
  | other {name : String} {v : Value} : name ∉ names → Taken d name v d

/-- A value that is taken as a string is one. -/
theorem of_toText {expected text : String} {v : Value} (h : v.toText expected = .ok text) :
    v = .string text := by
  cases v with
  | string s =>
    cases h
    rfl
  | _ => cases h

/-- A value that is taken as a truth value is one. -/
theorem of_toBool {b : Bool} {v : Value} (h : v.toBool = .ok b) : v = .bool b := by
  cases v with
  | bool b' =>
    cases h
    rfl
  | _ => cases h

/-- What is taken once and read has not been there and has been read. -/
theorem of_once {α : Type} {name : String} {o : Option α} {read : Except Reason α}
    {put : α → Draft} {d : Draft}
    (h : (if o.isSome then Except.error (Reason.repeatedMember name)
      else do return put (← read)) = .ok d) : o = none ∧ ∃ a, read = .ok a ∧ d = put a := by
  cases o with
  | some _ => cases h
  | none =>
    cases read with
    | error reason => cases h
    | ok a =>
      cases h
      exact ⟨rfl, a, rfl, rfl⟩

/-- A member that is taken leads to another draft. -/
theorem taken_of_takeMember {d d' : Draft} {name : String} {v : Value}
    (h : takeMember d name v = .ok d') : Taken d name v d' := by
  unfold takeMember at h
  split at h
  next =>
    obtain ⟨hnone, text, hv, rfl⟩ := of_once h
    rw [of_toText hv]
    exact .indent text hnone
  next =>
    obtain ⟨hnone, text, hv, rfl⟩ := of_once h
    rw [of_toText hv]
    exact .argumentSeparator text hnone
  next =>
    obtain ⟨hnone, n, hv, rfl⟩ := of_once h
    exact .maxDepth hnone hv
  next =>
    obtain ⟨hnone, b, hv, rfl⟩ := of_once h
    rw [of_toBool hv]
    exact .blankLineBetweenDefinitions b hnone
  next hindent hseparator hdepth hblank =>
    cases h
    refine .other fun hmem => ?_
    simp only [names, fields, Json.Member.of, List.map_cons, List.map_nil, List.mem_cons,
      List.not_mem_nil, or_false] at hmem
    rcases hmem with rfl | rfl | rfl | rfl
    · exact hindent rfl
    · exact hseparator rfl
    · exact hdepth rfl
    · exact hblank rfl

/-- The option members say what a draft holds: what was there before, and what they hold. -/
structure Collected (d : Draft) (members : List (String × Value)) (d' : Draft) : Prop where
  /-- One level of indentation. -/
  indent : ∀ text, d'.indent = some text ↔
    d.indent = some text ∨ ("indent", .string text) ∈ members
  /-- What stands between arguments, items and entries. -/
  argumentSeparator : ∀ text, d'.argumentSeparator = some text ↔
    d.argumentSeparator = some text ∨ ("argumentSeparator", .string text) ∈ members
  /-- The number of nodes that may lie on a path. -/
  maxDepth : ∀ n, d'.maxDepth = some n ↔
    d.maxDepth = some n ∨ ∃ v, ("maxDepth", v) ∈ members ∧ v.toWord .size = .ok n
  /-- Whether a blank line stands between definitions. -/
  blankLineBetweenDefinitions : ∀ b, d'.blankLineBetweenDefinitions = some b ↔
    d.blankLineBetweenDefinitions = some b ∨
      ("blankLineBetweenDefinitions", .bool b) ∈ members

/-- Without members nothing changes. -/
theorem collected_nil (d : Draft) : Collected d [] d := by
  constructor <;> simp

/-- Members are collected one behind the other. -/
theorem Collected.trans {d next d' : Draft} {members more : List (String × Value)}
    (h : Collected d members next) (h' : Collected next more d') :
    Collected d (members ++ more) d' := by
  constructor
  · intro text
    rw [h'.indent, h.indent, List.mem_append, or_assoc]
  · intro text
    rw [h'.argumentSeparator, h.argumentSeparator, List.mem_append, or_assoc]
  · intro n
    simp only [h'.maxDepth, h.maxDepth, List.mem_append, or_and_right, exists_or, or_assoc]
  · intro b
    rw [h'.blankLineBetweenDefinitions, h.blankLineBetweenDefinitions, List.mem_append, or_assoc]

/-- One member is collected. -/
theorem Taken.collected {d d' : Draft} {name : String} {v : Value} (h : Taken d name v d') :
    Collected d [(name, v)] d' := by
  cases h with
  | indent text hnone => constructor <;> simp [hnone, eq_comm]
  | argumentSeparator text hnone => constructor <;> simp [hnone, eq_comm]
  | maxDepth hnone hn => constructor <;> simp [hnone, hn]
  | blankLineBetweenDefinitions b hnone => constructor <;> simp [hnone, eq_comm]
  | other hname =>
    have hne : ∀ name' ∈ names, name' ≠ name := fun name' hmem heq => hname (heq ▸ hmem)
    simp only [names, fields, Json.Member.of, List.map_cons, List.map_nil, List.forall_mem_cons]
      at hne
    constructor <;> simp [hne]

/-- All members that are taken are collected. -/
theorem collected_of_foldlM {members : List (String × Value)} {d d' : Draft}
    (h : members.foldlM (fun d m => takeMember d m.1 m.2) d = .ok d') : Collected d members d' := by
  induction members generalizing d with
  | nil =>
    cases h
    exact collected_nil _
  | cons m members ih =>
    rw [List.foldlM_cons] at h
    cases htake : takeMember d m.1 m.2 with
    | error reason =>
      rw [htake] at h
      cases h
    | ok next =>
      rw [htake] at h
      exact (taken_of_takeMember htake).collected.trans (ih h)

/-- What is the same is held as the same. -/
theorem eq_of_held {α : Type} {o o' : Option α} {Held Held' : α → Prop}
    (h : ∀ a, o = some a ↔ none = some a ∨ Held a) (h' : ∀ a, o' = some a ↔ none = some a ∨ Held' a)
    (hsame : ∀ a, Held a ↔ Held' a) : o = o' :=
  Option.ext fun a => (h a).trans ((or_congr Iff.rfl (hsame a)).trans (h' a).symm)

/-- Drafts from members with the same options hold the same. -/
theorem Collected.unique {d d' : Draft} {members members' : List (String × Value)}
    (h : Collected {} members d) (h' : Collected {} members' d')
    (hsame : ∀ name ∈ names, ∀ v, (name, v) ∈ members ↔ (name, v) ∈ members') : d = d' := by
  have hindent : d.indent = d'.indent :=
    eq_of_held h.indent h'.indent fun _ => hsame "indent" (by decide) _
  have hseparator : d.argumentSeparator = d'.argumentSeparator :=
    eq_of_held h.argumentSeparator h'.argumentSeparator fun _ =>
      hsame "argumentSeparator" (by decide) _
  have hdepth : d.maxDepth = d'.maxDepth := eq_of_held h.maxDepth h'.maxDepth fun _ =>
    exists_congr fun v => and_congr (hsame "maxDepth" (by decide) v) Iff.rfl
  have hblank : d.blankLineBetweenDefinitions = d'.blankLineBetweenDefinitions :=
    eq_of_held h.blankLineBetweenDefinitions h'.blankLineBetweenDefinitions fun _ =>
      hsame "blankLineBetweenDefinitions" (by decide) _
  cases d
  cases d'
  congr

/-- The options of members come from a draft that the members lead to. -/
theorem of_ofMembers {members : List (String × Value)} {o : Options}
    (h : ofMembers members = .ok o) :
    ∃ d, members.foldlM (fun d m => takeMember d m.1 m.2) {} = .ok d ∧ ofDraft d = o := by
  have hfold : ofMembers members =
      ofDraft <$> members.foldlM (fun d m => takeMember d m.1 m.2) {} := rfl
  rw [hfold] at h
  cases hd : members.foldlM (fun d m => takeMember d m.1 m.2) ({} : Draft) with
  | error reason =>
    rw [hd] at h
    cases h
  | ok d =>
    rw [hd] at h
    cases h
    exact ⟨d, rfl, rfl⟩

/-- The options of members depend on the option members among them only. -/
theorem ofMembers_unique {members members' : List (String × Value)} {o o' : Options}
    (h : ofMembers members = .ok o) (h' : ofMembers members' = .ok o')
    (hsame : ∀ name ∈ names, ∀ v, (name, v) ∈ members ↔ (name, v) ∈ members') : o = o' := by
  obtain ⟨d, hd, rfl⟩ := of_ofMembers h
  obtain ⟨d', hd', rfl⟩ := of_ofMembers h'
  rw [(collected_of_foldlM hd).unique (collected_of_foldlM hd') hsame]

/-- A member that is no option is left out. -/
theorem takeMember_of_not_mem {name : String} (h : name ∉ names) (d : Draft) (v : Value) :
    takeMember d name v = .ok d := by
  unfold takeMember
  split
  next => exact absurd (by decide) h
  next => exact absurd (by decide) h
  next => exact absurd (by decide) h
  next => exact absurd (by decide) h
  next => rfl

/-- Members that are no options do not matter to the options of members. -/
theorem ofMembers_filter {keep : String × Value → Bool}
    (h : ∀ m, keep m = false → m.1 ∉ names) (members : List (String × Value)) :
    ofMembers (members.filter keep) = ofMembers members := by
  have hfold : ∀ d : Draft,
      (members.filter keep).foldlM (fun d m => takeMember d m.1 m.2) d =
        members.foldlM (fun d m => takeMember d m.1 m.2) d := by
    induction members with
    | nil => exact fun _ => rfl
    | cons m members ih =>
      intro d
      cases hkeep : keep m with
      | true =>
        rw [List.filter_cons_of_pos hkeep, List.foldlM_cons, List.foldlM_cons]
        exact congrArg _ (funext ih)
      | false =>
        rw [List.filter_cons_of_neg (by simp [hkeep]), List.foldlM_cons,
          takeMember_of_not_mem (h m hkeep), ih]
        rfl
  exact congrArg (ofDraft <$> ·) (hfold {})

section Reading

variable {c mid after : Cursor} {l : Limits} {steps depth : Nat}

/-- A known member that is not there yet is read behind its colon. -/
theorem recordMember_of_known {σ : Type} {fields : List (Json.Member σ)} {name : String}
    {field : Json.Member σ} {s s' : σ} (hfind : fields.find? (·.name == name) = some field)
    (hgiven : field.given s = false) (hcolon : colon c = .ok ((), mid))
    (hread : field.read l s mid = .ok (s', after)) :
    recordMember l fields name s c = .ok (s', after) := by
  unfold recordMember
  simp only [hfind, hgiven, Bool.false_eq_true, if_false]
  exact (bind_of_ok hcolon).trans hread

/-- A member that nobody asks for is passed over behind its colon. -/
theorem recordMember_of_unknown {σ : Type} {fields : List (Json.Member σ)} {name : String}
    {s : σ} (hfind : fields.find? (·.name == name) = none) (hcolon : colon c = .ok ((), mid))
    (hpass : pass l mid = .ok ((), after)) : recordMember l fields name s c = .ok (s, after) := by
  unfold recordMember
  simp only [hfind]
  exact (bind_of_ok hcolon).trans (bind_of_ok hpass)

/-- What is taken as a value is read where the value stands. -/
theorem Taken.read {d d' : Draft} {name : String} {v : Value} (h : Taken d name v d')
    (hlength : mid.rest.length < 2 * l.steps) (hcolon : colon c = .ok ((), mid))
    (hv : valueAt steps depth mid = .ok (v, after)) :
    recordMember l fields name d c = .ok (d', after) := by
  cases h with
  | indent text hnone =>
    exact recordMember_of_known rfl (by simp [hnone, Json.Member.of]) hcolon
      (bind_of_ok (string_of_valueAt hv))
  | argumentSeparator text hnone =>
    exact recordMember_of_known rfl (by simp [hnone, Json.Member.of]) hcolon
      (bind_of_ok (string_of_valueAt hv))
  | maxDepth hnone hn =>
    exact recordMember_of_known rfl (by simp [hnone, Json.Member.of]) hcolon
      (bind_of_ok (natural_of_valueAt hv hn))
  | blankLineBetweenDefinitions b hnone =>
    exact recordMember_of_known rfl (by simp [hnone, Json.Member.of]) hcolon
      (bind_of_ok (bool_of_valueAt hv))
  | other hname =>
    have hfind : fields.find? (·.name == name) = none := List.find?_eq_none.mpr
      fun field hfield heq => hname (List.mem_map.mpr ⟨field, hfield, eq_of_beq heq⟩)
    exact recordMember_of_unknown hfind hcolon
      (pass_of_passedOver (passedOver_of_valueAt hv) hlength)

/-- Options that are found among the members of the object in a text are read from the text. -/
theorem ofJson_of_members {text : String} {members : List (String × Value)} {o : Options}
    (h : Json.decode Json.Decoder.value text = .ok (.object members))
    (ho : ofMembers members = .ok o) : ofJson text = .ok o := by
  obtain ⟨after, hread, hafter⟩ := Json.decode_eq_ok_iff.mp h
  obtain ⟨rest, found, mid, hrest, rfl, hmembers, hmid, rfl⟩ := of_valueAt_object hread
  obtain ⟨d, hd, rfl⟩ := of_ofMembers ho
  have hread : ∀ name v s s' c mid after, c.rest.length ≤ text.toList.length →
      colon c = .ok ((), mid) → valueAt (text.toList.length + 1) 126 mid = .ok (v, after) →
        takeMember s name v = .ok s' →
          recordMember (Limits.ofText text.toList).inside fields name s c = .ok (s', after) := by
    intro name v s s' c mid after hc hcolon hv htake
    have hmid := length_colon hcolon
    refine (taken_of_takeMember htake).read ?_ hcolon hv
    simp only [Limits.inside, Limits.ofText]
    omega
  have hstart := Nat.le_trans (length_next _)
    (Cursor.length_atToken ⟨text.toList, .start⟩)
  obtain ⟨added, rfl, hadded⟩ := membersLoop_of_collect hread _ true hstart hmembers
  rw [List.append_nil, List.reverse_reverse] at hd
  refine Json.decode_eq_ok_iff.mpr ⟨_, ?_, hafter⟩
  rw [decoder, record, token_of_rest _ _ hrest]
  exact enclosed_of_ok (Nat.succ_ne_zero 126) (bind_of_ok (hadded {} d hd)) hmid

end Reading

end Options

namespace ProjectConfig

variable {c after : Cursor} {l : Limits}

/-- A path is a value. -/
theorem pathText_readsValues : fields.pathText.ReadsValues := by
  refine readsValues_of fun c text after steps depth h => ⟨.string text, ?_⟩
  obtain ⟨ch, rest, hrest, h⟩ := of_token h
  split at h
  next hquote =>
    rw [hquote] at hrest
    exact valueAt_of_read hrest (.string ((bind_advance _ _).symm.trans h))
  next => exact absurd h mismatch_ne_ok

/-- The other members of a draft are those of an object that are not its own. -/
def Mirrors (d : Draft) (members : List (String × Value)) : Prop :=
  d.others = members.filter fun m => (fields.find? (·.name == m.1)).isNone

/-- A member that is put in its place is read like a value, and the others stay. -/
theorem member_followedBy {α : Type} {name : String} {optional : Bool} {read : Decoder α}
    {get : Draft → Option α} {put : α → Draft → Draft} (h : read.ReadsValues) (steps depth : Nat)
    {d : Draft} (hput : ∀ a, (put a d).others = d.others) :
    ((Json.Member.of name optional (fun _ => read) get put).read l d).FollowedBy
      (valueAt steps depth) 0 fun d' _ => d'.others = d.others :=
  (h steps depth).andThen fun a _ _ => followedBy_pure (hput a)

/-- Own members are read like values, and the others stay. -/
theorem fields_followedBy {field : Json.Member Draft} (h : field ∈ fields) (d : Draft)
    (steps depth : Nat) : (field.read l d).FollowedBy (valueAt steps depth) 0
      fun d' _ => d'.others = d.others := by
  simp only [fields, List.mem_cons, List.not_mem_nil, or_false] at h
  rcases h with rfl | rfl | rfl
  · exact member_followedBy pathText_readsValues.nullable steps depth fun _ => rfl
  · exact member_followedBy bool_readsValues steps depth fun _ => rfl
  · exact member_followedBy bool_readsValues steps depth fun _ => rfl

/-- Every member of a configuration is a member of an object. -/
theorem decodeMember_followedBy (name : String) {d : Draft} {members : List (String × Value)}
    (h : Mirrors d members) :
    (decodeMember l name d).FollowedBy (collect l.steps l.depth name members) 0 Mirrors := by
  unfold decodeMember collect
  split
  next field hfind =>
    unfold recordMember
    simp only [hfind]
    split
    next => exact nofun
    next =>
      refine followedBy_colon.bind fun _ _ _ => ?_
      refine (fields_followedBy (List.mem_of_find?_eq_some hfind) d l.steps l.depth).into ?_
      intro d' v hothers
      rw [Mirrors, hothers, List.filter_cons_of_neg (by simp [hfind])]
      exact h
  next hfind =>
    refine followedBy_colon.bind fun _ _ _ => ?_
    refine (followedBy_valueAt l.steps l.depth).bind fun v _ hv => followedBy_pure ?_
    subst hv
    rw [Mirrors, List.filter_cons_of_pos (by simp [hfind])]
    exact congrArg _ h

/-- Own members are no options. -/
theorem not_option_of_own (m : String × Value)
    (h : (fields.find? (·.name == m.1)).isNone = false) : m.1 ∉ Options.names := by
  have hown : ∀ field ∈ fields, field.name ∉ Options.names := by decide
  cases hfind : fields.find? (·.name == m.1) with
  | none =>
    rw [hfind] at h
    cases h
  | some field =>
    have hname := List.find?_some hfind
    rw [← eq_of_beq hname]
    exact hown field (List.mem_of_find?_eq_some hfind)

/-- The options of a draft are those of its other members. -/
theorem options_of_ofDraft {d : Draft} {config : ProjectConfig} (h : ofDraft d = .ok config) :
    Options.ofMembers d.others.reverse = .ok config.options := by
  unfold ofDraft at h
  cases hoptions : Options.ofMembers d.others.reverse with
  | error reason =>
    rw [hoptions] at h
    cases h
  | ok options =>
    rw [hoptions] at h
    cases h
    rfl

/-- The members of the object in the text of a configuration have its options. -/
theorem members_of_ofJson {text : String} {config : ProjectConfig} (h : ofJson text = .ok config) :
    ∃ members, Json.decode Json.Decoder.value text = .ok (.object members) ∧
      Options.ofMembers members = .ok config.options := by
  obtain ⟨after, hread, hafter⟩ := Json.decode_eq_ok_iff.mp h
  obtain ⟨ch, rest, hrest, hread⟩ := of_token hread
  split at hread
  next hobject =>
    subst hobject
    obtain ⟨-, mid, hinside, hmid, rfl⟩ := of_enclosed hread
    obtain ⟨d, last, hmembers, hdraft⟩ := of_bind hinside
    have hfollowed := followedBy_membersLoop (fun name d members h =>
      decodeMember_followedBy (l := (Limits.ofText text.toList).inside) name h)
      (text.toList.length + 1) true (s := {}) (t := []) rfl
    obtain ⟨-, found, hfound, hmirrors⟩ := hfollowed _ _ _ hmembers
    cases hoptions : ofDraft d with
    | error reason =>
      rw [hoptions] at hdraft
      cases hdraft
    | ok config' =>
      rw [hoptions] at hdraft
      cases hdraft
      refine ⟨found.reverse, Json.decode_eq_ok_iff.mpr
        ⟨_, valueAt_of_members hrest hfound hmid, hafter⟩, ?_⟩
      have hothers : d.others.reverse =
          found.reverse.filter fun m => (fields.find? (·.name == m.1)).isNone := by
        rw [hmirrors, List.filter_reverse]
      rw [← Options.ofMembers_filter not_option_of_own, ← hothers]
      exact options_of_ofDraft hoptions
  next => exact absurd hread mismatch_ne_ok

/-- What is left when the error is forgotten was there. -/
theorem of_toOption {x : Except Json.Error ProjectConfig} {config : ProjectConfig}
    (h : x.toOption = some config) : x = .ok config := by
  cases x with
  | error e => cases h
  | ok _ => exact congrArg Except.ok (Option.some.inj h)

/-- A configuration with an option. -/
def shallowText : String := "\x7b\"outDir\": \"gen\", \"maxDepth\": 3\x7d"

/-- A configuration with the same option among other members. -/
def notedText : String := "\x7b\"maxDepth\": 3, \"notes\": [null], \"sourceMap\": true\x7d"

/-- **Options are read alike from a configuration and from its text.** Whatever text is accepted as
a configuration is accepted as options, which are those of the configuration. Texts that are
accepted hold objects, and if the objects have the same option members, in whatever order and
among whatever other members, the options are the same. -/
theorem options_read_alike {text text' : String} {config config' : ProjectConfig}
    (h : ofJson text = .ok config) (h' : ofJson text' = .ok config') :
    Options.ofJson text = .ok config.options ∧
      ∃ members members', Json.decode Json.Decoder.value text = .ok (.object members) ∧
        Json.decode Json.Decoder.value text' = .ok (.object members') ∧
          ((∀ name ∈ Options.names, ∀ v, (name, v) ∈ members ↔ (name, v) ∈ members') →
            config.options = config'.options) := by
  obtain ⟨members, hmembers, hoptions⟩ := members_of_ofJson h
  obtain ⟨members', hmembers', hoptions'⟩ := members_of_ofJson h'
  exact ⟨Options.ofJson_of_members hmembers hoptions, members, members', hmembers, hmembers',
    Options.ofMembers_unique hoptions hoptions'⟩

/-- Both configurations are accepted, with the options that are read from the first. -/
theorem options_read_alike_shallowText :
    ofJson shallowText = .ok { options := { maxDepth := 3 }, outDir := some ⟨"gen"⟩ } ∧
      ofJson notedText = .ok { options := { maxDepth := 3 }, sourceMap := true } ∧
      Options.ofJson shallowText = .ok { maxDepth := 3 } := by
  have hshallow : ofJson shallowText =
      .ok { options := { maxDepth := 3 }, outDir := some ⟨"gen"⟩ } :=
    of_toOption (by decide +kernel)
  have hnoted : ofJson notedText = .ok { options := { maxDepth := 3 }, sourceMap := true } :=
    of_toOption (by decide +kernel)
  exact ⟨hshallow, hnoted, (options_read_alike hshallow hnoted).1⟩

end ProjectConfig

end SourceScribe
