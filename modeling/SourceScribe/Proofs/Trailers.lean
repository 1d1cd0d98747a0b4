import Mathlib.Data.List.Basic
import Mathlib.Data.List.GetD
import SourceScribe.Proofs.Json.Documents
import SourceScribe.Proofs.Quantities
import SourceScribe.SourceMap

/-!
# Maps are read back from comments

What base 64 writes is read back byte by byte, and nothing else is read: a text
that is read is what its bytes are written as. A comment with a map in it is
therefore one line, whatever the names and the texts of the sources contain,
and the map stands in it: the characters behind the mark are the bytes of a
JSON text, and a record with the members of a map is read from that text.
-/

namespace SourceScribe

namespace Text.Base64

/-- The bytes in front of one or two equals signs, from the number that the
first two characters write and the third. The bits that belong to no byte must
be zero. -/
def padded? (high : Nat) (c : Char) : Option (List UInt8) := do
  if c = '=' then
    if high % 16 = 0 then some [.ofNat (high / 16)] else none
  else
    let n := high * 64 + (← digitValue? c)
    if n % 4 = 0 then some [.ofNat (n / 1024), .ofNat (n / 4)] else none

/-- Decodes a text, four characters at a time; equals signs end it. -/
def decode? : List Char → Option (List UInt8)
  | [] => some []
  | a :: b :: c :: d :: rest => do
    let high := (← digitValue? a) * 64 + (← digitValue? b)
    if d = '=' then
      if rest = [] then padded? high c else none
    else
      let n := (high * 64 + (← digitValue? c)) * 64 + (← digitValue? d)
      return .ofNat (n / 65536) :: .ofNat (n / 256) :: .ofNat n :: (← decode? rest)
  | _ => none

/-- Numbers that are equal modulo 64 have one digit. -/
theorem digit_congr {m n : Nat} (h : m % 64 = n % 64) : digit m = digit n := by
  rw [digit, digit, h]

/-- Every digit is read back modulo 64. -/
theorem digitValue?_digit_mod (n : Nat) : digitValue? (digit n) = some (n % 64) := by
  rw [digit_congr (Nat.mod_mod n 64).symm]
  exact digitValue?_digit (Nat.mod_lt n (by decide))

/-- A character that has a value is the digit of the value. -/
theorem digit_of_digitValue? {c : Char} {n : Nat} (h : digitValue? c = some n) :
    n < 64 ∧ digit n = c := by
  obtain ⟨hlt, hc, -⟩ := List.findIdx?_eq_some_iff_getElem.mp h
  have hn : n < 64 := hlt
  refine ⟨hn, ?_⟩
  rw [digit, Nat.mod_eq_of_lt hn, List.getD_eq_getElem _ _ hlt]
  exact beq_iff_eq.mp hc

/-- Digits are characters of the alphabet. -/
theorem digit_mem (n : Nat) : digit n ∈ alphabet := by
  have hlt : n % 64 < alphabet.length := Nat.mod_lt n (by decide)
  rw [digit, List.getD_eq_getElem _ _ hlt]
  exact List.getElem_mem hlt

/-- An equals sign is no digit. -/
theorem digit_ne_padding (n : Nat) : digit n ≠ '=' := by
  intro h
  have hn := digit_mem n
  rw [h] at hn
  exact absurd hn (by decide)

/-- A byte is the number that it is modulo 256. -/
theorem ofNat_eq {n : Nat} {b : UInt8} (h : n % 256 = b.toNat) : UInt8.ofNat n = b := by
  apply UInt8.toNat_inj.mp
  rw [UInt8.toNat_ofNat', h]

/-- A number that fits into a byte is the number of the byte. -/
theorem toNat_ofNat {n : Nat} (h : n < 256) : (UInt8.ofNat n).toNat = n := by
  rw [UInt8.toNat_ofNat', Nat.mod_eq_of_lt h]

/-- What is encoded is decoded. -/
theorem decode?_encode : (bytes : List UInt8) → decode? (encode bytes) = some bytes
  | [] => rfl
  | [a] => by
    have ha := a.toNat_lt
    have hhigh : a.toNat / 4 % 64 * 64 + a.toNat % 4 * 16 % 64 = a.toNat * 16 := by omega
    have hbyte : UInt8.ofNat (a.toNat * 16 / 16) = a := ofNat_eq (by omega)
    have hzero : a.toNat * 16 % 16 = 0 := by omega
    simp only [encode, decode?, padded?, digitValue?_digit_mod, Option.bind_eq_bind,
      Option.bind_some, if_true, hhigh, hzero, hbyte]
  | [a, b] => by
    have ha := a.toNat_lt
    have hb := b.toNat_lt
    simp only [encode]
    generalize hn : a.toNat * 256 + b.toNat = n
    have hmiddle : (n / 1024 % 64 * 64 + n / 16 % 64) * 64 + n % 16 * 4 % 64 = n * 4 := by omega
    have hfirst : UInt8.ofNat (n * 4 / 1024) = a := ofNat_eq (by omega)
    have hsecond : UInt8.ofNat (n * 4 / 4) = b := ofNat_eq (by omega)
    have hzero : n * 4 % 4 = 0 := by omega
    simp only [decode?, padded?, digitValue?_digit_mod, Option.bind_eq_bind, Option.bind_some,
      if_true, digit_ne_padding, if_false, hmiddle, hzero, hfirst, hsecond]
  | a :: b :: c :: rest => by
    have ha := a.toNat_lt
    have hb := b.toNat_lt
    have hc := c.toNat_lt
    simp only [encode]
    generalize hn : (a.toNat * 256 + b.toNat) * 256 + c.toNat = n
    have hall : ((n / 262144 % 64 * 64 + n / 4096 % 64) * 64 + n / 64 % 64) * 64 + n % 64 = n := by
      omega
    have hfirst : UInt8.ofNat (n / 65536) = a := ofNat_eq (by omega)
    have hsecond : UInt8.ofNat (n / 256) = b := ofNat_eq (by omega)
    have hthird : UInt8.ofNat n = c := ofNat_eq (by omega)
    simp only [decode?, digitValue?_digit_mod, Option.bind_eq_bind, Option.bind_some,
      digit_ne_padding, if_false, decode?_encode rest, hall, hfirst, hsecond, hthird,
      Option.pure_def]

/-- The bytes in front of equals signs are encoded as what stood there. -/
theorem encode_of_padded? {x y : Nat} (hx : x < 64) (hy : y < 64) {c : Char} {bytes : List UInt8}
    (h : padded? (x * 64 + y) c = some bytes) : encode bytes = [digit x, digit y, c, '='] := by
  unfold padded? at h
  split at h
  next hc =>
    split at h
    next hzero =>
      have hbyte := toNat_ofNat (show (x * 64 + y) / 16 < 256 by omega)
      have hfirst : (x * 64 + y) / 16 / 4 = x := by omega
      have hsecond : (x * 64 + y) / 16 % 4 * 16 = y := by omega
      rw [← Option.some.inj h, hc]
      simp only [encode, hbyte, hfirst, hsecond]
    next => cases h
  next =>
    obtain ⟨z, hz, hbytes⟩ := Option.bind_eq_some_iff.mp h
    obtain ⟨hz64, hdigit⟩ := digit_of_digitValue? hz
    dsimp only at hbytes
    split at hbytes
    next hzero =>
      have hhigh := toNat_ofNat (show ((x * 64 + y) * 64 + z) / 1024 < 256 by omega)
      have hlow : (UInt8.ofNat (((x * 64 + y) * 64 + z) / 4)).toNat =
          ((x * 64 + y) * 64 + z) / 4 % 256 := UInt8.toNat_ofNat'
      rw [← Option.some.inj hbytes, ← hdigit]
      generalize hn : (x * 64 + y) * 64 + z = n at hzero hhigh hlow
      have hboth : n / 1024 * 256 + n / 4 % 256 = n / 4 := by omega
      have hfirst : digit (n / 4 / 1024) = digit x := digit_congr (by omega)
      have hsecond : digit (n / 4 / 16) = digit y := digit_congr (by omega)
      have hthird : digit (n / 4 % 16 * 4) = digit z := digit_congr (by omega)
      simp only [encode, hhigh, hlow, hboth, hfirst, hsecond, hthird]
    next => cases hbytes

/-- What is decoded is what its bytes are encoded as. -/
theorem encode_of_decode? : (text : List Char) → {bytes : List UInt8} →
    decode? text = some bytes → encode bytes = text
  | [], _, h => by
    rw [← Option.some.inj h]
    rfl
  | [_], _, h | [_, _], _, h | [_, _, _], _, h => by cases h
  | a :: b :: c :: d :: rest, bytes, h => by
    obtain ⟨x, hx, h⟩ := Option.bind_eq_some_iff.mp h
    obtain ⟨y, hy, h⟩ := Option.bind_eq_some_iff.mp h
    obtain ⟨hx64, ha⟩ := digit_of_digitValue? hx
    obtain ⟨hy64, hb⟩ := digit_of_digitValue? hy
    split at h
    next hd =>
      split at h
      next hrest =>
        rw [encode_of_padded? hx64 hy64 h, ha, hb, hd, hrest]
      next => cases h
    next =>
      obtain ⟨z, hz, h⟩ := Option.bind_eq_some_iff.mp h
      obtain ⟨w, hw, h⟩ := Option.bind_eq_some_iff.mp h
      obtain ⟨more, hmore, h⟩ := Option.bind_eq_some_iff.mp h
      obtain ⟨hz64, hc⟩ := digit_of_digitValue? hz
      obtain ⟨hw64, hd⟩ := digit_of_digitValue? hw
      rw [← Option.some.inj h, encode, encode_of_decode? rest hmore, ← ha, ← hb, ← hc, ← hd]
      generalize hn : ((x * 64 + y) * 64 + z) * 64 + w = n
      have hall : (n / 65536 % 256 * 256 + n / 256 % 256) * 256 + n % 256 = n := by omega
      have hfirst : digit (n / 262144) = digit x := digit_congr (by omega)
      have hsecond : digit (n / 4096) = digit y := digit_congr (by omega)
      have hthird : digit (n / 64) = digit z := digit_congr (by omega)
      have hfourth : digit n = digit w := digit_congr (by omega)
      simp only [UInt8.toNat_ofNat', hall, hfirst, hsecond, hthird, hfourth]

/-- **Nothing but encodings is decoded.** A text is decoded to bytes exactly if it is their
encoding. -/
theorem decode?_eq_some_iff {text : List Char} {bytes : List UInt8} :
    decode? text = some bytes ↔ encode bytes = text :=
  ⟨encode_of_decode? text, fun h => h ▸ decode?_encode bytes⟩

-- A bit that belongs to no byte is set in the last digit of the second text.
example : decode? ['Z', 'm', '8', '='] = some [102, 111] ∧ decode? ['Z', 'm', '9', '='] = none := by
  decide +kernel

/-- Three bytes are four characters, and so are what is left. -/
theorem length_encode : (bytes : List UInt8) → (encode bytes).length = 4 * ((bytes.length + 2) / 3)
  | [] => rfl
  | [_] => by simp only [encode, List.length_cons, List.length_nil]
  | [_, _] => by simp only [encode, List.length_cons, List.length_nil]
  | _ :: _ :: _ :: rest => by
    simp only [encode, List.length_cons, length_encode rest]
    omega

/-- Characters of the alphabet, with at most two equals signs behind them. -/
def Padded (text : List Char) : Prop :=
  ∃ body padding, text = body ++ List.replicate padding '=' ∧ padding ≤ 2 ∧ ∀ c ∈ body, c ∈ alphabet

/-- Equals signs stand at the end only. -/
theorem padded_encode : (bytes : List UInt8) → Padded (encode bytes)
  | [] => ⟨[], 0, rfl, by decide, by simp⟩
  | [_] => ⟨[_, _], 2, rfl, by decide, by simp [digit_mem]⟩
  | [_, _] => ⟨[_, _, _], 1, rfl, by decide, by simp [digit_mem]⟩
  | a :: b :: c :: rest => by
    obtain ⟨body, padding, htext, hpadding, hbody⟩ := padded_encode rest
    have hgroup : ∃ group : List Char, encode (a :: b :: c :: rest) = group ++ encode rest ∧
        ∀ c ∈ group, c ∈ alphabet := ⟨[_, _, _, _], rfl, by simp [digit_mem]⟩
    obtain ⟨group, hencode, hgroup⟩ := hgroup
    refine ⟨group ++ body, padding, ?_, hpadding, fun c hc => ?_⟩
    · rw [hencode, htext, List.append_assoc]
    · exact (List.mem_append.mp hc).elim (hgroup c) (hbody c)

/-- The bytes from a place on are listed behind those that were listed before. -/
theorem toList_loop (bytes : ByteArray) (i : Nat) (done : List UInt8) :
    ByteArray.toList.loop bytes i done = done.reverse ++ bytes.data.toList.drop i := by
  fun_induction ByteArray.toList.loop bytes i done with
  | case1 i done hlt ih =>
    have hlength : i < bytes.data.toList.length := hlt
    rw [ih, List.reverse_cons, List.append_assoc, List.drop_eq_getElem_cons hlength]
    have hget : bytes.get! i = bytes.data.toList[i] := getElem!_pos bytes.data i hlt
    rw [hget, List.singleton_append]
  | case2 i done hge =>
    rw [List.drop_of_length_le (Nat.le_of_not_lt hge), List.append_nil]

/-- All bytes are listed. -/
theorem toList_eq (bytes : ByteArray) : bytes.toList = bytes.data.toList := toList_loop bytes 0 []

/-- A text has as many bytes as its UTF-8 encoding. -/
theorem length_toUTF8 (text : String) : text.toUTF8.toList.length = text.utf8ByteSize := by
  rw [toList_eq]
  rfl

/-- A text is read back from its bytes. -/
theorem fromUTF8?_toUTF8 (text : String) :
    String.fromUTF8? ⟨text.toUTF8.toList.toArray⟩ = some text := by
  have hbytes : (⟨text.toUTF8.toList.toArray⟩ : ByteArray) = text.toUTF8 := by
    rw [toList_eq, Array.toArray_toList]
  have hvalid : text.toUTF8.IsValidUTF8 := text.isValidUTF8
  rw [hbytes, String.fromUTF8?, dif_pos hvalid]
  rfl

end Text.Base64

namespace SourceMap

open Json (Decoder Limits Value optionalMember)
open Json.Decoder

/-- The characters behind the mark of a comment with a map in it. -/
def payload? (comment : String) : Option (List Char) :=
  (comment.toList.dropInfix? "base64,".toList).map Prod.snd

/-- The mark does not stand further in front in a comment. -/
theorem front_le {front behind text : List Char}
    (h : commentStart.toList ++ text = front ++ "base64,".toList ++ behind) :
    43 ≤ front.length := by
  -- Seven characters from such a place on stand in the start itself, whatever follows it.
  have hnone : ∀ k < 43, (commentStart.toList.drop k).take 7 ≠ "base64,".toList := by
    decide +kernel
  by_contra hlt
  refine hnone front.length (Nat.lt_of_not_le hlt) ?_
  have hlength : commentStart.toList.length = 50 := by decide +kernel
  have hmark : ((commentStart.toList ++ text).drop front.length).take 7 = "base64,".toList := by
    rw [h, List.append_assoc, List.drop_left]
    exact List.take_left' (by decide +kernel)
  rw [← hmark, List.drop_append_of_le_length (by omega), List.take_append_of_le_length]
  rw [List.length_drop]
  omega

/-- What stands behind the start of a comment stands behind the mark. -/
theorem dropInfix?_commentStart (text : List Char) :
    (commentStart.toList ++ text).dropInfix? "base64,".toList =
      some ("//# sourceMappingURL=data:application/json;".toList, text) := by
  have hstart : commentStart.toList =
      "//# sourceMappingURL=data:application/json;".toList ++ "base64,".toList := by decide +kernel
  refine List.dropInfix?_eq_some_iff.mpr ⟨⟨_, by rw [hstart], beq_self_eq_true _⟩, ?_⟩
  intro front mark behind heq hmark
  rw [eq_of_beq hmark] at heq
  exact front_le heq

/-- The encoded text stands behind the mark. -/
theorem payload?_comment (m : SourceMap) :
    payload? m.comment = some (Text.Base64.encode m.toValue.compact.toUTF8.toList) := by
  rw [payload?, comment, String.toList_append, Text.Base64.ofText, String.toList_ofList,
    dropInfix?_commentStart]
  rfl

/-- Whether a character ends a line, by the rules of Unicode. -/
def isLineEnd (c : Char) : Bool :=
  c == '\n' || c == '\x0b' || c == '\x0c' || c == '\r' || c == '\u0085' || c == '\u2028' ||
    c == '\u2029'

/-- A comment is a single line. -/
theorem single_comment (m : SourceMap) : ∀ c ∈ m.comment.toList, isLineEnd c = false := by
  have hstart : commentStart.toList.all (!isLineEnd ·) = true := by decide +kernel
  have halphabet : Text.Base64.alphabet.all (!isLineEnd ·) = true := by decide +kernel
  intro c hc
  rw [comment, String.toList_append, Text.Base64.ofText, String.toList_ofList] at hc
  obtain ⟨body, padding, htext, -, hbody⟩ :=
    Text.Base64.padded_encode m.toValue.compact.toUTF8.toList
  rw [htext] at hc
  rcases List.mem_append.mp hc with hc | hc
  · simpa using List.all_eq_true.mp hstart c hc
  rcases List.mem_append.mp hc with hc | hc
  · simpa using List.all_eq_true.mp halphabet c (hbody c hc)
  · rw [List.eq_of_mem_replicate hc]
    rfl

/-- The members of a map that have been read so far. -/
structure Draft where
  /-- The version of the format. -/
  version : Option UInt32 := none
  /-- The name of the generated file. -/
  file : Option (Option String) := none
  /-- What stands in front of the names of the sources. -/
  root : Option String := none
  /-- The names of the sources. -/
  sources : Option (List String) := none
  /-- The texts of the sources. -/
  contents : Option (List (Option String)) := none
  /-- The segments of all lines. -/
  mappings : Option String := none

/-- The map of a draft in which only the file may be missing. -/
def ofDraft (d : Draft) : Except Json.Reason SourceMap :=
  return {
    version := ← Json.required "version" d.version
    file := d.file.join
    root := ← Json.required "sourceRoot" d.root
    sources := ← Json.required "sources" d.sources
    contents := ← Json.required "sourcesContent" d.contents
    mappings := ← Json.required "mappings" d.mappings }

/-- The members of a map in a text. -/
def fields : List (Json.Member Draft) :=
  [.of "version" false (fun _ => UInt32.ofNat <$> natural .identity) (·.version)
      fun v d => { d with version := some v },
    .of "file" true (fun _ => nullable string) (·.file) fun v d => { d with file := some v },
    .of "sourceRoot" false (fun _ => string) (·.root) fun v d => { d with root := some v },
    .of "sources" false (fun l => list l string) (·.sources)
      fun v d => { d with sources := some v },
    .of "sourcesContent" false (fun l => list l (nullable string)) (·.contents)
      fun v d => { d with contents := some v },
    .of "mappings" false (fun _ => string) (·.mappings) fun v d => { d with mappings := some v }]

/-- Reads a map from a text. -/
def decoder (l : Limits) : Decoder SourceMap := record l "struct SourceMap" fields {} ofDraft

/-- Reads a map from a whole text. -/
def ofJson (text : String) : Except Json.Error SourceMap := Json.decode decoder text

variable {l : Limits}

/-- A text that may be missing is restored. -/
theorem restores_content (o : Option String) :
    (nullable string).Restores l.steps (.ofOption .string o) o ∧
      (Value.ofOption Value.string o).Plain := by
  cases o with
  | none => exact ⟨restores_absent, trivial⟩
  | some text => exact ⟨restores_present (restores_string text) trivial nofun, trivial⟩

/-- A map is restored. -/
theorem restores (m : SourceMap) (hl : 2 ≤ l.depth) : (decoder l).Restores l.steps m.toValue m := by
  obtain ⟨version, file, root, sources, contents, mappings⟩ := m
  have hinside : 0 < l.inside.depth := Nat.sub_pos_of_lt hl
  have hversion : Fields l.inside fields {} [("version", .ofNat version.toNat)]
      ({ version := some version } : Draft) := by
    have hlt : version.toNat < Nat.pow 2 32 := version.toNat_lt
    have hnumber : (natural .identity).Restores l.inside.steps (.ofNat version.toNat)
        version.toNat := restores_natural hlt (Nat.lt_of_lt_of_le hlt (by decide))
    have hread := hnumber.map UInt32.ofNat
    rw [UInt32.ofNat_toNat] at hread
    exact .known _ rfl rfl (restores_member hread _) (.nil _)
  have hfile : Fields l.inside fields ({ version := some version } : Draft)
      (optionalMember "file" .string file)
      ({ version := some version, file := file.map some } : Draft) := by
    refine .optional (fun o => ({ version := some version, file := o.map some } : Draft)) rfl rfl
      file fun text _ => ?_
    exact restores_member (restores_present (restores_string text) trivial nofun) _
  have hsources : (list l.inside string).Restores l.inside.steps
      (.array (sources.map .string)) sources :=
    restores_list hinside fun text _ => ⟨restores_string text, trivial⟩
  have hcontents : (list l.inside (nullable string)).Restores l.inside.steps
      (.array (contents.map (.ofOption .string))) contents :=
    restores_list hinside fun o _ => restores_content o
  have hrest : Fields l.inside fields ({ version := some version, file := file.map some } : Draft)
      [("sourceRoot", .string root), ("sources", .array (sources.map .string)),
        ("sourcesContent", .array (contents.map (.ofOption .string))),
        ("mappings", .string mappings)]
      ⟨some version, file.map some, some root, some sources, some contents, some mappings⟩ :=
    .known _ rfl rfl (restores_member (restores_string root) _)
      (.known _ rfl rfl (restores_member hsources _)
        (.known _ rfl rfl (restores_member hcontents _)
          (.known _ rfl rfl (restores_member (restores_string mappings) _) (.nil _))))
  refine restores_record (Nat.lt_of_succ_lt hl) ((hversion.append hfile).append hrest) ?_
  cases file <;> rfl

/-- A map is read back from its compact text. -/
theorem ofJson_compact (m : SourceMap) : ofJson m.toValue.compact = .ok m := by
  rw [Value.compact, Value.compactChars_eq 0]
  exact Json.decode_of_restores decoder (fun l hl => m.restores (l := l) (by omega)) .compact

/-- Reads a map from a comment. -/
def ofComment? (comment : String) : Option SourceMap := do
  let bytes ← Text.Base64.decode? (← payload? comment)
  (ofJson (← String.fromUTF8? ⟨bytes.toArray⟩)).toOption

/-- **A text and a map are read back from base 64.** The encoding of a text has four characters
for three bytes and is padded; its bytes are decoded from it, and from no other text. So a comment
with a map in it is one line, the bytes of the map's compact text stand behind the mark, and the
map is read from them. -/
theorem comment_read_back :
    (∀ text : String,
      (Text.Base64.ofText text).length = 4 * ((text.utf8ByteSize + 2) / 3) ∧
        Text.Base64.Padded (Text.Base64.ofText text).toList ∧
        Text.Base64.decode? (Text.Base64.ofText text).toList = some text.toUTF8.toList ∧
        ∀ other, Text.Base64.decode? other = some text.toUTF8.toList →
          other = (Text.Base64.ofText text).toList) ∧
      ∀ m : SourceMap,
        (∀ c ∈ m.comment.toList, isLineEnd c = false) ∧
          (payload? m.comment).bind Text.Base64.decode? = some m.toValue.compact.toUTF8.toList ∧
          ofJson m.toValue.compact = .ok m ∧ ofComment? m.comment = some m := by
  refine ⟨fun text => ?_, fun m => ?_⟩
  · rw [← String.length_toList, Text.Base64.ofText, String.toList_ofList,
      Text.Base64.length_encode, Text.Base64.length_toUTF8]
    exact ⟨rfl, Text.Base64.padded_encode _, Text.Base64.decode?_encode _,
      fun other hother => (Text.Base64.decode?_eq_some_iff.mp hother).symm⟩
  · have hpayload := m.payload?_comment
    have hbytes := Text.Base64.decode?_encode m.toValue.compact.toUTF8.toList
    refine ⟨m.single_comment, by rw [hpayload, Option.bind_some, hbytes], m.ofJson_compact, ?_⟩
    simp only [ofComment?, hpayload, Option.bind_eq_bind, Option.bind_some, hbytes,
      Text.Base64.fromUTF8?_toUTF8, ofJson_compact]
    rfl

end SourceMap

end SourceScribe
