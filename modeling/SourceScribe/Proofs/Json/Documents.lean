import SourceScribe.Document.Codec
import SourceScribe.Proofs.Json.Constructs

/-!
# Documents are restored

A document fits its text if its identities and places fit into the words that
are read for them, and if a tree needs no more brackets than may be opened. What
fits is restored from what it is written as, part by part, and so a whole
document is parsed from its text, whatever the spacing.
-/

namespace SourceScribe

open Json (Decoder Limits Value Spacing optionalMember)
open Json.Decoder

variable {l : Limits} {steps : Nat}

namespace NodeId

/-- The identity fits into its word. -/
def Fits (id : NodeId) : Prop := id.index < Nat.pow 2 32

/-- An identity that fits into its word fits into the word of a place. -/
theorem Fits.lt {id : NodeId} (h : id.Fits) : id.index < Nat.pow 2 64 :=
  Nat.lt_of_lt_of_le h (by decide)

/-- An identity is written as a plain value. -/
theorem Fits.plain {id : NodeId} (h : id.Fits) : id.toValue.Plain := Value.plain_ofNat h.lt

/-- An identity is restored. -/
theorem Fits.restores {id : NodeId} (h : id.Fits) : decoder.Restores steps id.toValue id :=
  (restores_natural h h.lt).map NodeId.mk

end NodeId

namespace SourcePosition

/-- The place fits into its words. -/
def Fits (p : SourcePosition) : Prop := p.line < Nat.pow 2 64 ∧ p.column < Nat.pow 2 64

/-- A place is written as a plain value. -/
theorem Fits.plain {p : SourcePosition} (h : p.Fits) : p.toValue.Plain :=
  ⟨Value.plain_ofNat h.1, Value.plain_ofNat h.2, trivial⟩

/-- A place is restored. -/
theorem Fits.restores {p : SourcePosition} (h : p.Fits) (hl : 0 < l.depth) :
    (decoder l).Restores l.steps p.toValue p := by
  have hfields : Fields l.inside fields {} [("line", .ofNat p.line), ("column", .ofNat p.column)]
      (⟨some p.line, some p.column⟩ : Draft) := by
    refine .known ⟨some p.line, none⟩ rfl rfl ?_ (.known _ rfl rfl ?_ (.nil _))
    · exact restores_member (restores_natural h.1 h.1) _
    · exact restores_member (restores_natural h.2 h.2) _
  exact restores_record hl hfields rfl

end SourcePosition

namespace SourceFile

/-- A file is written as a plain value. -/
theorem plain_toValue (f : SourceFile) : f.toValue.Plain :=
  ⟨trivial, Value.plain_optionalMember fun _ _ => trivial⟩

/-- A file is restored. -/
theorem restores_decoder (f : SourceFile) (hl : 0 < l.depth) :
    (decoder l).Restores l.steps f.toValue f := by
  have hcontent : Fields l.inside fields (⟨some f.url, none⟩ : Draft)
      (optionalMember "content" .string f.content) ⟨some f.url, f.content.map some⟩ := by
    refine .optional (fun o => (⟨some f.url, o.map some⟩ : Draft)) rfl rfl f.content ?_
    intro text _
    exact restores_member (restores_present (restores_string text) trivial nofun) _
  have hfields : Fields l.inside fields {}
      (("url", .string f.url) :: optionalMember "content" .string f.content)
      (⟨some f.url, f.content.map some⟩ : Draft) :=
    .known _ rfl rfl (restores_member (restores_string f.url) _) hcontent
  refine restores_record hl hfields ?_
  cases hf : f.content <;> cases f <;> cases hf <;> rfl

end SourceFile

/-- A list unless it is empty. -/
def nonempty? {α : Type} : List α → Option (List α)
  | [] => none
  | a :: as => some (a :: as)

/-- A list that is not empty is there as it is. -/
theorem eq_of_mem_nonempty? {α : Type} {as as' : List α} (h : as' ∈ nonempty? as) : as' = as := by
  cases as with
  | nil => cases h
  | cons a as =>
    cases h
    rfl

/-- What stands for an absent list is the empty one. -/
theorem getD_nonempty? {α : Type} (as : List α) : (nonempty? as).getD [] = as := by
  cases as <;> rfl

/-- The member of children is there unless there are none. -/
theorem childrenMember_eq {α : Type} (write : α → Value) (as : List α) :
    childrenMember (as.map write) =
      optionalMember "children" (fun as => .array (as.map write)) (nonempty? as) := by
  cases as <;> rfl

namespace ArenaNode

/-- All identities and places of the node fit into their words. -/
structure Fits (n : ArenaNode) : Prop where
  /-- The identity fits. -/
  id : n.id.Fits
  /-- The children fit. -/
  children : ∀ id ∈ n.children, id.Fits
  /-- The parent fits. -/
  parent : ∀ id ∈ n.parent, id.Fits
  /-- The place fits. -/
  position : ∀ p ∈ n.position, p.Fits

/-- A node is written as a plain value. -/
theorem Fits.plain {n : ArenaNode} (h : n.Fits) : n.toValue.Plain := by
  have hfirst : Value.PlainMembers [("id", n.id.toValue), ("kind", n.construct.toValue)] :=
    ⟨h.id.plain, n.construct.plain_toValue, trivial⟩
  have hchildren : Value.PlainMembers (childrenMember (n.children.map NodeId.toValue)) := by
    rw [childrenMember_eq]
    refine Value.plain_optionalMember fun ids hids => ?_
    rw [eq_of_mem_nonempty? hids]
    exact Value.plainItems_iff.mpr (by simpa using fun id hid => (h.children id hid).plain)
  have hparent : Value.PlainMembers [("parent", .ofOption NodeId.toValue n.parent)] := by
    refine ⟨?_, trivial⟩
    cases hp : n.parent with
    | none => trivial
    | some id => exact (h.parent id hp).plain
  have hposition : Value.PlainMembers
      (optionalMember "position" SourcePosition.toValue n.position) :=
    Value.plain_optionalMember fun p hp => (h.position p hp).plain
  exact ((hfirst.append hchildren).append hparent).append hposition

/-- A node is restored. -/
theorem Fits.restores {n : ArenaNode} (h : n.Fits) (hl : 2 ≤ l.depth) :
    (decoder l).Restores l.steps n.toValue n := by
  obtain ⟨id, construct, children, parent, position⟩ := n
  have hinside : 0 < l.inside.depth := Nat.sub_pos_of_lt hl
  have hfirst : Fields l.inside fields {} [("id", id.toValue), ("kind", construct.toValue)]
      (⟨some id, some construct, none, none, none⟩ : Draft) := by
    refine .known ⟨some id, none, none, none, none⟩ rfl rfl ?_ (.known _ rfl rfl ?_ (.nil _))
    · exact restores_member h.id.restores _
    · exact restores_member (construct.restores_decoder hinside) _
  have hchildren : Fields l.inside fields (⟨some id, some construct, none, none, none⟩ : Draft)
      (childrenMember (children.map NodeId.toValue))
      ⟨some id, some construct, nonempty? children, none, none⟩ := by
    rw [childrenMember_eq]
    refine .optional (fun o => (⟨some id, some construct, o, none, none⟩ : Draft)) rfl rfl _ ?_
    intro ids hids
    rw [eq_of_mem_nonempty? hids]
    refine restores_member (restores_list hinside fun id hid => ?_) _
    exact ⟨(h.children id hid).restores, (h.children id hid).plain⟩
  have hparent : Fields l.inside fields
      (⟨some id, some construct, nonempty? children, none, none⟩ : Draft)
      [("parent", .ofOption NodeId.toValue parent)]
      ⟨some id, some construct, nonempty? children, some parent, none⟩ := by
    refine .known _ rfl rfl ?_ (.nil _)
    cases hp : parent with
    | none => exact restores_member restores_absent _
    | some id =>
      have hid := h.parent id hp
      exact restores_member (restores_present hid.restores hid.plain nofun) _
  have hposition : Fields l.inside fields
      (⟨some id, some construct, nonempty? children, some parent, none⟩ : Draft)
      (optionalMember "position" SourcePosition.toValue position)
      ⟨some id, some construct, nonempty? children, some parent, position.map some⟩ := by
    refine .optional
      (fun o => (⟨some id, some construct, nonempty? children, some parent, o.map some⟩ : Draft))
      rfl rfl position fun p hp => ?_
    have hfits := h.position p hp
    exact restores_member (restores_present (hfits.restores hinside) hfits.plain nofun) _
  refine restores_record (Nat.lt_of_succ_lt hl)
    (((hfirst.append hchildren).append hparent).append hposition) ?_
  have hfinish : (Except.ok ⟨id, construct, (nonempty? children).getD [], parent,
      (position.map some).join⟩ : Except Json.Reason ArenaNode) =
        .ok ⟨id, construct, children, parent, position⟩ := by
    rw [getD_nonempty?]
    cases position <;> rfl
  exact hfinish

end ArenaNode

/-- A file that may be `null` is restored. -/
theorem SourceFile.restores_nullable (f : SourceFile) (hl : 0 < l.depth) :
    (nullable (decoder l)).Restores l.steps f.toValue (some f) :=
  restores_present (f.restores_decoder hl) f.plain_toValue nofun

namespace ArenaDocument

/-- All identities and places of the document fit into their words. -/
structure Fits (d : ArenaDocument) : Prop where
  /-- The root fits. -/
  root : d.root.Fits
  /-- The nodes fit. -/
  nodes : ∀ n ∈ d.nodes, n.Fits

/-- The nodes of a document are written as a plain value. -/
theorem Fits.plain_nodes {d : ArenaDocument} (h : d.Fits) :
    (Value.array (d.nodes.map ArenaNode.toValue)).Plain :=
  Value.plainItems_iff.mpr (by simpa using fun n hn => (h.nodes n hn).plain)

/-- A document is restored. -/
theorem Fits.restores {d : ArenaDocument} (h : d.Fits) (hl : 4 ≤ l.depth) :
    (decoder l).Restores l.steps d.toValue d := by
  obtain ⟨file, root, nodes⟩ := d
  have hinside : 3 ≤ l.inside.depth := Nat.le_sub_of_add_le hl
  have hnode : 2 ≤ l.inside.inside.depth := Nat.le_sub_of_add_le hinside
  have hfile : Fields l.inside fields {} (fileMember file) (⟨file.map some, none, none⟩ : Draft) :=
    .optional (fun o => (⟨o.map some, none, none⟩ : Draft)) rfl rfl file fun f _ =>
      restores_member (f.restores_nullable (Nat.lt_of_lt_of_le (by decide) hinside)) _
  have hrest : Fields l.inside fields (⟨file.map some, none, none⟩ : Draft)
      [("root", root.toValue), ("nodes", .array (nodes.map ArenaNode.toValue))]
      ⟨file.map some, some root, some nodes⟩ := by
    refine .known ⟨file.map some, some root, none⟩ rfl rfl ?_ (.known _ rfl rfl ?_ (.nil _))
    · exact restores_member h.root.restores _
    · refine restores_member (restores_list (Nat.lt_of_lt_of_le (by decide) hinside) ?_) _
      exact fun n hn => ⟨(h.nodes n hn).restores hnode, (h.nodes n hn).plain⟩
  refine restores_record (Nat.lt_of_lt_of_le (by decide) hl) (hfile.append hrest) ?_
  cases file <;> rfl

end ArenaDocument

namespace TreeNode

mutual

/-- The number of brackets that a node needs with the nodes inside it: one for itself
and one for its construct or the list of nodes. -/
def levels : TreeNode → Nat
  | .node _ children _ => levelsOfAll children + 2

/-- The greatest number of brackets that one of some nodes needs. -/
def levelsOfAll : List TreeNode → Nat
  | [] => 0
  | n :: rest => max n.levels (levelsOfAll rest)

end

mutual

/-- All places in the node fit into their words. -/
def Fits : TreeNode → Prop
  | .node _ children position => (∀ p ∈ position, p.Fits) ∧ FitAll children

/-- All places in the nodes fit into their words. -/
def FitAll : List TreeNode → Prop
  | [] => True
  | n :: rest => n.Fits ∧ FitAll rest

end

/-- The nodes inside a node are written one by one. -/
theorem toValues_eq_map (nodes : List TreeNode) : toValues nodes = nodes.map toValue := by
  induction nodes with
  | nil => rfl
  | cons n nodes ih => rw [toValues, ih, List.map_cons]

mutual

/-- A node is written as a plain value. -/
theorem plain_toValue : (n : TreeNode) → n.Fits → n.toValue.Plain
  | .node construct children position, h => by
    have hchildren : Value.PlainMembers (childrenMember (toValues children)) := by
      rw [toValues_eq_map, childrenMember_eq]
      refine Value.plain_optionalMember fun nodes hnodes => ?_
      rw [eq_of_mem_nonempty? hnodes]
      exact Value.plainItems_iff.mpr (by simpa using plain_toValues children h.2)
    have hposition : Value.PlainMembers
        (optionalMember "position" SourcePosition.toValue position) :=
      Value.plain_optionalMember fun p hp => (h.1 p hp).plain
    exact Value.PlainMembers.append ⟨construct.plain_toValue, hchildren⟩ hposition

/-- Nodes are written as plain values. -/
theorem plain_toValues : (nodes : List TreeNode) → FitAll nodes → ∀ n ∈ nodes, n.toValue.Plain
  | [], _ => by simp
  | n :: rest, h =>
    List.forall_mem_cons.mpr ⟨plain_toValue n h.1, plain_toValues rest h.2⟩

end

mutual

/-- A node is written with no more brackets than it needs. -/
theorem levels_toValue : (n : TreeNode) → n.toValue.levels ≤ n.levels
  | .node construct children position => by
    refine Nat.succ_le_succ (Value.levelsOfMembers_le_iff.mpr fun m hm => ?_)
    rcases List.mem_append.mp hm with hm | hm
    · rcases List.mem_cons.mp hm with rfl | hm
      · exact Nat.le_trans construct.levels_toValue (Nat.le_add_left 1 _)
      · rw [toValues_eq_map, childrenMember_eq] at hm
        obtain ⟨nodes, hnodes, rfl⟩ := Value.of_mem_optionalMember hm
        rw [eq_of_mem_nonempty? hnodes]
        refine Nat.succ_le_succ (Value.levelsOfItems_le_iff.mpr ?_)
        simpa using levels_toValues children
    · obtain ⟨p, _, rfl⟩ := Value.of_mem_optionalMember hm
      exact Nat.le_add_left 1 _

/-- Nodes are written with no more brackets than they need. -/
theorem levels_toValues : (nodes : List TreeNode) →
    ∀ n ∈ nodes, n.toValue.levels ≤ levelsOfAll nodes
  | [] => by simp
  | n :: rest => List.forall_mem_cons.mpr
    ⟨Nat.le_trans (levels_toValue n) (Nat.le_max_left _ _), fun m hm =>
      Nat.le_trans (levels_toValues rest m hm) (Nat.le_max_right _ _)⟩

end

/-- A node is restored if the nodes inside it are. -/
theorem restores_decodeNode (hl : 2 ≤ l.depth) (construct : Construct) {children : List TreeNode}
    {position : Option SourcePosition} (hposition : ∀ p ∈ position, p.Fits)
    {read : Decoder (List TreeNode)}
    (hread : read.Restores l.steps (.array (children.map toValue)) children) :
    (decodeNode l read).Restores l.steps (toValue (.node construct children position))
      (.node construct children position) := by
  have hinside : 0 < l.inside.depth := Nat.sub_pos_of_lt hl
  have hchildren : Fields l.inside (fields read) (⟨some construct, none, none⟩ : Draft)
      (childrenMember (toValues children)) ⟨some construct, nonempty? children, none⟩ := by
    rw [toValues_eq_map, childrenMember_eq]
    refine .optional (fun o => (⟨some construct, o, none⟩ : Draft)) rfl rfl _ fun nodes hnodes => ?_
    rw [eq_of_mem_nonempty? hnodes]
    exact restores_member hread _
  have hplace : Fields l.inside (fields read) (⟨some construct, nonempty? children, none⟩ : Draft)
      (optionalMember "position" SourcePosition.toValue position)
      ⟨some construct, nonempty? children, position.map some⟩ := by
    refine .optional (fun o => (⟨some construct, nonempty? children, o.map some⟩ : Draft)) rfl rfl
      position fun p hp => ?_
    have hfits := hposition p hp
    exact restores_member (restores_present (hfits.restores hinside) hfits.plain nofun) _
  refine restores_record (Nat.lt_of_succ_lt hl)
    ((Fields.known _ rfl rfl (restores_member (construct.restores_decoder hinside) _)
      hchildren).append hplace) ?_
  have hfinish : (Except.ok (.node construct ((nonempty? children).getD [])
      (position.map some).join) : Except Json.Reason TreeNode) =
        .ok (.node construct children position) := by
    rw [getD_nonempty?]
    cases position <;> rfl
  exact hfinish

mutual

/-- A node is restored if as many brackets may be opened as it needs. -/
theorem restores_decodeAt : (n : TreeNode) → n.Fits → {d : Nat} → n.levels ≤ d →
    (decodeAt steps d).Restores steps n.toValue n
  | .node _ _ _, _, 0, hd => absurd hd (Nat.not_succ_le_zero _)
  | .node _ _ _, _, 1, hd => absurd (Nat.le_of_succ_le_succ hd) (Nat.not_succ_le_zero _)
  | .node construct children position, h, d + 2, hd => by
    have hchildren := restores_all children h.2
      (Nat.le_of_succ_le_succ (Nat.le_of_succ_le_succ hd))
    exact restores_decodeNode (l := ⟨steps, d + 2⟩) (Nat.le_add_left 2 d) construct h.1
      (restores_list (l := ⟨steps, d + 1⟩) (Nat.succ_pos d) fun n hn =>
        ⟨hchildren n hn, plain_toValues children h.2 n hn⟩)

/-- Nodes are restored if as many brackets may be opened as they need. -/
theorem restores_all : (nodes : List TreeNode) → FitAll nodes → {d : Nat} →
    levelsOfAll nodes ≤ d → ∀ n ∈ nodes, (decodeAt steps d).Restores steps n.toValue n
  | [], _, _, _ => by simp
  | n :: rest, h, _, hd => List.forall_mem_cons.mpr
    ⟨restores_decodeAt n h.1 (Nat.le_trans (Nat.le_max_left _ _) hd),
      restores_all rest h.2 (Nat.le_trans (Nat.le_max_right _ _) hd)⟩

end

end TreeNode

namespace TreeDocument

/-- All places fit into their words, and the root needs no more brackets than may be
opened. -/
structure Fits (d : TreeDocument) (depth : Nat) : Prop where
  /-- The places fit. -/
  root : d.root.Fits
  /-- The brackets may be opened. -/
  levels : d.root.levels ≤ depth

/-- A document is restored. -/
theorem Fits.restores {d : TreeDocument} (hl : 2 ≤ l.depth) (h : d.Fits l.inside.depth) :
    (decoder l).Restores l.steps d.toValue d := by
  obtain ⟨file, root⟩ := d
  have hinside : 0 < l.inside.depth := Nat.sub_pos_of_lt hl
  have hfile : Fields l.inside fields {} (fileMember file) (⟨file.map some, none⟩ : Draft) :=
    .optional (fun o => (⟨o.map some, none⟩ : Draft)) rfl rfl file fun f _ =>
      restores_member (f.restores_nullable hinside) _
  have hroot : Fields l.inside fields (⟨file.map some, none⟩ : Draft) [("root", root.toValue)]
      ⟨file.map some, some root⟩ :=
    .known _ rfl rfl (restores_member (root.restores_decodeAt h.root h.levels) _) (.nil _)
  refine restores_record (Nat.lt_of_succ_lt hl) (hfile.append hroot) ?_
  cases file <;> rfl

end TreeDocument

namespace Document

/-- The document fits: with one bracket around the root, 126 may be opened for it. -/
def Fits : Document → Prop
  | .arena d => d.Fits
  | .tree d => d.Fits 126

/-- The file of a document does not matter to its shape. -/
theorem fields_file (file : Option SourceFile) :
    Fields l shapeFields none (fileMember file) none := by
  cases file with
  | none => exact .nil none
  | some f => exact .unknown rfl f.plain_toValue (.nil none)

/-- A number is read at the root of the arena shape. -/
theorem restores_shape_arena {d : ArenaDocument} (h : d.Fits) (hl : 0 < l.depth) :
    (shapeDecoder l).Restores l.steps d.toValue d.root.toValue := by
  have hroot : (Json.Decoder.value l.inside).Restores l.steps d.root.toValue d.root.toValue :=
    restores_value (l := l.inside) h.root.plain (Nat.zero_le _)
  have hrest : Fields l.inside shapeFields none
      [("root", d.root.toValue), ("nodes", .array (d.nodes.map ArenaNode.toValue))]
      (some d.root.toValue) :=
    .known _ rfl rfl (restores_member hroot none) (.unknown rfl h.plain_nodes (.nil _))
  exact restores_record hl ((fields_file d.file).append hrest) rfl

/-- A node is read at the root of the tree shape. -/
theorem restores_shape_tree {d : TreeDocument} (hl : 0 < l.depth) (h : d.Fits l.inside.depth) :
    (shapeDecoder l).Restores l.steps d.toValue d.root.toValue := by
  have hroot : (Json.Decoder.value l.inside).Restores l.steps d.root.toValue d.root.toValue :=
    restores_value (l := l.inside) (d.root.plain_toValue h.root)
      (Nat.le_trans d.root.levels_toValue h.levels)
  have hrest : Fields l.inside shapeFields none [("root", d.root.toValue)]
      (some d.root.toValue) :=
    .known _ rfl rfl (restores_member hroot none) (.nil _)
  exact restores_record hl ((fields_file d.file).append hrest) rfl

/-- A tree stands inside one bracket. -/
theorem fits_inside {d : TreeDocument} (h : d.Fits 126) (hl : l.depth = 127) :
    d.Fits l.inside.depth := by
  rwa [Limits.inside, hl]

/-- A document that fits is parsed from every text of its value. -/
theorem Fits.parse_chars {d : Document} (h : d.Fits) (s : Spacing) :
    parse (String.ofList (s.chars 0 d.toValue)) = .ok d := by
  cases d with
  | arena d =>
    have hshape := Json.decode_of_restores shapeDecoder
      (fun l hl => restores_shape_arena (l := l) h (by omega)) s
    have hdocument := Json.decode_of_restores ArenaDocument.decoder
      (fun l hl => ArenaDocument.Fits.restores (l := l) h (by omega)) s
    have hnumber : d.root.toValue.isNumber = true := rfl
    simp only [parse, toValue, hshape, bind, Except.bind, hnumber, if_true, hdocument]
    rfl
  | tree d =>
    have hshape := Json.decode_of_restores shapeDecoder
      (fun l hl => restores_shape_tree (l := l) (by omega) (fits_inside h hl)) s
    have hdocument := Json.decode_of_restores TreeDocument.decoder
      (fun l hl => TreeDocument.Fits.restores (l := l) (by omega) (fits_inside h hl)) s
    have hnumber : d.root.toValue.isNumber = false := by
      obtain ⟨file, construct, children, position⟩ := d
      rfl
    simp only [parse, toValue, hshape, bind, Except.bind, hnumber, Bool.false_eq_true, if_false,
      hdocument]
    rfl

/-- A document that fits is parsed from its compact text. -/
theorem Fits.parse_compact {d : Document} (h : d.Fits) : parse d.toValue.compact = .ok d := by
  rw [Value.compact, Value.compactChars_eq 0]
  exact h.parse_chars .compact

/-- A document that fits is parsed from its pretty text. -/
theorem Fits.parse_pretty {d : Document} (h : d.Fits) : parse d.toValue.pretty = .ok d := by
  rw [Value.pretty, Value.prettyChars_eq]
  exact h.parse_chars .pretty

end Document

end SourceScribe
