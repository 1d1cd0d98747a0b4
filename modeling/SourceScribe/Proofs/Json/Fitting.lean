import SourceScribe.Proofs.Json.Documents
import SourceScribe.Proofs.Json.Outcomes

/-!
# Parsed documents fit

Identities and places that have been read fit into their words, as they are
checked against them. A tree that has been read needs no more brackets than might
be opened, as every node opens one for itself and one for its construct. So a
document that has been parsed is parsed again from what it is written as.
-/

namespace SourceScribe

open Json (Decoder Limits Value of_required)
open Json.Decoder

variable {l : Limits}

/-- An identity that has been read fits. -/
theorem NodeId.yields_decoder : NodeId.decoder.Yields NodeId.Fits :=
  (yields_natural .identity).map

namespace SourcePosition

/-- What has been read of a place fits. -/
structure Draft.Fits (d : Draft) : Prop where
  /-- The line fits. -/
  line : ∀ n ∈ d.line, n < Nat.pow 2 64
  /-- The column fits. -/
  column : ∀ n ∈ d.column, n < Nat.pow 2 64

/-- A place that has been read fits. -/
theorem yields_decoder (l : Limits) : (decoder l).Yields Fits := by
  have hkeeps : Keeps l.inside fields Draft.Fits := by
    refine .cons (fun s hs => ?_) (.cons (fun s hs => ?_) .nil)
    · exact yields_member (yields_natural .size) fun n hn => ⟨by rintro _ ⟨⟩; exact hn, hs.column⟩
    · exact yields_member (yields_natural .size) fun n hn => ⟨hs.line, by rintro _ ⟨⟩; exact hn⟩
  refine hkeeps.record ⟨by simp, by simp⟩ (fun d p hd heq => ?_) _
  obtain ⟨line, hline, heq⟩ := of_required heq
  obtain ⟨column, hcolumn, heq⟩ := of_required heq
  cases heq
  exact ⟨hd.line line hline, hd.column column hcolumn⟩

end SourcePosition

/-- A bracket was left for a construct that has been read. -/
theorem Construct.yields_decoder (l : Limits) :
    (Construct.decoder l).Yields fun _ => 0 < l.depth := by
  have hcontent : (decodeContent l).Yields fun _ => 0 < l.depth := by
    unfold decodeContent
    refine yields_bind fun c => ?_
    split
    next => exact yields_enclosed_depth l .list
    next => exact yields_enclosed_depth l .object
    next => exact yields_mismatch _
  exact hcontent.bind fun content h => yields_ofExcept fun _ _ => h

namespace ArenaNode

/-- What has been read of a node fits. -/
structure Draft.Fits (d : Draft) : Prop where
  /-- The identity fits. -/
  id : ∀ id ∈ d.id, id.Fits
  /-- The children fit. -/
  children : ∀ ids ∈ d.children, ∀ id ∈ ids, id.Fits
  /-- The parent fits. -/
  parent : ∀ o ∈ d.parent, ∀ id ∈ o, id.Fits
  /-- The place fits. -/
  position : ∀ o ∈ d.position, ∀ p ∈ o, p.Fits

/-- A node that has been read fits. -/
theorem yields_decoder (l : Limits) : (decoder l).Yields Fits := by
  have hkeeps : Keeps l.inside fields Draft.Fits := by
    refine .cons ?_ (.cons ?_ (.cons ?_ (.cons ?_ (.cons ?_ .nil)))) <;> intro s hs
    · refine yields_member NodeId.yields_decoder fun id hid => ?_
      exact ⟨by rintro _ ⟨⟩; exact hid, hs.children, hs.parent, hs.position⟩
    · refine yields_member (Construct.yields_decoder _) fun construct _ => ?_
      exact ⟨hs.id, hs.children, hs.parent, hs.position⟩
    · refine yields_member (NodeId.yields_decoder.list _) fun ids hids => ?_
      exact ⟨hs.id, by rintro _ ⟨⟩; exact hids, hs.parent, hs.position⟩
    · refine yields_member NodeId.yields_decoder.nullable fun o ho => ?_
      exact ⟨hs.id, hs.children, by rintro _ ⟨⟩; exact ho, hs.position⟩
    · refine yields_member (SourcePosition.yields_decoder _).nullable fun o ho => ?_
      exact ⟨hs.id, hs.children, hs.parent, by rintro _ ⟨⟩; exact ho⟩
  refine hkeeps.record ⟨by simp, by simp, by simp, by simp⟩ (fun d n hd heq => ?_) _
  obtain ⟨id, hid, heq⟩ := of_required heq
  obtain ⟨construct, _, heq⟩ := of_required heq
  cases heq
  refine ⟨hd.id id hid, ?_, ?_, ?_⟩
  · cases hc : d.children with
    | none => simp
    | some ids => exact hd.children ids hc
  · exact fun id hid => hd.parent _ (Option.join_eq_some_iff.mp hid) id rfl
  · exact fun p hp => hd.position _ (Option.join_eq_some_iff.mp hp) p rfl

end ArenaNode

namespace ArenaDocument

/-- What has been read of a document fits. -/
structure Draft.Fits (d : Draft) : Prop where
  /-- The root fits. -/
  root : ∀ id ∈ d.root, id.Fits
  /-- The nodes fit. -/
  nodes : ∀ nodes ∈ d.nodes, ∀ n ∈ nodes, n.Fits

/-- A document that has been read fits. -/
theorem yields_decoder (l : Limits) : (decoder l).Yields Fits := by
  have hkeeps : Keeps l.inside fields Draft.Fits := by
    refine .cons ?_ (.cons ?_ (.cons ?_ .nil)) <;> intro s hs
    · refine yields_member (P := fun _ => True) (fun _ _ _ _ => trivial) fun file _ => ?_
      exact ⟨hs.root, hs.nodes⟩
    · refine yields_member NodeId.yields_decoder fun id hid => ?_
      exact ⟨by rintro _ ⟨⟩; exact hid, hs.nodes⟩
    · refine yields_member ((ArenaNode.yields_decoder _).list _) fun nodes hnodes => ?_
      exact ⟨hs.root, by rintro _ ⟨⟩; exact hnodes⟩
  refine hkeeps.record ⟨by simp, by simp⟩ (fun d n hd heq => ?_) _
  obtain ⟨root, hroot, heq⟩ := of_required heq
  obtain ⟨nodes, hnodes, heq⟩ := of_required heq
  cases heq
  exact ⟨hd.root root hroot, hd.nodes nodes hnodes⟩

end ArenaDocument

namespace TreeNode

/-- What has been read of a node fits, given the number of brackets that may be
opened for it. -/
structure Draft.Fits (depth : Nat) (d : Draft) : Prop where
  /-- The construct has opened a bracket inside that of the node. -/
  construct : ∀ c ∈ d.construct, 2 ≤ depth
  /-- The nodes inside fit. -/
  children : ∀ nodes ∈ d.children, FitAll nodes ∧ levelsOfAll nodes + 2 ≤ depth
  /-- The place fits. -/
  position : ∀ o ∈ d.position, ∀ p ∈ o, p.Fits

/-- A node that has been read fits and needs no more brackets than might be opened, if
so do the nodes inside it. -/
theorem yields_decodeNode (l : Limits) {read : Decoder (List TreeNode)}
    (h : read.Yields fun nodes => FitAll nodes ∧ levelsOfAll nodes + 2 ≤ l.depth) :
    (decodeNode l read).Yields fun n => n.Fits ∧ n.levels ≤ l.depth := by
  have hkeeps : Keeps l.inside (fields read) (Draft.Fits l.depth) := by
    refine .cons ?_ (.cons ?_ (.cons ?_ .nil)) <;> intro s hs
    · refine yields_member (Construct.yields_decoder _) fun construct hdepth => ?_
      exact ⟨fun _ _ => Nat.lt_of_sub_pos hdepth, hs.children, hs.position⟩
    · refine yields_member h fun nodes hnodes => ?_
      exact ⟨hs.construct, by rintro _ ⟨⟩; exact hnodes, hs.position⟩
    · refine yields_member (SourcePosition.yields_decoder _).nullable fun o ho => ?_
      exact ⟨hs.construct, hs.children, by rintro _ ⟨⟩; exact ho⟩
  refine hkeeps.record ⟨by simp, by simp, by simp⟩ (fun d n hd heq => ?_) _
  obtain ⟨construct, hconstruct, heq⟩ := of_required heq
  cases heq
  have hposition : ∀ p ∈ d.position.join, p.Fits := fun p hp =>
    hd.position _ (Option.join_eq_some_iff.mp hp) p rfl
  cases hc : d.children with
  | none => exact ⟨⟨hposition, trivial⟩, hd.construct construct hconstruct⟩
  | some nodes =>
    obtain ⟨hfit, hlevels⟩ := hd.children nodes hc
    exact ⟨⟨hposition, hfit⟩, hlevels⟩

/-- Nodes fit one by one. -/
theorem fitAll_iff {nodes : List TreeNode} : FitAll nodes ↔ ∀ n ∈ nodes, n.Fits := by
  induction nodes with
  | nil => simp [FitAll]
  | cons n nodes ih => rw [FitAll, ih, List.forall_mem_cons]

/-- Nodes need no more brackets than each of them. -/
theorem levelsOfAll_le_iff {nodes : List TreeNode} {d : Nat} :
    levelsOfAll nodes ≤ d ↔ ∀ n ∈ nodes, n.levels ≤ d := by
  induction nodes with
  | nil => simp [levelsOfAll]
  | cons n nodes ih => rw [levelsOfAll, Nat.max_le, ih, List.forall_mem_cons]

/-- A node that has been read fits and needs no more brackets than might be opened. -/
theorem yields_decodeAt (steps depth : Nat) :
    (decodeAt steps depth).Yields fun n => n.Fits ∧ n.levels ≤ depth := by
  have hnone : ∀ l : Limits, (decodeAt.noChildren steps).Yields fun nodes =>
      FitAll nodes ∧ levelsOfAll nodes + 2 ≤ l.depth := fun l =>
    (yields_list_depth ⟨steps, 0⟩ _).weaken fun _ h => absurd h (Nat.lt_irrefl 0)
  induction depth using decodeAt.induct with
  | case1 => exact yields_decodeNode ⟨steps, 0⟩ (hnone _)
  | case2 => exact yields_decodeNode ⟨steps, 1⟩ (hnone _)
  | case3 depth ih =>
    refine yields_decodeNode ⟨steps, depth + 2⟩ ((ih.list _).weaken fun nodes hnodes => ?_)
    exact ⟨fitAll_iff.mpr fun n hn => (hnodes n hn).1,
      Nat.add_le_add_right (levelsOfAll_le_iff.mpr fun n hn => (hnodes n hn).2) 2⟩

end TreeNode

namespace TreeDocument

/-- A document that has been read fits. -/
theorem yields_decoder (l : Limits) : (decoder l).Yields fun d => d.Fits l.inside.depth := by
  have hkeeps : Keeps l.inside fields fun d : Draft =>
      ∀ n ∈ d.root, n.Fits ∧ n.levels ≤ l.inside.depth := by
    refine .cons ?_ (.cons ?_ .nil) <;> intro s hs
    · exact yields_member (P := fun _ => True) (fun _ _ _ _ => trivial) fun file _ => hs
    · refine yields_member (TreeNode.yields_decodeAt _ _) fun n hn => ?_
      rintro _ ⟨⟩
      exact hn
  refine hkeeps.record (by simp) (fun d n hd heq => ?_) _
  obtain ⟨root, hroot, heq⟩ := of_required heq
  cases heq
  exact ⟨(hd root hroot).1, (hd root hroot).2⟩

end TreeDocument

namespace Document

/-- A document that has been parsed fits. -/
theorem fits_of_parse {text : String} {d : Document} (h : parse text = .ok d) : d.Fits := by
  simp only [parse, bind, Except.bind] at h
  split at h
  next => cases h
  next =>
    split at h
    next =>
      split at h
      next => cases h
      next d heq =>
        cases h
        exact Json.of_decode (P := ArenaDocument.Fits) heq fun l _ => ArenaDocument.yields_decoder l
    next =>
      split at h
      next => cases h
      next d heq =>
        cases h
        refine Json.of_decode (P := fun d => d.Fits 126) heq fun l hl => ?_
        have hdepth : l.inside.depth = 126 := by rw [Limits.inside, hl]
        exact hdepth ▸ TreeDocument.yields_decoder l

/-- A document that has been parsed is parsed again from its compact text. -/
theorem parse_compact_of_parse {text : String} {d : Document} (h : parse text = .ok d) :
    parse d.toValue.compact = .ok d := (fits_of_parse h).parse_compact

end Document

end SourceScribe
