import SourceScribe.Proofs.Buffers
import SourceScribe.Proofs.Meanings
import SourceScribe.Proofs.Steps

/-!
# Scripts print what they mean

As long as every call of the renderer brings the layout of its child, what a
node writes extends its buffer by what its script means. The calls are made for
the children of the node in order, and something that is kept from one call to
the next may depend on how many of them have been made.
-/

namespace SourceScribe

namespace Mark

/-- The layout of a mark. -/
def layout : Mark → Layout
  | .text value => .str value
  | .newline => .newline

/-- Marks extend a buffer by their layouts. -/
theorem extends_writeAll (ms : List Mark) (b : Buffer) :
    b.Extends (ms.flatMap layout) (writeAll ms b) := by
  induction ms generalizing b with
  | nil => exact .refl b
  | cons m ms ih =>
    have hm : b.Extends m.layout (m.write b) := by
      cases m with
      | text value => exact .print b value
      | newline => exact .newline b
    exact hm.trans (ih (m.write b))

end Mark

namespace Arrangement

/-- The layout of the children of a group that are left, after some have been
written. -/
def layoutFrom (arrangement : Arrangement) (blankLines : Bool) :
    Nat → Option Tag → List Kid → Layout
  | _, _, [] => []
  | written, previous, k :: rest =>
    (arrangement.before blankLines written previous (some k.tag)).flatMap Mark.layout ++
      k.layout ++ arrangement.after.flatMap Mark.layout ++
      layoutFrom arrangement blankLines (written + 1) (some k.tag) rest

/-- A child in its place extends a buffer by what stands around it and by its
layout. -/
theorem extends_place {arrangement : Arrangement} {blankLines : Bool} {written : Nat}
    {previous current : Option Tag} {b child : Buffer} {id : NodeId} {l : Layout}
    (h : (Buffer.ofNode id b.indent b.unit).Extends l child) :
    b.Extends ((arrangement.before blankLines written previous current).flatMap Mark.layout ++ l ++
        arrangement.after.flatMap Mark.layout)
      (arrangement.place blankLines written previous current child b) := by
  have hbefore := Mark.extends_writeAll (arrangement.before blankLines written previous current) b
  rw [← hbefore.indent, ← hbefore.unit] at h
  exact (hbefore.trans (Buffer.Extends.append h)).trans (Mark.extends_writeAll _ _)

/-- The layout of children in front of each of which stands what depends only on
its own kind. -/
theorem layoutFrom_eq_flatMap {arrangement : Arrangement} {blankLines : Bool} (least : Nat)
    (marks : Option Tag → List Mark)
    (h : ∀ n previous current, least ≤ n →
      arrangement.before blankLines n previous current = marks current)
    (kids : List Kid) {n : Nat} (hn : least ≤ n) (previous : Option Tag) :
    layoutFrom arrangement blankLines n previous kids = kids.flatMap fun k =>
      (marks (some k.tag)).flatMap Mark.layout ++ k.layout ++
        arrangement.after.flatMap Mark.layout := by
  induction kids generalizing n previous with
  | nil => rfl
  | cons k kids ih =>
    rw [layoutFrom, h n previous (some k.tag) hn, ih (Nat.le_succ_of_le hn), List.flatMap_cons]

/-- The layout of the declarations of a file behind one of the given kind. -/
theorem layoutFrom_topLevel (blankLines : Bool) (kids : List Kid) (n : Nat) (last : Tag) :
    layoutFrom .topLevel blankLines n (some last) kids = Kid.behind blankLines last kids := by
  induction kids generalizing n last with
  | nil => rfl
  | cons k kids ih =>
    simp only [layoutFrom, ih, before, after, Kid.behind, Kid.gap, Option.any_some]
    split <;> simp_all [Mark.layout]

/-- The layout of children with a text between them. -/
theorem layoutFrom_separated (separator : String) (blankLines : Bool) (kids : List Kid) :
    layoutFrom (.separated separator) blankLines 0 none kids =
      Layout.separated (.str separator) (Kid.layouts kids) := by
  have hmarks : ∀ n previous current, 1 ≤ n →
      (separated separator).before blankLines n previous current = [.text separator] :=
    fun n _ _ hn => if_neg (Nat.ne_zero_of_lt hn)
  cases kids with
  | nil => rfl
  | cons k kids =>
    have hrest := layoutFrom_eq_flatMap 1 (fun _ => [.text separator]) hmarks kids (Nat.le_refl 1)
      (some k.tag)
    simp [layoutFrom, hrest, before, after, Mark.layout, Layout.separated, Kid.layouts,
      List.flatMap_map]

/-- The layout of members, with a blank line in front of each definition but the
first. -/
theorem layoutFrom_members (blankLines : Bool) (kids : List Kid) :
    layoutFrom .members blankLines 0 none kids = Layout.rows (Kid.spaced blankLines kids) := by
  have hmarks : ∀ n previous current, 1 ≤ n →
      members.before blankLines n previous current =
        if blankLines && current.any Tag.isNestedDefinition then [.newline] else [] :=
    fun n _ _ hn => by simp [before, Nat.ne_zero_of_lt hn]
  have hspaced : ∀ k : Kid,
      (if blankLines && (some k.tag).any Tag.isNestedDefinition then [Mark.newline]
          else []).flatMap Mark.layout ++ k.layout =
        if blankLines && k.tag.isNestedDefinition then Layout.newline ++ k.layout
          else k.layout := by
    intro k
    rw [Option.any_some]
    split
    · rfl
    · rfl
  cases kids with
  | nil => rfl
  | cons k kids =>
    rw [layoutFrom, layoutFrom_eq_flatMap 1 _ hmarks kids (Nat.le_refl 1)]
    simp only [hspaced, Kid.spaced, Layout.rows, List.flatMap_cons, List.flatMap_map]
    simp [before, after, Mark.layout]

/-- The layout of a whole group. -/
theorem layoutFrom_eq (arrangement : Arrangement) (blankLines : Bool) (kids : List Kid) :
    layoutFrom arrangement blankLines 0 none kids = arrangement.layout blankLines kids := by
  cases arrangement with
  | separated separator => exact layoutFrom_separated separator blankLines kids
  | led text =>
    rw [layoutFrom_eq_flatMap 0 (fun _ => [.text text]) (fun _ _ _ _ => rfl) kids (Nat.le_refl 0)]
    simp [after, Mark.layout]
  | followed text =>
    rw [layoutFrom_eq_flatMap 0 (fun _ => []) (fun _ _ _ _ => rfl) kids (Nat.le_refl 0)]
    simp [after, Mark.layout]
  | lines =>
    rw [layoutFrom_eq_flatMap 0 (fun _ => []) (fun _ _ _ _ => rfl) kids (Nat.le_refl 0)]
    simp [after, Mark.layout, Layout.rows, Kid.layouts, List.flatMap_map]
  | members => exact layoutFrom_members blankLines kids
  | topLevel =>
    cases kids with
    | nil => rfl
    | cons k kids => simp [layoutFrom, layoutFrom_topLevel, before, after, Kid.topLevel]

end Arrangement

/-- Every call for a child that is made in its turn brings the layout of the child,
and keeps what depends on the children written so far. -/
def Renderer.Prints (render : Renderer) (unit : String) (children : List NodeId)
    (kid : NodeId → Kid) (inv : List NodeId → Progress → Prop) : Prop :=
  ∀ done child rest, children = done ++ child :: rest → ∀ indent p, inv done p →
    ∃ buffer p', render child indent p = .ok (some buffer) p' ∧ inv (done ++ [child]) p' ∧
      (Buffer.ofNode child indent unit).Extends (kid child).layout buffer

/-- Behind some children, writing hands over others and extends the buffer by a
layout. -/
def Writing.Prints {α : Type} (w : Writing α) (unit : String)
    (inv : List NodeId → Progress → Prop) (done ids : List NodeId) (l : Layout) : Prop :=
  ∀ f : Frame, inv done f.progress → f.buffer.unit = unit →
    ∃ a f', w f = .ok a f' ∧ inv (done ++ ids) f'.progress ∧ f.buffer.Extends l f'.buffer

namespace Writing

variable {q : Request} {render : Renderer} {unit : String} {children done rest : List NodeId}
  {kid : NodeId → Kid} {inv : List NodeId → Progress → Prop}

/-- A change of the buffer prints what it extends the buffer by. -/
theorem prints_onBuffer {change : Buffer → Buffer} {l : Layout}
    (h : ∀ b : Buffer, b.Extends l (change b)) : Prints (onBuffer change) unit inv done [] l := by
  intro f hinv _
  exact ⟨(), _, rfl, by rwa [List.append_nil], h f.buffer⟩

/-- A required child prints its layout. -/
theorem prints_required (hr : render.Prints unit children kid inv) {child : NodeId}
    (hc : children = done ++ child :: rest) (slot : String) :
    Prints (required q render slot child) unit inv done [child] (kid child).layout := by
  intro f hinv hunit
  obtain ⟨buffer, p', hcall, hinv', hext⟩ := hr done child rest hc f.buffer.indent f.progress hinv
  rw [← hunit] at hext
  refine ⟨(), ⟨p', f.buffer.append buffer⟩, ?_, hinv', .append hext⟩
  rw [required_eq, hcall]

/-- A group prints its layout. -/
theorem prints_groupFrom (hr : render.Prints unit children kid inv)
    (htags : ∀ c ∈ children, q.ast.tag? c = some (kid c).tag) (arrangement : Arrangement)
    (written : Nat) (previous : Option Tag) {ids : List NodeId}
    (hc : children = done ++ (ids ++ rest)) :
    Prints (groupFrom q render arrangement written previous ids) unit inv done ids
      (arrangement.layoutFrom q.options.blankLineBetweenDefinitions written previous
        (ids.map kid)) := by
  induction ids generalizing done written previous with
  | nil =>
    intro f hinv _
    exact ⟨written, f, rfl, by rwa [List.append_nil], .refl f.buffer⟩
  | cons child ids ih =>
    intro f hinv hunit
    have htag : q.ast.tag? child = some (kid child).tag := htags child (by rw [hc]; simp)
    obtain ⟨buffer, p', hcall, hinv', hext⟩ :=
      hr done child (ids ++ rest) hc f.buffer.indent f.progress hinv
    rw [← hunit] at hext
    have hplace : f.buffer.Extends _ (arrangement.place q.options.blankLineBetweenDefinitions written
        previous (q.ast.tag? child) buffer f.buffer) := Arrangement.extends_place hext
    have hbehind : children = (done ++ [child]) ++ (ids ++ rest) := by rw [hc]; simp
    obtain ⟨a, f', hgroup, hinv'', hrest⟩ := ih (written + 1) (q.ast.tag? child) hbehind
      ⟨p', _⟩ hinv' (hplace.unit.trans hunit)
    refine ⟨a, f', ?_, by simpa using hinv'', ?_⟩
    · rw [groupFrom_cons, hcall]
      exact hgroup
    · rw [List.map_cons, Arrangement.layoutFrom, ← htag]
      exact hplace.trans hrest

/-- Rows between braces print the braces too. -/
theorem prints_braced {arrangement : Arrangement} {ids : List NodeId} {ls : List Layout}
    (h : Prints (group q render arrangement ids) unit inv done ids (Layout.rows ls)) :
    Prints (braced q render arrangement ids) unit inv done ids (Layout.braces ls) := by
  intro f hinv hunit
  have hopen : ((f.buffer.println "\x7b").deeper).unit = unit := by
    rw [← hunit]
    exact ((Buffer.Extends.print f.buffer "\x7b").trans (.newline _)).unit
  obtain ⟨a, f', hgroup, hinv', hext⟩ := h ⟨f.progress, (f.buffer.println "\x7b").deeper⟩ hinv hopen
  refine ⟨a, ⟨f'.progress, f'.buffer.shallower.print "\x7d"⟩, ?_, hinv', .braces hext⟩
  rw [braced_eq, hgroup]

/-- What is printed does not depend on the result. -/
theorem Prints.discard {α : Type} {w : Writing α} {ids : List NodeId} {l : Layout}
    (h : Prints w unit inv done ids l) : Prints (discard w) unit inv done ids l := by
  intro f hinv hunit
  obtain ⟨a, f', hw, hinv', hext⟩ := h f hinv hunit
  refine ⟨PUnit.unit, f', ?_, hinv', hext⟩
  change EStateM.map (fun _ => PUnit.unit) w f = _
  unfold EStateM.map
  rw [hw]

/-- A piece prints what it means. -/
theorem prints_piece (hr : render.Prints unit children kid inv)
    (htags : ∀ c ∈ children, q.ast.tag? c = some (kid c).tag) (owner : NodeId) (tag : Tag)
    {p : Piece} {l : Layout}
    (hp : p.layout? q.options.blankLineBetweenDefinitions kid = some l)
    (hc : children = done ++ (p.calls ++ rest)) :
    Prints (piece q render owner tag p) unit inv done p.calls l := by
  have hgroup : ∀ (arrangement : Arrangement) (ids : List NodeId),
      children = done ++ (ids ++ rest) →
        Prints (group q render arrangement ids) unit inv done ids
          (arrangement.layout q.options.blankLineBetweenDefinitions (ids.map kid)) := by
    intro arrangement ids hc
    rw [← Arrangement.layoutFrom_eq]
    exact prints_groupFrom hr htags arrangement 0 none hc
  cases p with
  | text value =>
    cases hp
    exact prints_onBuffer fun b => .print b value
  | newline =>
    cases hp
    exact prints_onBuffer fun b => .newline b
  | required slot child =>
    cases hp
    exact prints_required hr hc slot
  | group arrangement ids =>
    cases hp
    exact (hgroup arrangement ids hc).discard
  | braced arrangement ids =>
    cases arrangement with
    | lines =>
      cases hp
      exact (prints_braced (hgroup .lines ids hc)).discard
    | members =>
      cases hp
      exact (prints_braced (hgroup .members ids hc)).discard
    | _ => cases hp
  | standing describe => cases hp
  | reject fault => cases hp

/-- A script prints what it means. -/
theorem prints_script (hr : render.Prints unit children kid inv)
    (htags : ∀ c ∈ children, q.ast.tag? c = some (kid c).tag) (owner : NodeId) (tag : Tag)
    {s : Script} {l : Layout}
    (hs : Script.layout? q.options.blankLineBetweenDefinitions kid s = some l)
    (hc : children = done ++ (Script.calls s ++ rest)) :
    Prints (script q render owner tag s) unit inv done (Script.calls s) l := by
  induction s generalizing done l with
  | nil =>
    intro f hinv _
    cases hs
    exact ⟨(), f, rfl, by rwa [Script.calls_nil, List.append_nil], .refl f.buffer⟩
  | cons p s ih =>
    intro f hinv hunit
    rw [Script.calls_cons, List.append_assoc] at hc
    rw [Script.layout?_cons] at hs
    obtain ⟨first, hfirst, hs⟩ := Option.bind_eq_some_iff.mp hs
    obtain ⟨others, hothers, rfl⟩ := Option.map_eq_some_iff.mp hs
    obtain ⟨_, f', hpiece, hinv', hext⟩ :=
      prints_piece hr htags owner tag hfirst hc f hinv hunit
    obtain ⟨_, f'', hrest, hinv'', hext'⟩ := ih hothers (hc.trans (List.append_assoc ..).symm) f'
      hinv' (hext.unit.trans hunit)
    refine ⟨(), f'', ?_, ?_, hext.trans hext'⟩
    · rw [script_cons, hpiece]
      exact hrest
    · rwa [Script.calls_cons, ← List.append_assoc]

end Writing

end SourceScribe
