import SourceScribe.Proofs.Coverage
import SourceScribe.Proofs.Naturality

/-!
# Scripts of nodes with fewer children

When some children of a node are taken out of its list, the script of the node
changes only in the groups from which they are gone, as long as each of them
stood in a list: among arguments, items, entries, attributes, annotations,
parameters, statements, members or workers. Nothing else in a script depends on
how many children there are.
-/

namespace SourceScribe

/-- Children, each with whether it is kept. -/
abbrev Marked := List (NodeId × Bool)

namespace Marked

variable {ms front back : Marked}

/-- All children. -/
def ids (ms : Marked) : List NodeId := ms.map Prod.fst

/-- The children that are kept. -/
def kept (ms : Marked) : List NodeId := (ms.filter Prod.snd).map Prod.fst

/-- The indices of the children that are not kept. -/
def gaps (ms : Marked) : List Nat :=
  (List.range ms.length).filter fun index => ms[index]?.any fun m => !m.2

/-- Every child is kept. -/
def Whole (ms : Marked) : Prop := ∀ m ∈ ms, m.2 = true

@[simp]
theorem ids_nil : ids [] = [] := rfl

@[simp]
theorem kept_nil : kept [] = [] := rfl

@[simp]
theorem ids_append (front back : Marked) : ids (front ++ back) = ids front ++ ids back :=
  List.map_append

@[simp]
theorem kept_append (front back : Marked) : kept (front ++ back) = kept front ++ kept back := by
  simp [kept]

@[simp]
theorem ids_cons (m : NodeId × Bool) (ms : Marked) : ids (m :: ms) = m.1 :: ids ms := rfl

@[simp]
theorem kept_cons_true (id : NodeId) (ms : Marked) : kept ((id, true) :: ms) = id :: kept ms := rfl

@[simp]
theorem kept_cons_false (id : NodeId) (ms : Marked) : kept ((id, false) :: ms) = kept ms := rfl

/-- At a gap stands a child that is not kept. -/
theorem mem_gaps {index : Nat} : index ∈ gaps ms ↔ ∃ id, ms[index]? = some (id, false) := by
  rw [gaps, List.mem_filter, List.mem_range]
  constructor
  · rintro ⟨hlt, hgap⟩
    rw [List.getElem?_eq_getElem hlt] at hgap ⊢
    cases hm : ms[index] with
    | mk id mark =>
      rw [hm] at hgap
      cases mark with
      | true => cases hgap
      | false => exact ⟨id, rfl⟩
  · rintro ⟨id, hid⟩
    exact ⟨(List.getElem?_eq_some_iff.mp hid).1, by rw [hid]; rfl⟩

/-- Children that are kept are children. -/
theorem kept_sublist (ms : Marked) : (kept ms).Sublist (ids ms) :=
  List.filter_sublist.map Prod.fst

/-- When every child is kept, the children are the same. -/
theorem Whole.kept_eq (h : Whole ms) : kept ms = ids ms := by
  rw [kept, ids, List.filter_eq_self.mpr h]

/-- When every child is kept, the marks are the children. -/
theorem Whole.eq (h : Whole ms) : ms = (ids ms).map fun id => (id, true) := by
  induction ms with
  | nil => rfl
  | cons m ms ih =>
    obtain ⟨id, mark⟩ := m
    have hmark : mark = true := h (id, mark) List.mem_cons_self
    have hrest := ih fun m hm => h m (List.mem_cons_of_mem _ hm)
    rw [ids_cons, List.map_cons, hmark, ← hrest]

end Marked

namespace Script

open Marked

variable {ms ns : Marked} {s t s' t' : Script}

/-- The second script is the first without the children that are not kept: they are gone
from their groups, and a group of which no child is kept may be gone as well. -/
inductive Thins : Marked → Script → Script → Prop
  | nil : Thins [] [] []
  | same {p : Piece} {ms : Marked} {s t : Script} :
    p.calls = [] → Thins ms s t → Thins ms (p :: s) (p :: t)
  | required (slot : String) (child : NodeId) {ms : Marked} {s t : Script} :
    Thins ms s t →
      Thins ((child, true) :: ms) (.required slot child :: s) (.required slot child :: t)
  | group (arrangement : Arrangement) (gs : Marked) {ms : Marked} {s t : Script} :
    Thins ms s t →
      Thins (gs ++ ms) (.group arrangement (ids gs) :: s) (.group arrangement (kept gs) :: t)
  | braced (arrangement : Arrangement) (gs : Marked) {ms : Marked} {s t : Script} :
    Thins ms s t →
      Thins (gs ++ ms) (.braced arrangement (ids gs) :: s) (.braced arrangement (kept gs) :: t)
  | gone (arrangement : Arrangement) {gs : Marked} {ms : Marked} {s t : Script} :
    kept gs = [] → Thins ms s t → Thins (gs ++ ms) (.group arrangement (ids gs) :: s) t

/-- Thinned scripts are put one behind the other. -/
theorem Thins.append (hs : Thins ms s s') (ht : Thins ns t t') :
    Thins (ms ++ ns) (s ++ t) (s' ++ t') := by
  induction hs with
  | nil => exact ht
  | same hcalls _ ih => exact .same hcalls ih
  | required slot child _ ih => exact .required slot child ih
  | group arrangement gs _ ih =>
    rw [List.append_assoc]
    exact .group arrangement gs ih
  | braced arrangement gs _ ih =>
    rw [List.append_assoc]
    exact .braced arrangement gs ih
  | gone arrangement hgone _ ih =>
    rw [List.append_assoc]
    exact .gone arrangement hgone ih

/-- A script that asks for no children stays as it is. -/
theorem thins_same (h : calls s = []) : Thins [] s s := by
  induction s with
  | nil => exact .nil
  | cons p s ih =>
    obtain ⟨hp, hs⟩ := List.append_eq_nil_iff.mp ((calls_cons p s).symm.trans h)
    exact .same hp (ih hs)

/-- A thinned script behind one that asks for no children. -/
theorem Thins.behind (h : Thins ms s s') (ht : calls t = []) : Thins ms (t ++ s) (t ++ s') :=
  (thins_same ht).append h

/-- A thinned script in front of one that asks for no children. -/
theorem Thins.before (h : Thins ms s s') (ht : calls t = []) : Thins ms (s ++ t) (s' ++ t) := by
  have happend := h.append (thins_same ht)
  rwa [List.append_nil] at happend

/-- A script all of whose children are kept stays as it is. -/
theorem thins_whole (h : Whole ms) (hcalls : calls s = ids ms) : Thins ms s s := by
  have hall : ∀ s : Script, Thins ((calls s).map fun id => (id, true)) s s := by
    intro s
    induction s with
    | nil => exact .nil
    | cons p s ih =>
      have hgroup (children : List NodeId) : Whole (children.map fun id => (id, true)) ∧
          ids (children.map fun id => (id, true)) = children := by
        constructor
        · intro m hm
          obtain ⟨id, -, rfl⟩ := List.mem_map.mp hm
          rfl
        · simp [ids, Function.comp_def]
      rw [calls_cons, List.map_append]
      cases p with
      | required slot child => exact .required slot child ih
      | group arrangement children =>
        have hg := Thins.group arrangement (children.map fun id => (id, true)) ih
        rwa [(hgroup children).1.kept_eq, (hgroup children).2] at hg
      | braced arrangement children =>
        have hg := Thins.braced arrangement (children.map fun id => (id, true)) ih
        rwa [(hgroup children).1.kept_eq, (hgroup children).2] at hg
      | _ => exact .same rfl ih
  rw [h.eq, ← hcalls]
  exact hall s

/-- A group without some of its children. -/
theorem thins_group (arrangement : Arrangement) (gs : Marked) :
    Thins gs [.group arrangement (ids gs)] [.group arrangement (kept gs)] := by
  have h := Thins.group arrangement gs .nil
  rwa [List.append_nil] at h

/-- A group between braces without some of its children. -/
theorem thins_braced (arrangement : Arrangement) (gs : Marked) :
    Thins gs [.braced arrangement (ids gs)] [.braced arrangement (kept gs)] := by
  have h := Thins.braced arrangement gs .nil
  rwa [List.append_nil] at h

/-- Statements between braces without some of them. -/
theorem thins_block (gs : Marked) : Thins gs (block (ids gs)) (block (kept gs)) := thins_braced _ gs

/-- Members between braces without some of them. -/
theorem thins_memberBlock (gs : Marked) :
    Thins gs (memberBlock (ids gs)) (memberBlock (kept gs)) := thins_braced _ gs

/-- Annotations on lines of their own without some of them. -/
theorem thins_annotationLines (gs : Marked) :
    Thins gs (annotationLines (ids gs)) (annotationLines (kept gs)) := thins_group _ gs

/-- Parameters without some of them. -/
theorem thins_parameterList (gs : Marked) :
    Thins gs (parameterList (ids gs)) (parameterList (kept gs)) :=
  .same rfl ((thins_group _ gs).before rfl)

/-- A body without some of its statements. -/
theorem thins_body (gs : Marked) : Thins gs (body (ids gs)) (body (kept gs)) :=
  .same rfl (thins_braced _ gs)

/-- Return parameters all of which are kept. -/
theorem thins_returnList {gs : Marked} (h : Whole gs) :
    Thins gs (returnList (ids gs)) (returnList (kept gs)) := by
  rw [h.kept_eq]
  exact thins_whole h (calls_returnList _)

/-- A body that may be left out without some of its statements. -/
theorem thins_bodyUnlessNative {given : Modifiers} {gs : Marked}
    (hclean : Clean (bodyUnlessNative given (ids gs))) :
    Thins gs (bodyUnlessNative given (ids gs)) (bodyUnlessNative given (kept gs)) := by
  unfold bodyUnlessNative
  split
  next hnative =>
    have hnone : gs = [] := List.map_eq_nil_iff.mp (clean_bodyUnlessNative.mp hclean hnative)
    rw [hnone]
    exact thins_same (by simp)
  next => exact thins_body gs

end Script

namespace Sections

variable {tag? : NodeId → Option Tag} {current : Nat} {children : List NodeId}

/-- Some of the children in order are in order. -/
theorem Ordered.sublist {some : List NodeId} (h : Ordered tag? current children)
    (hs : some.Sublist children) : Ordered tag? current some := by
  rw [ordered_iff_pairwise] at h ⊢
  exact h.sublist ((hs.map fun child => rank (tag? child)).cons_cons current)

/-- Children of a rank are all that are of this rank. -/
theorem ofRank_self {r : Nat} (h : ∀ child ∈ children, rank (tag? child) = r) :
    ofRank tag? r children = children :=
  List.filter_eq_self.mpr fun child hm => beq_iff_eq.mpr (h child hm)

/-- No child of a rank is of another. -/
theorem ofRank_other {r other : Nat} (h : ∀ child ∈ children, rank (tag? child) = r)
    (hne : r ≠ other) : ofRank tag? other children = [] :=
  List.filter_eq_nil_iff.mpr fun child hm => by rw [h child hm]; simpa using hne

/-- Children in order that are laid out by rank are split at the ranks. -/
theorem split_of_ranks {annotations parameters returns body : List NodeId}
    (ho : Ordered tag? 0 (annotations ++ parameters ++ returns ++ body))
    (ha : ∀ child ∈ annotations, rank (tag? child) = 0)
    (hp : ∀ child ∈ parameters, rank (tag? child) = 1)
    (hr : ∀ child ∈ returns, rank (tag? child) = 2)
    (hb : ∀ child ∈ body, rank (tag? child) = 3) :
    split tag? (annotations ++ parameters ++ returns ++ body) =
      .ok ⟨annotations, parameters, returns, body⟩ := by
  refine splitFrom_eq_ok.mpr ⟨ho, ?_⟩
  have happend (r : Nat) (front back : List NodeId) :
      ofRank tag? r (front ++ back) = ofRank tag? r front ++ ofRank tag? r back :=
    List.filter_append ..
  simp only [gather, happend, ofRank_self ha, ofRank_self hp, ofRank_self hr, ofRank_self hb,
    ofRank_other ha (by decide : 0 ≠ 1), ofRank_other ha (by decide : 0 ≠ 2),
    ofRank_other ha (by decide : 0 ≠ 3), ofRank_other hp (by decide : 1 ≠ 0),
    ofRank_other hp (by decide : 1 ≠ 2), ofRank_other hp (by decide : 1 ≠ 3),
    ofRank_other hr (by decide : 2 ≠ 0), ofRank_other hr (by decide : 2 ≠ 1),
    ofRank_other hr (by decide : 2 ≠ 3), ofRank_other hb (by decide : 3 ≠ 0),
    ofRank_other hb (by decide : 3 ≠ 1), ofRank_other hb (by decide : 3 ≠ 2),
    List.append_nil, List.nil_append]

/-- The sections of a definition that is split are of their ranks. -/
theorem rank_of_split {parts : Sections} (h : split tag? children = .ok parts) :
    (∀ child ∈ parts.annotations, rank (tag? child) = 0) ∧
      (∀ child ∈ parts.parameters, rank (tag? child) = 1) ∧
      (∀ child ∈ parts.returns, rank (tag? child) = 2) ∧
      ∀ child ∈ parts.body, rank (tag? child) = 3 := by
  obtain ⟨-, rfl⟩ := splitFrom_eq_ok.mp h
  have hrank (r : Nat) : ∀ child ∈ ofRank tag? r children, rank (tag? child) = r :=
    fun child hm => beq_iff_eq.mp (List.mem_filter.mp hm).2
  exact ⟨hrank 0, hrank 1, hrank 2, hrank 3⟩

end Sections

/-- The second setting is the first with only some of the children. -/
structure Setting.Thinned (s s' : Setting) (ms : Marked) : Prop where
  /-- The construct is the same. -/
  construct : s'.construct = s.construct
  /-- The options are the same. -/
  options : s'.options = s.options
  /-- All nodes are of the same kinds. -/
  tags : s'.tag? = s.tag?
  /-- The first setting has all children. -/
  children : s.children = Marked.ids ms
  /-- The second setting has those that are kept. -/
  kept : s'.children = Marked.kept ms

namespace Script

open Marked

variable {set set' : Setting} {ms : Marked}

/-- What goes on with the first child goes on with it when it is kept. -/
theorem thins_firstOf (h : set.Thinned set' ms) (hfirst : ∀ child, ms[0]? ≠ some (child, false))
    {what : String} {next next' : NodeId → List NodeId → Script}
    (hclean : Clean (firstOf set what next))
    (hnext : ∀ first gs,
      Thins ((first, true) :: gs) (next first (ids gs)) (next' first (kept gs))) :
    Thins ms (firstOf set what next) (firstOf set' what next') := by
  unfold firstOf at hclean ⊢
  rw [h.children] at hclean ⊢
  rw [h.kept]
  match ms with
  | [] => exact absurd hclean (not_clean_fail _)
  | (first, false) :: gs => exact absurd rfl (hfirst first)
  | (first, true) :: gs => exact hnext first gs

/-- What goes on with the sections goes on with the sections of the children that are
kept. -/
theorem thins_sections (h : set.Thinned set' ms) {next next' : Sections → Script}
    (hclean : Clean (sections set next))
    (hnext : ∀ as ps rs bs : Marked, ms = as ++ ps ++ rs ++ bs →
      (∀ m ∈ ps, Sections.rank (set.tag? m.1) = 1) →
      (∀ m ∈ rs, Sections.rank (set.tag? m.1) = 2) →
      Clean (next ⟨ids as, ids ps, ids rs, ids bs⟩) →
      Thins (as ++ ps ++ rs ++ bs) (next ⟨ids as, ids ps, ids rs, ids bs⟩)
        (next' ⟨kept as, kept ps, kept rs, kept bs⟩)) :
    Thins ms (sections set next) (sections set' next') := by
  unfold sections at hclean ⊢
  cases hsplit : Sections.split set.tag? set.children with
  | error fault =>
    rw [hsplit] at hclean
    exact absurd hclean (not_clean_fail _)
  | ok parts =>
    rw [hsplit] at hclean
    -- the marks are laid out as the children are
    have hflat := Sections.split_flatten hsplit
    obtain ⟨hra, hrp, hrr, hrb⟩ := Sections.rank_of_split hsplit
    have hordered := (Sections.splitFrom_eq_ok.mp hsplit).1
    obtain ⟨annotations, parameters, returns, body⟩ := parts
    rw [h.children, eq_comm] at hflat
    obtain ⟨front, bs, rfl, hfront, rfl⟩ := List.map_eq_append_iff.mp hflat
    obtain ⟨front, rs, rfl, hfront, rfl⟩ := List.map_eq_append_iff.mp hfront
    obtain ⟨as, ps, rfl, rfl, rfl⟩ := List.map_eq_append_iff.mp hfront
    have hsplit' : Sections.split set'.tag? set'.children =
        .ok ⟨kept as, kept ps, kept rs, kept bs⟩ := by
      rw [h.kept, h.tags]
      simp only [kept_append]
      refine Sections.split_of_ranks ?_ (fun c hc => hra c ((kept_sublist as).subset hc))
        (fun c hc => hrp c ((kept_sublist ps).subset hc))
        (fun c hc => hrr c ((kept_sublist rs).subset hc))
        fun c hc => hrb c ((kept_sublist bs).subset hc)
      refine hordered.sublist ?_
      rw [h.children]
      simpa only [kept_append, ids_append] using kept_sublist (as ++ ps ++ rs ++ bs)
    rw [hsplit']
    exact hnext as ps rs bs rfl (fun m hm => hrp m.1 (List.mem_map_of_mem hm))
      (fun m hm => hrr m.1 (List.mem_map_of_mem hm)) hclean

end Script

end SourceScribe
