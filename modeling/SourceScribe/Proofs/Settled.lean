import SourceScribe.Proofs.Coverage
import SourceScribe.Proofs.Steps

/-!
# Nodes that have been written

A node that has been entered and is no longer being written is settled: it has
every property that climbs from the children of a node to the node. Every call
that succeeds keeps this, because a script hands over each child of its node and
a child is passed over only when it is settled itself. So all that lies below
such a node was found, has parent links, runs in no cycle and was not rejected.
This needs visitors that write every child and enter no node twice.
-/

namespace SourceScribe

/-- The node is there and has a parent link. -/
def Ast.Attached (ast : Ast) (id : NodeId) : Prop :=
  ∃ node, ast.node? id = some node ∧ node.parent.isSome = true

/-- Nothing is amiss with the links below a node. -/
structure Ast.Sound (ast : Ast) (id : NodeId) : Prop where
  /-- No endless descent starts at the node. -/
  founded : ast.Founded id
  /-- What is listed at the node or below it is there and has a parent link. -/
  attached : ∀ parent child, ast.Reaches id parent → ast.Links parent child → ast.Attached child

/-- Nothing is amiss below a node if nothing is amiss with its children. -/
theorem Ast.Sound.of_children {ast : Ast} {id : NodeId}
    (h : ∀ child, ast.Links id child → ast.Attached child ∧ ast.Sound child) : ast.Sound id where
  founded := Acc.intro id fun child hl => (h child hl).2.founded
  attached := by
    intro parent child hr hl
    rcases Relation.ReflTransGen.cases_head hr with rfl | ⟨next, hnext, hr⟩
    · exact (h child hl).1
    · exact (h next hnext).2.attached parent child hr hl

/-- Every visitor writes all children and enters a node only once. -/
def Registry.Thorough (r : Registry) : Prop :=
  ∀ tag visitor, r.find? tag = some visitor → visitor.guard = .once ∧ visitor.rule.Covers

/-- The visitors of the grammar write all children and enter a node once. -/
theorem Registry.thorough_standard : Registry.standard.Thorough := by
  intro tag visitor h
  cases h
  exact ⟨rfl, Grammar.covers_rule tag⟩

/-- A node may be entered once exactly when it is not among those entered. -/
theorem Guard.admits_once {visited : Array NodeId} {id : NodeId} :
    Guard.once.admits visited id = true ↔ id ∉ visited := by
  simp only [admits, Bool.not_eq_true', ← Bool.not_eq_true, Array.contains_iff_mem]

/-- The nodes entered after going into a new node. -/
theorem Progress.visited_enter {p : Progress} {id : NodeId} (h : id ∉ p.visited) :
    (p.enter id).visited = p.visited.push id := by
  rw [enter, if_neg (by rwa [Array.contains_iff_mem])]

namespace Request

variable {q : Request} {p p' : Progress} {id : NodeId} {node : Node} {visitor : Visitor}

/-- A request with the visitors of the grammar. -/
def standard (ast : Ast) (options : Options) : Request := ⟨ast, .standard, options⟩

/-- Every node that was entered and left again has a property. -/
def Settled (P : NodeId → Prop) (p : Progress) : Prop := ∀ id ∈ p.visited, id ∉ p.path → P id

/-- A property climbs when a node whose script is clean has it as soon as its
children are attached and have it. -/
def Climbs (q : Request) (P : NodeId → Prop) : Prop :=
  ∀ id node visitor, q.ast.node? id = some node → q.registry.find? node.tag = some visitor →
    Script.Clean (q.scriptOf visitor id node) →
    (∀ child, q.ast.Links id child → q.ast.Attached child ∧ P child) → P id

/-- A clean script of a thorough visitor asks for the children of its node. -/
theorem calls_scriptOf (hq : q.registry.Thorough) {first : Bool}
    (ha : q.Admits first id p node visitor) (hc : Script.Clean (q.scriptOf visitor id node)) :
    Script.calls (q.scriptOf visitor id node) = q.ast.children id := by
  have hcovers := (hq _ _ ha.supported).2 ⟨q.ast, q.options, id, node⟩
  rw [scriptOf, hcovers.all hc, Ast.children_of_node ha.found]
  rfl

/-- What a script asks for is listed at its node. -/
theorem links_of_calls (hc : visitor.rule.Covers) {first : Bool}
    (ha : q.Admits first id p node visitor) {child : NodeId}
    (hm : child ∈ Script.calls (q.scriptOf visitor id node)) : q.ast.Links id child := by
  have hlisted : child ∈ node.children := (hc ⟨q.ast, q.options, id, node⟩).only.subset hm
  rwa [Ast.Links, Ast.children_of_node ha.found]

/-- A node that is let in as a child is attached. -/
theorem Admits.attached {first : Bool} (ha : q.Admits first id p node visitor)
    (hfirst : first = false) : q.ast.Attached id := by
  rcases ha.linked with hroot | hparent
  · rw [hroot] at hfirst
    cases hfirst
  · exact ⟨node, ha.found, hparent⟩

/-- A call that succeeds passes over a node that has been entered, or it enters a
new node whose script is clean and walks over all of its children. -/
theorem render_eq_ok (hq : q.registry.Thorough) {limit : Nat} {first : Bool} {indent : Nat}
    {result : Option Buffer} (h : q.render (limit + 1) first id indent p = .ok result p') :
    ∃ node visitor, q.Admits first id p node visitor ∧
      (id ∈ p.visited ∧ p' = p ∨
        id ∉ p.visited ∧ Script.Clean (q.scriptOf visitor id node) ∧
          ∃ p₁, (q.render limit false).Walk (q.ast.children id) (p.enter id) p₁ ∧
            p' = p₁.leave) := by
  rcases q.render_cases limit first id indent p with
    ⟨e, _, he⟩ | ⟨node, visitor, ha, hcases⟩
  · rw [he] at h
    cases h
  · refine ⟨node, visitor, ha, ?_⟩
    rw [(hq _ _ ha.supported).1] at hcases
    rcases hcases with ⟨hg, hskip⟩ | ⟨hg, henter⟩
    · have hold : id ∈ p.visited := by
        by_contra hn
        rw [Guard.admits_once.mpr hn] at hg
        cases hg
      rw [hskip] at h
      cases h
      exact .inl ⟨hold, rfl⟩
    · have hnew : id ∉ p.visited := Guard.admits_once.mp hg
      rw [henter] at h
      obtain ⟨hclean, _, p₁, hw, hleave⟩ := enter_eq_ok h
      rw [calls_scriptOf hq ha hclean] at hw
      exact .inr ⟨hnew, hclean, p₁, hw, hleave⟩

/-- A new node may be entered before it has the property. -/
theorem Settled.enter {P : NodeId → Prop} (hp : Settled P p) (hnew : id ∉ p.visited) :
    Settled P (p.enter id) := by
  intro x hx hout
  rw [Progress.visited_enter hnew, Array.mem_push] at hx
  have hpath : x ∉ id :: p.path := hout
  rw [List.mem_cons, not_or] at hpath
  exact hp x (hx.resolve_right hpath.1) hpath.2

/-- A node may be left when it has the property. -/
theorem Settled.leave {P : NodeId → Prop} {rest : List NodeId} (hp : Settled P p)
    (hpath : p.path = id :: rest) (hid : P id) : Settled P p.leave := by
  intro x hx hout
  have hrest : x ∉ rest := by simpa only [Progress.leave, hpath, List.tail_cons] using hout
  by_cases hxid : x = id
  · rw [hxid]
    exact hid
  · have hoff : x ∉ p.path := by
      rw [hpath, List.mem_cons, not_or]
      exact ⟨hxid, hrest⟩
    exact hp x hx hoff

/-- A walk settles what it goes over, if each call settles its node. -/
theorem Settled.walk {P : NodeId → Prop} {render : Renderer} {ids : List NodeId}
    (hp : Settled P p) (hw : render.Walk ids p p')
    (hcall : ∀ {child p p'}, render.Passes child p p' → Settled P p →
      Settled P p' ∧ q.ast.Attached child ∧ P child) :
    Settled P p' ∧ ∀ child ∈ ids, q.ast.Attached child ∧ P child := by
  induction hw with
  | nil p => exact ⟨hp, by simp⟩
  | cons hpass _ ih =>
    obtain ⟨hnext, hchild⟩ := hcall hpass hp
    obtain ⟨hend, hrest⟩ := ih hnext
    refine ⟨hend, ?_⟩
    intro child hm
    rcases List.mem_cons.mp hm with rfl | hm
    · exact hchild
    · exact hrest child hm

/-- A call that succeeds keeps all nodes settled, the node it was made for has the
property, and it is attached unless it is the first. -/
theorem render_settled (hq : q.registry.Thorough) {P : NodeId → Prop} (hP : q.Climbs P)
    {limit : Nat} {first : Bool} {indent : Nat} {result : Option Buffer}
    (h : q.render limit first id indent p = .ok result p') (hp : Settled P p) :
    Settled P p' ∧ P id ∧ (first = false → q.ast.Attached id) := by
  induction limit generalizing first id indent p p' result with
  | zero => cases h
  | succ limit ih =>
    obtain ⟨node, visitor, ha, hcases⟩ := render_eq_ok hq h
    rcases hcases with ⟨hold, rfl⟩ | ⟨hnew, hclean, p₁, hw, rfl⟩
    · exact ⟨hp, hp id hold ha.fresh, ha.attached⟩
    · have hcall : ∀ {child a b}, (q.render limit false).Passes child a b → Settled P a →
          Settled P b ∧ q.ast.Attached child ∧ P child := by
        rintro child a b ⟨indent, result, hr⟩ hs
        obtain ⟨hend, hchild, hattached⟩ := ih hr hs
        exact ⟨hend, hattached rfl, hchild⟩
      obtain ⟨hend, hchildren⟩ := (hp.enter hnew).walk hw hcall
      have hid : P id := hP id node visitor ha.found ha.supported hclean hchildren
      exact ⟨hend.leave (walk_path hw) hid, hid, ha.attached⟩

/-- The first node of a traversal that succeeds has every property that climbs. -/
theorem run_climbs {ast : Ast} {options : Options} {root : NodeId} {buffer : Buffer}
    {P : NodeId → Prop} (hP : (Request.standard ast options).Climbs P)
    (h : (Request.standard ast options).run root {} = .ok buffer p) : P root := by
  have hthorough : (Request.standard ast options).registry.Thorough := Registry.thorough_standard
  have hstart : Settled P {} := by
    intro id hid
    simp at hid
  obtain ⟨result, hr, _⟩ := run_eq_ok h
  exact (render_settled hthorough hP hr hstart).2.1

/-- Nothing is amiss below a node that was written as the first of a
traversal. -/
theorem run_sound {ast : Ast} {options : Options} {root : NodeId} {buffer : Buffer}
    (h : (Request.standard ast options).run root {} = .ok buffer p) : ast.Sound root :=
  run_climbs (fun _ _ _ _ _ _ hchildren => Ast.Sound.of_children hchildren) h

/-- Below a node that was written as the first of a traversal every script is
clean. -/
theorem run_clean {ast : Ast} {options : Options} {root : NodeId} {buffer : Buffer}
    (h : (Request.standard ast options).run root {} = .ok buffer p) {id : NodeId} {node : Node}
    (hr : ast.Reaches root id) (hn : ast.node? id = some node) :
    Script.Clean (Grammar.rule node.tag ⟨ast, options, id, node⟩) := by
  have hclimbs : (Request.standard ast options).Climbs fun start => ∀ id node,
      ast.Reaches start id → ast.node? id = some node →
        Script.Clean (Grammar.rule node.tag ⟨ast, options, id, node⟩) := by
    intro start found visitor hfound hvisitor hclean hchildren id node hr hn
    rcases Relation.ReflTransGen.cases_head hr with rfl | ⟨child, hl, hr⟩
    · cases hvisitor
      have hsame : found = node := Option.some.inj (hfound.symm.trans hn)
      rwa [hsame] at hclean
    · exact (hchildren child hl).2 id node hr hn
  exact run_climbs hclimbs h id node hr hn

end Request

end SourceScribe
