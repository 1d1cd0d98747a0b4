import Mathlib.Order.Lattice.Nat
import SourceScribe.Proofs.Carrying
import SourceScribe.Proofs.Composition
import SourceScribe.Proofs.Renumbering

/-!
# The limit of depth

The limit of depth is a threshold and nothing else. A traversal asks for room on
the path whenever it tries to write a node, also when the node turns out to have
been written before. As long as there is room, a traversal with another limit
takes the same steps; where there is none, it fails at once.
-/

namespace SourceScribe

open Relation (ReflTransGen)

namespace Request

variable {ast : Ast} {options : Options} {root id : NodeId} {m next last : Moment} {d : Nat}

/-- A traversal from a root tries to write a node at a depth, which is the number of
nodes on the path and one more. -/
def TriesAt (q : Request) (root : NodeId) (depth : Nat) : Prop :=
  ∃ m first id indent, q.Leads (.start root #[]) m ∧ m.control = .call first id indent ∧
    depth = m.path.length + 1

/-- A traversal tries to write its root. -/
theorem triesAt_one (q : Request) (root : NodeId) : q.TriesAt root 1 :=
  ⟨.start root #[], true, root, 0, .refl, rfl, rfl⟩

/-- No node is tried deeper than the limit and one more. -/
theorem TriesAt.le {q : Request} (hq : q.registry.Stock) (h : q.TriesAt root d) :
    d ≤ q.options.maxDepth + 1 := by
  obtain ⟨m, first, id, indent, hl, -, rfl⟩ := h
  have hshallow := ((Moment.Orderly.start root #[]).leads hq hl).shallow
  omega

/-- The same visitors on the same tree, with another limit of depth. -/
def limited (ast : Ast) (options : Options) (d : Nat) : Request :=
  standard ast { options with maxDepth := d }

/-- The script of a node does not depend on the limit. -/
theorem scriptOf_limited (node : Node) :
    (limited ast options d).scriptOf (.standard node.tag) id node =
      (standard ast options).scriptOf (.standard node.tag) id node :=
  Grammar.rule_of_separator options { options with maxDepth := d } rfl node.tag ast id node

section Gates

variable {first : Bool} {p : Progress} {node : Node} {visitor : Visitor}

/-- A node that may be looked at may be looked at under another limit, if there is
room. -/
theorem Admits.limited (ha : (standard ast options).Admits first id p node visitor)
    (hd : p.path.length < d) : (limited ast options d).Admits first id p node visitor :=
  ⟨ha.found, ha.fresh, hd, ha.linked, ha.supported⟩

/-- The step of a call that does not fail has looked at a node. -/
theorem admits_of_call {indent : Nat} (hcontrol : m.control = .call first id indent)
    (h : (standard ast options).step m = some next) (hnext : ∀ e, next.control ≠ .fail e) :
    ∃ node visitor, (standard ast options).Admits first id m.progress node visitor := by
  obtain ⟨control, stack, visited⟩ := m
  cases hcontrol
  have hmoves := step_moves h
  generalize (standard ast options).events _ = log at hmoves
  cases hmoves with
  | refuses _ => exact absurd rfl (hnext _)
  | skips ha _ => exact ⟨_, _, ha⟩
  | opens ha _ => exact ⟨_, _, ha⟩

end Gates

/-- As long as there is room, a step that does not fail is the same under another
limit. -/
theorem step_limited (h : (standard ast options).step m = some next)
    (hnext : ∀ e, next.control ≠ .fail e)
    (hroom : ∀ first id indent, m.control = .call first id indent → m.path.length < d) :
    (limited ast options d).step m = some next := by
  obtain ⟨control, stack, visited⟩ := m
  cases control with
  | work => cases stack <;> exact h
  | back result => cases stack <;> exact h
  | fail e =>
    cases stack with
    | nil => cases h
    | cons a outer =>
      cases h
      exact absurd rfl (hnext _)
  | call first id indent =>
    obtain ⟨node, visitor, ha⟩ := admits_of_call rfl h hnext
    have hgate := gate_admits ha
    have hgate' := gate_admits (ha.limited (hroom first id indent rfl))
    obtain rfl : Visitor.standard node.tag = visitor := Option.some.inj ha.supported
    have hscript : (limited ast options d).scriptOf (.standard node.tag) id node = _ :=
      scriptOf_limited node
    rw [← h]
    simp only [step, begin, hgate, hgate']
    cases (Visitor.standard node.tag).guard.admits _ id with
    | true =>
      simp only [if_true, hscript]
      rfl
    | false => rfl

/-- Where there is no room, a call that does not fail fails under the lower limit. -/
theorem step_exceeded {first : Bool} {indent : Nat}
    (h : (standard ast options).step m = some next) (hnext : ∀ e, next.control ≠ .fail e)
    (hcontrol : m.control = .call first id indent) (hfull : d ≤ m.path.length) :
    (limited ast options d).step m = some { m with
      control := .fail (.depthExceeded id d ((standard ast options).pathOf (id :: m.path))) } := by
  obtain ⟨node, visitor, ha⟩ := admits_of_call hcontrol h hnext
  have hgate : (limited ast options d).gate first id m.progress = .error (.depthExceeded id d
      ((standard ast options).pathOf (id :: m.path))) := gate_depth ha.found ha.fresh hfull
  obtain ⟨control, stack, visited⟩ := m
  cases hcontrol
  simp only [step, begin, hgate]

/-- A traversal that does not fail comes just as far under another limit, or else to a
call for which there is no room. -/
theorem Leads.limited (h : (standard ast options).Leads (.start root #[]) m)
    (hm : (standard ast options).Leads m last) (hlast : ∀ e, last.control ≠ .fail e) (d : Nat) :
    (limited ast options d).Leads (.start root #[]) m ∨
      ∃ full first id indent, (limited ast options d).Leads (.start root #[]) full ∧
        (standard ast options).Leads (.start root #[]) full ∧
        (standard ast options).Leads full last ∧
        full.control = .call first id indent ∧ d ≤ full.path.length := by
  induction h with
  | refl => exact .inl .refl
  | @tail before m hl hstep ih =>
    have hsound : ∀ e, m.control ≠ .fail e := hm.sound hlast
    rcases ih (.head hstep hm) with hl' | hfull
    · by_cases hfull : ∃ first id indent, before.control = .call first id indent ∧
          d ≤ before.path.length
      · obtain ⟨first, id, indent, hcontrol, hlength⟩ := hfull
        exact .inr ⟨before, first, id, indent, hl', hl, .head hstep hm, hcontrol, hlength⟩
      · push Not at hfull
        exact .inl (hl'.tail (step_limited hstep hsound hfull))
    · exact .inr hfull

/-- Where a traversal has failed for want of room, it ends so. -/
theorem Leads.depthExceeded {q : Request} {path : NodePath} (h : q.Leads m last)
    (hm : m.control = .fail (.depthExceeded id d path)) :
    ∃ path', last.control = .fail (.depthExceeded id d path') := by
  induction h with
  | refl => exact ⟨path, hm⟩
  | @tail before last _ hstep ih =>
    obtain ⟨path', hpath'⟩ := ih
    obtain ⟨control, stack, visited⟩ := before
    cases hpath'
    cases stack with
    | nil => cases hstep
    | cons a outer =>
      cases hstep
      cases path' with
      | nil => exact ⟨_, rfl⟩
      | cons entry rest => exact ⟨_, rfl⟩

/-- What a traversal comes back with in the end is its result. -/
theorem run_eq_ok_iff_back {q : Request} {buffer : Buffer} {p : Progress} :
    q.run root {} = .ok buffer p ↔
      ∃ result, q.Leads (.start root #[]) ⟨.back result, [], p.visited⟩ ∧ p.path = [] ∧
        buffer = result.getD (.ofNode root 0 q.options.indent) := by
  obtain ⟨last, hl, hlast, hdelivers⟩ := q.run_delivered root #[]
  change last.Delivers q root (q.run root {}) at hdelivers
  constructor
  · intro h
    rw [h] at hdelivers
    obtain ⟨hpath, result, rfl, hbuffer⟩ := hdelivers
    exact ⟨result, hl, hpath, hbuffer⟩
  · rintro ⟨result, h, hpath, rfl⟩
    obtain rfl : last = ⟨.back result, [], p.visited⟩ := (h.to_last hl hlast).eq_of_stopped rfl
    cases hrun : q.run root {} with
    | ok buffer' p' =>
      rw [hrun] at hdelivers
      obtain ⟨hpath', result', hback, rfl⟩ := hdelivers
      obtain ⟨visited, path⟩ := p
      obtain ⟨visited', path'⟩ := p'
      cases hback
      cases hpath
      cases hpath'
      rfl
    | error e p' =>
      rw [hrun] at hdelivers
      cases congrArg Moment.control hdelivers.2

/-- What a traversal fails with in the end is its error. -/
theorem run_of_fail {q : Request} {e : GenerateError} (h : q.Leads (.start root #[]) m)
    (hm : m.control = .fail e) (hstopped : q.step m = none) :
    ∃ p, q.run root {} = .error e p := by
  obtain ⟨last, hl, hlast, hdelivers⟩ := q.run_delivered root #[]
  change last.Delivers q root (q.run root {}) at hdelivers
  obtain rfl : last = m := (h.to_last hl hlast).eq_of_stopped hstopped
  cases hrun : q.run root {} with
  | ok buffer p =>
    rw [hrun] at hdelivers
    obtain ⟨-, result, rfl, -⟩ := hdelivers
    cases hm
  | error e' p =>
    rw [hrun] at hdelivers
    obtain ⟨-, rfl⟩ := hdelivers
    cases hm
    exact ⟨p, rfl⟩

section Thresholds

variable {buffer : Buffer} {p : Progress} (h : (standard ast options).run root {} = .ok buffer p)
include h

/-- Under a limit that leaves room for every node that is tried, a traversal does what
it does otherwise. -/
theorem run_in_room (hroom : ∀ n, (standard ast options).TriesAt root n → n ≤ d) :
    (limited ast options d).run root {} = .ok buffer p := by
  obtain ⟨result, hl, hpath, hbuffer⟩ := run_eq_ok_iff_back.mp h
  refine run_eq_ok_iff_back.mpr ⟨result, ?_, hpath, hbuffer⟩
  rcases hl.limited .refl (by simp) d with hl' | ⟨full, first, id, indent, -, hfull, -, hc, hlength⟩
  · exact hl'
  · have hle := hroom _ ⟨full, first, id, indent, hfull, hc, rfl⟩
    omega

/-- Under a limit that leaves no room for a node that is tried, the traversal fails. -/
theorem run_without_room {n : Nat} (hn : (standard ast options).TriesAt root n) (hd : d < n) :
    ∃ id path p', (limited ast options d).run root {} = .error (.depthExceeded id d path) p' := by
  obtain ⟨result, hl, -, -⟩ := run_eq_ok_iff_back.mp h
  obtain ⟨deep, first, id, indent, hdeep, hc, rfl⟩ := hn
  have hrest : (standard ast options).Leads deep _ := hdeep.to_last hl rfl
  -- the node itself, or one for which there was no room before
  obtain ⟨full, first, id, indent, hfull, hrest, hcontrol, hlength⟩ :
      ∃ full first id indent, (limited ast options d).Leads (.start root #[]) full ∧
        (standard ast options).Leads full ⟨.back result, [], p.visited⟩ ∧
        full.control = .call first id indent ∧ d ≤ full.path.length := by
    rcases hdeep.limited hrest (by simp) d with hl' | ⟨full, first, id, indent, hl', -, hfull⟩
    · exact ⟨deep, first, id, indent, hl', hrest, hc, Nat.le_of_lt_succ hd⟩
    · exact ⟨full, first, id, indent, hl', hfull⟩
  obtain ⟨next, hstep⟩ : ∃ next, (standard ast options).step full = some next := by
    obtain ⟨control, stack, visited⟩ := full
    cases hcontrol
    exact ⟨_, rfl⟩
  have hnext : (standard ast options).Leads next _ := (Leads.single hstep).to_last hrest rfl
  have hfails : (limited ast options d).Leads (.start root #[]) _ :=
    hfull.tail (step_exceeded hstep (hnext.sound (by simp)) hcontrol hlength)
  obtain ⟨final, hfinal, hstopped, -⟩ := (limited ast options d).run_delivered root #[]
  obtain ⟨path, hpath⟩ := (hfails.to_last hfinal hstopped).depthExceeded rfl
  obtain ⟨p', hrun⟩ := run_of_fail hfinal hpath hstopped
  exact ⟨id, path, p', hrun⟩

end Thresholds

/-- **The limit of depth is a threshold.** If a traversal succeeds under some limit,
there is a depth, the greatest at which it tries to write a node, such that under
every limit from there on it succeeds with the same buffer and the same nodes in the
same order, and so with the same text and the same map of it, and under every lower
limit it fails because its path would be too long. -/
theorem run_has_threshold {buffer : Buffer} {p : Progress}
    (h : (standard ast options).run root {} = .ok buffer p) :
    ∃ depth, IsGreatest {n | (standard ast options).TriesAt root n} depth ∧
      (∀ d, depth ≤ d →
        (standard ast { options with maxDepth := d }).run root {} = .ok buffer p ∧
          ∀ file, ast.root = some root →
            ({ options := { options with maxDepth := d } } : Generator).generateWithMap ast file =
              ({ options := options } : Generator).generateWithMap ast file) ∧
      ∀ d < depth, ∃ id path p',
        (standard ast { options with maxDepth := d }).run root {} =
          .error (.depthExceeded id d path) p' := by
  have hbounded : BddAbove {n | (standard ast options).TriesAt root n} :=
    ⟨_, fun n hn => hn.le Registry.stock_standard⟩
  have hgreatest : IsGreatest {n | (standard ast options).TriesAt root n} (sSup _) :=
    ⟨Nat.sSup_mem ⟨1, triesAt_one _ root⟩ hbounded, fun n hn => le_csSup hbounded hn⟩
  refine ⟨_, hgreatest, fun d hd => ?_, fun d hd => run_without_room h hgreatest.1 hd⟩
  have hrun : (limited ast options d).run root {} = .ok buffer p :=
    run_in_room h fun n hn => (hgreatest.2 hn).trans hd
  have hrender : ({ options := { options with maxDepth := d } } : Generator).render ast root =
      ({ options := options } : Generator).render ast root := by
    rw [Generator.render_eq_ok.mpr ⟨p, hrun⟩, Generator.render_eq_ok.mpr ⟨p, h⟩]
  refine ⟨hrun, fun file hroot => ?_⟩
  simp only [Generator.generateWithMap, Generator.rootOf, hroot, bind, Except.bind, hrender]

/-- A block with a statement and a block that lists the statement again. -/
def deepReference : Ast where
  nodes := #[
    { construct := .blockStatement, children := [⟨1⟩, ⟨2⟩] },
    { construct := .breakStatement, parent := some ⟨0⟩ },
    { construct := .blockStatement, children := [⟨1⟩], parent := some ⟨0⟩ }]

/-- The statement is written at the second level only, but it is tried at the third, which
decides. -/
theorem run_has_threshold_deepReference :
    ∃ buffer p, (standard deepReference {}).run ⟨0⟩ {} = .ok buffer p ∧
      IsGreatest {n | (standard deepReference {}).TriesAt ⟨0⟩ n} 3 ∧
      (∀ d, 3 ≤ d → (standard deepReference { maxDepth := d }).run ⟨0⟩ {} = .ok buffer p) ∧
      ∀ d < 3, ∃ id path p', (standard deepReference { maxDepth := d }).run ⟨0⟩ {} =
        .error (.depthExceeded id d path) p' := by
  have hentered : (standard deepReference {}).entered? ⟨0⟩ = some [⟨0⟩, ⟨1⟩, ⟨2⟩] := by
    decide +kernel
  have hthree : ((standard deepReference { maxDepth := 3 }).entered? ⟨0⟩).isSome = true := by
    decide +kernel
  have htwo : (standard deepReference { maxDepth := 2 }).entered? ⟨0⟩ = none := by
    decide +kernel
  obtain ⟨buffer, p, h, -⟩ := exists_of_entered? hentered
  obtain ⟨depth, hgreatest, hroom, hexceeded⟩ := run_has_threshold h
  obtain rfl : depth = 3 := by
    rcases Nat.lt_trichotomy depth 3 with hlt | heq | hlt
    · have hrun := (hroom 2 (Nat.le_of_lt_succ hlt)).1
      simp only [entered?, hrun] at htwo
      cases htwo
    · exact heq
    · obtain ⟨id, path, p', hrun⟩ := hexceeded 3 hlt
      simp only [entered?, hrun] at hthree
      cases hthree
  exact ⟨buffer, p, h, hgreatest, fun d hd => (hroom d hd).1, hexceeded⟩

end Request

end SourceScribe
