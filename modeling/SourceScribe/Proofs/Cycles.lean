import SourceScribe.Proofs.Settled

/-!
# Cycles are found

A traversal never succeeds when a cycle can be reached from its first node,
however the nodes are shared, and it reports a cycle only when there is one.
For the first, every node that was entered and left again is known to reach
no cycle. For the second, the path is a simple path along child links, so that
a node that is met again on it closes a cycle; such a path cannot grow beyond
the number of nodes, and the bound on nested calls is never the reason for a
report.
-/

namespace SourceScribe

/-- To fix the path of an error does not make it a cycle. -/
theorem GenerateError.within_eq_cycleDetected {e : GenerateError} {path fixed : NodePath}
    {node : NodeId} (h : e.within path = .cycleDetected node fixed) :
    ∃ path', e = .cycleDetected node path' := by
  unfold within at h
  split at h
  next => cases h
  next => cases h
  next => cases h
  next =>
    cases h
    exact ⟨[], rfl⟩
  next => cases h
  next => exact ⟨fixed, h⟩

namespace Request

variable {q : Request} {p p' : Progress} {id : NodeId}

/-- What a node raises itself is no cycle. -/
theorem Raises.ne_cycleDetected {render : Renderer} {tag : Tag} {s : Script} {e : GenerateError}
    (h : q.Raises render id tag s p e) (node : NodeId) (path : NodePath) :
    e ≠ .cycleDetected node path := by
  cases h with
  | rejects _ => rintro ⟨⟩
  | leftOut _ _ =>
    unfold alreadyGenerated
    dsimp only
    split <;> rintro ⟨⟩

/-- A call that reports a cycle was made for a node from which one can be
reached. -/
theorem render_reports_cycle (hq : q.registry.Thorough) {limit : Nat} {first : Bool}
    {indent : Nat} {node : NodeId} {path : NodePath} (ht : q.ast.Trail p.path)
    (hl : ∀ outer ∈ p.path.head?, q.ast.Links outer id)
    (hlimit : q.ast.size < limit + p.path.length)
    (h : q.render limit first id indent p = .error (.cycleDetected node path) p') :
    q.ast.ReachesCycle id := by
  induction limit generalizing first id indent p p' path with
  | zero =>
    have hlength := ht.toSimple.length_le
    omega
  | succ limit ih =>
    rcases q.render_cases limit first id indent p with
      ⟨e, hrefuses, he⟩ | ⟨found, visitor, ha, ⟨_, hskip⟩ | ⟨_, henter⟩⟩
    · rw [he] at h
      cases h
      cases hrefuses with
      | cycle hm => exact ⟨_, Relation.ReflTransGen.refl, ht.closes hm hl⟩
    · rw [hskip] at h
      cases h
    · rw [henter] at h
      obtain ⟨e', p₁, hstops, hwithin, rfl⟩ := enter_eq_error h
      obtain ⟨path', rfl⟩ := GenerateError.within_eq_cycleDetected hwithin.symm
      cases hstops with
      | inside before after child p₂ hcalls hw hf =>
        obtain ⟨indent', hf⟩ := hf
        have hlisted : q.ast.Links id child :=
          links_of_calls (hq _ _ ha.supported).2 ha (by simp [hcalls])
        have hknown : q.ast.has id = true := Ast.has_iff.mpr ⟨found, ha.found⟩
        have hpath : p₂.path = id :: p.path := walk_path hw
        have htrail : q.ast.Trail p₂.path := hpath ▸ ht.push hknown ha.fresh hl
        have hlinked : ∀ outer ∈ p₂.path.head?, q.ast.Links outer child := by
          rw [hpath]
          rintro outer ⟨⟩
          exact hlisted
        have hlonger : q.ast.size < limit + p₂.path.length := by
          rw [hpath, List.length_cons]
          omega
        exact (ih htrail hlinked hlonger hf).of_link hlisted
      | itself before after _ _ hraises => exact absurd rfl (hraises.ne_cycleDetected node path')

/-- A traversal fails whenever a cycle can be reached from its first node, and
it reports a cycle only then. -/
theorem run_detects_cycles (ast : Ast) (options : Options) (root : NodeId) :
    (ast.ReachesCycle root →
        ∃ e p, (Request.standard ast options).run root {} = .error e p) ∧
      (¬ast.ReachesCycle root → ∀ node path p,
        (Request.standard ast options).run root {} ≠ .error (.cycleDetected node path) p) := by
  constructor
  · intro hcycle
    cases h : (Request.standard ast options).run root {} with
    | ok buffer p => exact absurd hcycle (run_sound h).founded.not_reachesCycle
    | error e p => exact ⟨e, p, rfl⟩
  · intro hno node path p h
    have hrender := run_eq_error.mp h
    apply hno
    have hthorough : (Request.standard ast options).registry.Thorough := Registry.thorough_standard
    refine render_reports_cycle hthorough Ast.Trail.nil (by simp) ?_ hrender
    exact Nat.lt_add_one ast.size

/-- Two blocks that share a statement; the second lists a third block, which
lists the given node. -/
def twoBlocks (last : NodeId) : Ast where
  nodes := #[
    { construct := .blockStatement, children := [⟨1⟩, ⟨2⟩] },
    { construct := .blockStatement, children := [⟨3⟩], parent := some ⟨0⟩ },
    { construct := .blockStatement, children := [⟨3⟩, ⟨4⟩], parent := some ⟨0⟩ },
    { construct := .breakStatement, parent := some ⟨1⟩ },
    { construct := .blockStatement, children := [last], parent := some ⟨2⟩ }]

/-- A cycle behind a statement that was written before is an error; without the
cycle nothing is reported. -/
theorem run_detects_cycles_twoBlocks :
    (twoBlocks ⟨2⟩).ReachesCycle ⟨0⟩ ∧
      (∃ e p, (Request.standard (twoBlocks ⟨2⟩) {}).run ⟨0⟩ {} = .error e p) ∧
      ¬(twoBlocks ⟨3⟩).ReachesCycle ⟨0⟩ ∧
      ∀ node path p,
        (Request.standard (twoBlocks ⟨3⟩) {}).run ⟨0⟩ {} ≠ .error (.cycleDetected node path) p := by
  have hcycle : (twoBlocks ⟨2⟩).ReachesCycle ⟨0⟩ := by
    refine ⟨⟨2⟩, Relation.ReflTransGen.single ?_, Relation.TransGen.tail (b := ⟨4⟩)
      (Relation.TransGen.single ?_) ?_⟩
    · change NodeId.mk 2 ∈ [NodeId.mk 1, ⟨2⟩]
      decide
    · change NodeId.mk 4 ∈ [NodeId.mk 3, ⟨4⟩]
      decide
    · change NodeId.mk 2 ∈ [NodeId.mk 2]
      decide
  have hentered : (Request.standard (twoBlocks ⟨3⟩) {}).entered? ⟨0⟩ =
      some [⟨0⟩, ⟨1⟩, ⟨3⟩, ⟨2⟩, ⟨4⟩] := by decide +kernel
  have hno : ¬(twoBlocks ⟨3⟩).ReachesCycle ⟨0⟩ := by
    obtain ⟨buffer, p, h, _⟩ := exists_of_entered? hentered
    exact (run_sound h).founded.not_reachesCycle
  exact ⟨hcycle, (run_detects_cycles _ {} ⟨0⟩).1 hcycle, hno,
    (run_detects_cycles _ {} ⟨0⟩).2 hno⟩

end Request

end SourceScribe
