import Mathlib.Data.List.Perm.Basic
import SourceScribe.Proofs.Jobs

/-!
# Plans

Which documents have the same output is known before the first job runs, and the jobs
that have rivals may write nothing. So in whatever order the jobs of a plan are put,
no two of them may write the same file, and none may write a file twice.
-/

namespace SourceScribe

namespace Job

variable (config : ProjectConfig) (target : OutputTarget) (inputs : List Path)

/-- The documents whose outputs lead the same way as a path. -/
def rivals (output : Path) : List Path :=
  inputs.filter fun other => (outputIn config target other).any output.sameWay

/-- The job for a document among others. -/
def planned (input : Path) : Job :=
  ⟨input, outputIn config target input,
    ((outputIn config target input).map (rivals config target inputs)).getD []⟩

/-- The jobs are planned for all documents before the first one runs. -/
theorem plan_eq : plan config target inputs = inputs.map (planned config target inputs) := by
  have hclaimants : claimantsOf (inputs.map fun input => (input, outputIn config target input)) =
      rivals config target inputs := by
    funext output
    rw [claimantsOf, List.filter_map, List.map_map]
    exact List.map_id'' (fun _ => rfl) _
  unfold plan
  dsimp only
  rw [hclaimants, List.map_map]
  rfl

/-- Another position of the list has an output that leads the same way. -/
def Contested (i : Nat) (output : Path) : Prop :=
  ∃ j other path, j ≠ i ∧ inputs[j]? = some other ∧ outputIn config target other = some path ∧
    output.sameWay path

variable {config target inputs} {i j : Nat} {input other output : Path}

/-- At least two members of a list have a property just if another one has it besides
one that has it. -/
theorem two_le_length_filter_iff {α : Type} {p : α → Bool} {l : List α} {a : α}
    (ha : l[i]? = some a) (hp : p a) :
    2 ≤ (l.filter p).length ↔ ∃ j b, j ≠ i ∧ l[j]? = some b ∧ p b := by
  obtain ⟨hi, hget⟩ := List.getElem?_eq_some_iff.mp ha
  have hperm : (a :: l.eraseIdx i).Perm l := hget ▸ List.getElem_cons_eraseIdx_perm hi
  have hlength : (l.filter p).length = ((l.eraseIdx i).filter p).length + 1 := by
    rw [← (hperm.filter p).length_eq, List.filter_cons_of_pos hp, List.length_cons]
  have hother : 0 < ((l.eraseIdx i).filter p).length ↔ ∃ j b, j ≠ i ∧ l[j]? = some b ∧ p b := by
    rw [List.length_pos_iff_exists_mem]
    constructor
    · rintro ⟨b, hb⟩
      obtain ⟨hmem, hpb⟩ := List.mem_filter.mp hb
      obtain ⟨j, hne, hj⟩ := List.mem_eraseIdx_iff_getElem?.mp hmem
      exact ⟨j, b, hne, hj, hpb⟩
    · rintro ⟨j, b, hne, hj, hpb⟩
      exact ⟨b, List.mem_filter.mpr ⟨List.mem_eraseIdx_iff_getElem?.mpr ⟨j, hne, hj⟩, hpb⟩⟩
  rw [← hother]
  omega

/-- A job has rivals just if another position of the list has its output. -/
theorem contested_iff (hinput : inputs[i]? = some input)
    (houtput : outputIn config target input = some output) :
    Contested config target inputs i output ↔
      2 ≤ (planned config target inputs input).claimants.length := by
  have hclaimants : (planned config target inputs input).claimants =
      rivals config target inputs output := by
    rw [planned, houtput]
    rfl
  have hself : (outputIn config target input).any output.sameWay = true := by
    rw [houtput]
    exact output.sameWay_refl
  rw [hclaimants, rivals, two_le_length_filter_iff hinput hself]
  constructor
  · rintro ⟨j, other, path, hne, hj, hpath, hsame⟩
    refine ⟨j, other, hne, hj, ?_⟩
    rw [hpath]
    exact hsame
  · rintro ⟨j, other, hne, hj, hany⟩
    obtain ⟨path, hpath, hsame⟩ := (Option.any_eq_true _ _).mp hany
    exact ⟨j, other, path, hne, hj, hpath, hsame⟩

/-- A job has its output alone just if no other position of the list has it. -/
theorem not_contested_iff (hinput : inputs[i]? = some input)
    (houtput : outputIn config target input = some output) :
    ¬ Contested config target inputs i output ↔
      (planned config target inputs input).claimants.length < 2 := by
  rw [contested_iff hinput houtput, Nat.not_le]

/-- A job whose output no other position of the list has generates its document. -/
theorem planned_alone (hinput : inputs[i]? = some input)
    (halone : ∀ output, outputIn config target input = some output →
      ¬ Contested config target inputs i output) :
    (planned config target inputs input).output = none ∨
      (planned config target inputs input).claimants.length < 2 := by
  cases houtput : outputIn config target input with
  | none => exact .inl houtput
  | some output =>
    exact .inr ((not_contested_iff hinput houtput).mp (halone output houtput))

/-- A job that has its output alone may write it and its source map, and nothing else. -/
theorem mem_files {p : Path} : p ∈ (planned config target inputs input).files ↔
    ∃ output, outputIn config target input = some output ∧ (p = output ∨ p = mapPath output) ∧
      (planned config target inputs input).claimants.length < 2 := by
  have houtput : (planned config target inputs input).output = outputIn config target input := rfl
  unfold files
  rw [houtput]
  split
  case isTrue hmany =>
    refine iff_of_false List.not_mem_nil ?_
    rintro ⟨output, -, -, hfew⟩
    omega
  case isFalse hfew =>
    have hfew' : (planned config target inputs input).claimants.length < 2 := by omega
    cases outputIn config target input with
    | none => simp [filesFor]
    | some output => simp [filesFor, hfew']

/-- If there are outputs at all, they lie in a folder that is named for all, or each
beside its document. -/
theorem exists_directory {output' : Path} (h : outputIn config target input = some output)
    (h' : outputIn config target other = some output') :
    ∃ directory, output = outputPath input directory ∧ output' = outputPath other directory := by
  cases target with
  | shown => cases h
  | files directory =>
    exact ⟨directory.or config.outDir, (Option.some.inj h).symm, (Option.some.inj h').symm⟩

/-- If the generated files of two documents lead different ways, so do all files that
are written for them. -/
theorem apart_of_outputs {directory : Option Path} {p q : Path}
    (hp : p = outputPath input directory ∨ p = mapPath (outputPath input directory))
    (hq : q = outputPath other directory ∨ q = mapPath (outputPath other directory))
    (h : ¬ (outputPath input directory).sameWay (outputPath other directory)) :
    ¬ p.sameWay q := by
  obtain rfl | rfl := hp <;> obtain rfl | rfl := hq
  · exact h
  · rw [outputPath_not_sameWay_mapPath]
    exact Bool.false_ne_true
  · rw [Path.sameWay_comm, outputPath_not_sameWay_mapPath]
    exact Bool.false_ne_true
  · rwa [mapPath_sameWay_iff]

/-- No file may be written for the documents of two positions. -/
theorem files_apart (hij : i ≠ j) (hinput : inputs[i]? = some input)
    (hother : inputs[j]? = some other) {p q : Path}
    (hp : p ∈ (planned config target inputs input).files)
    (hq : q ∈ (planned config target inputs other).files) : ¬ p.sameWay q := by
  obtain ⟨output, houtput, hpfile, hfew⟩ := mem_files.mp hp
  obtain ⟨output', houtput', hqfile, -⟩ := mem_files.mp hq
  obtain ⟨directory, rfl, rfl⟩ := exists_directory houtput houtput'
  refine apart_of_outputs hpfile hqfile fun hsame => ?_
  have hcontested : Contested config target inputs i (outputPath input directory) :=
    ⟨j, other, _, hij.symm, hother, houtput', hsame⟩
  exact (not_contested_iff hinput houtput).mpr hfew hcontested

/-- A job may write each of its files once. -/
theorem files_pairwise (input : Path) :
    (planned config target inputs input).files.Pairwise fun p q => ¬ p.sameWay q := by
  unfold files
  split
  · exact .nil
  · change (filesFor (outputIn config target input)).Pairwise _
    cases houtput : outputIn config target input with
    | none => exact .nil
    | some output =>
      obtain ⟨directory, rfl, -⟩ := exists_directory houtput houtput
      have hmap := outputPath_not_sameWay_mapPath input input directory directory
      simp [filesFor, hmap]

/-- The jobs of a plan in some order, each with the position of its document. -/
def Arranges (config : ProjectConfig) (target : OutputTarget) (inputs : List Path)
    (order : List (Job × Nat)) : Prop :=
  order.Perm (plan config target inputs).zipIdx

variable {order : List (Job × Nat)}

/-- The jobs of a plan are those for its documents. -/
theorem Arranges.mem_iff (h : Arranges config target inputs order) {x : Job × Nat} :
    x ∈ order ↔ ∃ input, inputs[x.2]? = some input ∧ x.1 = planned config target inputs input := by
  rw [List.Perm.mem_iff h, List.mem_zipIdx_iff_getElem?, plan_eq, List.getElem?_map,
    Option.map_eq_some_iff]
  simp only [eq_comm]

/-- No two jobs have the same number. -/
theorem Arranges.numbers (h : Arranges config target inputs order) :
    order.Pairwise fun x y => x.2 ≠ y.2 := by
  have hnodup : (order.map Prod.snd).Nodup := by
    rw [(List.Perm.map Prod.snd h).nodup_iff, List.zipIdx_map_snd]
    exact List.nodup_range'
  exact List.pairwise_map.mp hnodup

/-- In whatever order the jobs of a plan run, each file may be written once. -/
theorem Arranges.files_pairwise (h : Arranges config target inputs order) :
    (order.flatMap fun x => x.1.files).Pairwise fun p q => ¬ p.sameWay q := by
  refine List.pairwise_flatMap.mpr ⟨fun x hx => ?_, ?_⟩
  · obtain ⟨input, -, hjob⟩ := h.mem_iff.mp hx
    rw [hjob]
    exact Job.files_pairwise input
  · refine h.numbers.imp_of_mem fun {x y} hx hy hne p hp q hq => ?_
    obtain ⟨input, hinput, hjob⟩ := h.mem_iff.mp hx
    obtain ⟨other, hother, hjob'⟩ := h.mem_iff.mp hy
    rw [hjob] at hp
    rw [hjob'] at hq
    exact files_apart hne hinput hother hp hq

end Job

end SourceScribe
