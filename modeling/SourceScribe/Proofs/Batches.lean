import SourceScribe.Proofs.Plans

/-!
# Batches in any order

The jobs of a batch may run in any order, each of them as a whole; their results are
put in the order of the documents. No file is written twice, and unless a document is
itself a file that another job writes, it does not matter in which order the jobs run.
-/

namespace SourceScribe

namespace Job

section Orders

variable {m : Type → Type} [Monad m] [FileSystem m] (config : ProjectConfig)

/-- Runs a job and passes on its number. -/
def runNumbered (x : Job × Nat) : m (JobResult × Nat) := return (← x.1.run config, x.2)

/-- A numbered job does on a disk what the job does there. -/
theorem runNumbered_run (x : Job × Nat) (d : Disk) :
    (runNumbered config x : StateM Disk _).run d =
      (((runOn config x.1 d).1, x.2), (runOn config x.1 d).2) := rfl

/-- The results in the order of their numbers. -/
def collect (done : List (JobResult × Nat)) : List JobResult :=
  (List.range done.length).filterMap fun place => (done.find? (·.2 == place)).map Prod.fst

/-- Runs numbered jobs in some order. The results come in the order of the numbers. -/
def runInOrder (order : List (Job × Nat)) : m (List JobResult) :=
  return collect (← order.mapM (runNumbered config))

/-- The members at all places of a list are the list. -/
theorem filterMap_getElem?_range {α : Type} (l : List α) :
    (List.range l.length).filterMap (fun place => l[place]?) = l := by
  have hmap : (List.range l.length).map (fun place => l[place]?) = l.map some := by
    refine List.ext_getElem (by simp) fun i _ hi => ?_
    rw [List.length_map] at hi
    simp [hi]
  calc (List.range l.length).filterMap (fun place => l[place]?)
      = ((List.range l.length).map fun place => l[place]?).filterMap id := by
        rw [List.filterMap_map]
        rfl
    _ = l := by
        rw [hmap, List.filterMap_map]
        exact List.filterMap_some

/-- Results that are numbered in some order can be collected in another one. -/
theorem collect_eq {done : List (JobResult × Nat)} {results : List JobResult}
    (h : done.Perm results.zipIdx) : collect done = results := by
  have hfind : ∀ place, (done.find? (·.2 == place)).map Prod.fst = results[place]? := by
    intro place
    cases hfound : done.find? (·.2 == place) with
    | none =>
      cases hresult : results[place]? with
      | none => rfl
      | some result =>
        have hmem : (result, place) ∈ done :=
          h.mem_iff.mpr (List.mem_zipIdx_iff_getElem?.mpr hresult)
        exact absurd (BEq.refl place) (List.find?_eq_none.mp hfound _ hmem)
    | some x =>
      have hplace : x.2 = place :=
        beq_iff_eq.mp (List.find?_some (p := fun x : JobResult × Nat => x.2 == place) hfound)
      have hmem := h.mem_iff.mp (List.mem_of_find?_eq_some hfound)
      have hresult := List.mem_zipIdx_iff_getElem?.mp hmem
      rw [← hplace, hresult]
      rfl
  have hlength : done.length = results.length := by
    rw [h.length_eq, List.length_zipIdx]
  calc collect done
      = (List.range results.length).filterMap fun place => results[place]? := by
        rw [collect, hlength]
        exact List.filterMap_congr fun place _ => hfind place
    _ = results := filterMap_getElem?_range results

/-- A batch runs its jobs in the order of the documents. -/
theorem runInOrder_zipIdx [LawfulMonad m] (jobs : List Job) :
    (runInOrder config jobs.zipIdx : m (List JobResult)) = jobs.mapM (run config) := by
  have hnumbered : ∀ k, ((jobs.zipIdx k).mapM (runNumbered config) : m _) =
      (fun results => results.zipIdx k) <$> jobs.mapM (run config) := by
    induction jobs with
    | nil => intro k; simp
    | cons job jobs ih =>
      intro k
      rw [List.zipIdx_cons, List.mapM_cons, List.mapM_cons, ih]
      simp [runNumbered]
  have hcollect : (fun results : List JobResult => collect results.zipIdx) = id :=
    funext fun results => collect_eq (List.Perm.refl _)
  rw [runInOrder, hnumbered]
  simp [hcollect]

/-- A job ran on a disk to which some files had been written, and wrote those between
the earlier and the later ones. -/
def Ran (disk : Disk) (log : List (Path × String)) (job : Job) (result : JobResult) : Prop :=
  ∃ earlier written later, log = later ++ written ++ earlier ∧
    runOn config job (disk.wrote earlier) = (result, disk.wrote (written ++ earlier))

/-- A job that ran has a result for its document. -/
theorem Ran.input {config : ProjectConfig} {disk : Disk} {log : List (Path × String)} {job : Job}
    {result : JobResult} (h : Ran config disk log job result) : result.input = job.input := by
  obtain ⟨earlier, written, later, -, hrun⟩ := h
  obtain ⟨result', written', hdoes⟩ := exists_does config job (disk.wrote earlier)
  rw [hdoes.run _ rfl rfl] at hrun
  obtain rfl : result' = result := congrArg Prod.fst hrun
  exact hdoes.input

/-- A job runs before those behind it. -/
theorem mapM_cons_run {config : ProjectConfig} {x : Job × Nat} {order : List (Job × Nat)}
    {d d₁ d₂ : Disk} {y : JobResult × Nat} {done : List (JobResult × Nat)}
    (hx : (runNumbered config x : StateM Disk _).run d = (y, d₁))
    (horder : (order.mapM (runNumbered config) : StateM Disk _).run d₁ = (done, d₂)) :
    ((x :: order).mapM (runNumbered config) : StateM Disk _).run d = (y :: done, d₂) := by
  rw [List.mapM_cons, StateT.run_bind, hx]
  change (order.mapM (runNumbered config) >>= _ : StateM Disk _).run d₁ = _
  rw [StateT.run_bind, horder]
  rfl

/-- Numbered jobs run one after another, each on the disk that those before it left, and
write no more than their files. -/
theorem mapM_ran (order : List (Job × Nat)) (disk : Disk) : ∃ done log,
    (order.mapM (runNumbered config) : StateM Disk _).run disk = (done, disk.wrote log) ∧
      List.Forall₂ (fun x y => Ran config disk log x.1 y.1 ∧ x.2 = y.2) order done ∧
      (log.map Prod.fst).Sublist (order.reverse.flatMap fun x => x.1.files) := by
  induction order generalizing disk with
  | nil => exact ⟨[], [], rfl, .nil, .slnil⟩
  | cons x order ih =>
    obtain ⟨result, written, hdoes⟩ := exists_does config x.1 disk
    obtain ⟨done, log, hrun, hran, hlog⟩ := ih (disk.wrote written)
    have hhead : (runNumbered config x : StateM Disk _).run disk =
        ((result, x.2), disk.wrote written) := by
      rw [runNumbered_run, hdoes.run disk rfl rfl]
    refine ⟨(result, x.2) :: done, log ++ written, ?_, .cons ⟨?_, rfl⟩ (hran.imp ?_), ?_⟩
    · rw [mapM_cons_run hhead hrun, Disk.wrote_wrote]
    · exact ⟨[], written, log, (List.append_nil _).symm, by
        rw [List.append_nil, Disk.wrote_nil, hdoes.run disk rfl rfl]⟩
    · rintro y z ⟨⟨earlier, own, later, hlog, hown⟩, hnumber⟩
      refine ⟨⟨earlier ++ written, own, later, ?_, ?_⟩, hnumber⟩
      · rw [hlog, List.append_assoc, List.append_assoc]
      · rw [Disk.wrote_wrote, Disk.wrote_wrote, List.append_assoc] at hown
        exact hown
    · rw [List.map_append, List.reverse_cons, List.flatMap_append, List.flatMap_singleton]
      exact hlog.append hdoes.written

/-- If no job writes a document of a later one, each job does what it does alone. -/
theorem mapM_undisturbed {disk : Disk} {result : Job → JobResult}
    {written : Job → List (Path × String)}
    (hdoes : ∀ job, Does config job disk (result job) (written job)) {order : List (Job × Nat)}
    (hapart : order.Pairwise fun x y => ∀ w ∈ written x.1, ¬ w.1.sameWay y.1.input) {d : Disk}
    (hrefusals : d.refusals = disk.refusals)
    (hread : ∀ x ∈ order, d.read x.1.input = disk.read x.1.input) :
    (order.mapM (runNumbered config) : StateM Disk _).run d =
      (order.map fun x => (result x.1, x.2),
        d.wrote (order.reverse.flatMap fun x => written x.1)) := by
  induction order generalizing d with
  | nil => rfl
  | cons x order ih =>
    obtain ⟨hhead, htail⟩ := List.pairwise_cons.mp hapart
    have hrun : (runNumbered config x : StateM Disk _).run d =
        ((result x.1, x.2), d.wrote (written x.1)) := by
      rw [runNumbered_run, (hdoes x.1).run d hrefusals (hread x List.mem_cons_self)]
    have hrefusals' : (d.wrote (written x.1)).refusals = disk.refusals := hrefusals
    have hread' : ∀ y ∈ order,
        (d.wrote (written x.1)).read y.1.input = disk.read y.1.input := by
      intro y hy
      rw [Disk.read_wrote_of_apart (hhead y hy)]
      exact hread y (List.mem_cons_of_mem _ hy)
    rw [mapM_cons_run hrun (ih htail hrefusals' hread'), Disk.wrote_wrote, List.reverse_cons,
      List.flatMap_append, List.flatMap_singleton]
    rfl

end Orders

section Outcomes

variable {config : ProjectConfig} {target : OutputTarget} {inputs : List Path}
  {order : List (Job × Nat)}

/-- In whatever order the jobs of a plan run, there is a result for each document, in
the order of the documents, and no more is written than the files of the jobs. -/
theorem Arranges.exists_results (h : Arranges config target inputs order) (disk : Disk) :
    ∃ results log, (runInOrder config order : StateM Disk _).run disk =
        (results, disk.wrote log) ∧ results.length = inputs.length ∧
      (∀ (i : Nat) (input : Path), inputs[i]? = some input → ∃ result, results[i]? = some result ∧
        Ran config disk log (planned config target inputs input) result) ∧
      (log.map Prod.fst).Sublist (order.reverse.flatMap fun x => x.1.files) := by
  obtain ⟨done, log, hrun, hran, hlog⟩ := mapM_ran config order disk
  obtain ⟨sorted, hsorted, hperm⟩ := List.perm_comp_forall₂ (List.Perm.symm h) hran
  have hlength : sorted.length = (plan config target inputs).length := by
    rw [← hsorted.length_eq, List.length_zipIdx]
  have hresults : sorted = (sorted.map Prod.fst).zipIdx := by
    refine List.ext_getElem (by simp) fun i hi hi' => ?_
    have hjob : i < (plan config target inputs).zipIdx.length := by
      rw [List.length_zipIdx]
      omega
    have hnumber : ((plan config target inputs).zipIdx[i]).2 = sorted[i].2 :=
      (hsorted.get hjob hi).2
    rw [List.getElem_zipIdx] at hnumber ⊢
    rw [List.getElem_map]
    exact Prod.ext rfl hnumber.symm
  have hcollect : collect done = sorted.map Prod.fst :=
    collect_eq (hresults ▸ hperm.symm)
  refine ⟨sorted.map Prod.fst, log, ?_, ?_, fun i input hinput => ?_, hlog⟩
  · rw [runInOrder, StateT.run_bind, hrun, ← hcollect]
    rfl
  · rw [List.length_map, hlength, plan_eq, List.length_map]
  · have hjob : (plan config target inputs)[i]? = some (planned config target inputs input) := by
      rw [plan_eq, List.getElem?_map, hinput, Option.map_some]
    obtain ⟨hi, hget⟩ := List.getElem?_eq_some_iff.mp hjob
    have hi' : i < (plan config target inputs).zipIdx.length := by
      rwa [List.length_zipIdx]
    have hi'' : i < sorted.length := by omega
    have hran := (hsorted.get hi' hi'').1
    rw [List.get_eq_getElem, List.getElem_zipIdx, List.get_eq_getElem] at hran
    dsimp only at hran
    rw [hget] at hran
    refine ⟨sorted[i].1, ?_, hran⟩
    rw [List.getElem?_map, List.getElem?_eq_getElem hi'', Option.map_some]

/-- A job that has rivals fails for this reason. -/
theorem Ran.several {start : Disk} {log : List (Path × String)} {i : Nat} {input output : Path}
    {result : JobResult} (h : Ran config start log (planned config target inputs input) result)
    (hinput : inputs[i]? = some input) (houtput : outputIn config target input = some output)
    (hcontested : Contested config target inputs i output) :
    result = ⟨input, some output,
      .error (.severalInputs output (rivals config target inputs output))⟩ := by
  obtain ⟨earlier, written, later, -, hrun⟩ := h
  rw [runOn_several config houtput ((contested_iff hinput houtput).mp hcontested)] at hrun
  obtain rfl := congrArg Prod.fst hrun
  simp only [planned, houtput, Option.map_some, Option.getD_some]

/-- A job that has no rivals does what it does when its document is generated alone. -/
theorem Ran.alone {start : Disk} {log : List (Path × String)} {i : Nat} {input : Path}
    {result : JobResult} (h : Ran config start log (planned config target inputs input) result)
    (hinput : inputs[i]? = some input)
    (halone : ∀ output, outputIn config target input = some output →
      ¬ Contested config target inputs i output) :
    ∃ outcome earlier written later, log = later ++ written ++ earlier ∧
      generateOn config input (outputIn config target input) (start.wrote earlier) =
        (outcome, start.wrote (written ++ earlier)) ∧
      result = ⟨input, outputIn config target input, outcome⟩ ∧
      ∀ path claimants, outcome ≠ .error (.severalInputs path claimants) := by
  obtain ⟨earlier, written, later, hlog, hrun⟩ := h
  rw [runOn_alone config (planned_alone hinput halone)] at hrun
  obtain ⟨outcome, written', hends⟩ :=
    generate_ends config input (outputIn config target input) (start.wrote earlier)
  have hgenerate : generateOn config input (outputIn config target input) (start.wrote earlier) =
      (outcome, (start.wrote earlier).wrote written') := hends.run _ ⟨rfl, rfl⟩
  have hresult := congrArg Prod.fst hrun
  have hdisk := congrArg Prod.snd hrun
  dsimp only [planned] at hresult hdisk
  rw [hgenerate] at hresult hdisk
  exact ⟨outcome, earlier, written, later, hlog, hgenerate.trans (congrArg _ hdisk), hresult.symm,
    hends.own⟩

/-- No file is written for a document that has rivals. -/
theorem Arranges.apart_of_contested (h : Arranges config target inputs order) {i : Nat}
    {input output p : Path} (hinput : inputs[i]? = some input)
    (houtput : outputIn config target input = some output)
    (hcontested : Contested config target inputs i output)
    (hp : p ∈ order.flatMap fun x => x.1.files) :
    ¬ p.sameWay output ∧ ¬ p.sameWay (mapPath output) := by
  obtain ⟨x, hx, hmem⟩ := List.mem_flatMap.mp hp
  obtain ⟨other, hother, hjob⟩ := h.mem_iff.mp hx
  rw [hjob] at hmem
  obtain ⟨output', houtput', hfile, hfew⟩ := mem_files.mp hmem
  obtain ⟨directory, rfl, rfl⟩ := exists_directory houtput houtput'
  have hne : ¬ (outputPath other directory).sameWay (outputPath input directory) := by
    intro hsame
    have hcontested' : Contested config target inputs x.2 (outputPath other directory) := by
      by_cases hi : i = x.2
      · subst hi
        obtain rfl := Option.some.inj (hinput.symm.trans hother)
        exact hcontested
      · exact ⟨i, input, _, hi, hinput, houtput, hsame⟩
    exact (not_contested_iff hother houtput').mpr hfew hcontested'
  exact ⟨apart_of_outputs hfile (.inl rfl) hne, apart_of_outputs hfile (.inr rfl) hne⟩

/-- What holds after the jobs of a batch ran, in whatever order. -/
structure BatchOutcome (config : ProjectConfig) (target : OutputTarget) (inputs : List Path)
    (start : Disk) (results : List JobResult) (after : Disk) : Prop where
  /-- There is one result for each document, in the order of the documents. -/
  ordered : results.map JobResult.input = inputs
  /-- A document whose output another position of the list has too fails for this reason.
  The error lists just the documents that have the output, in their order. Neither the
  output nor its source map is written. -/
  several : ∀ (i : Nat) (input output : Path), inputs[i]? = some input →
    outputIn config target input = some output → Contested config target inputs i output →
    results[i]? = some ⟨input, some output,
      .error (.severalInputs output (rivals config target inputs output))⟩ ∧
    ∀ w ∈ after.log, ¬ w.1.sameWay output ∧ ¬ w.1.sameWay (mapPath output)
  /-- Any other document ends, and writes, as it does when it is generated alone on the
  disk as the jobs before it left it. It never fails because of other documents. -/
  alone : ∀ (i : Nat) (input : Path), inputs[i]? = some input →
    (∀ output, outputIn config target input = some output →
      ¬ Contested config target inputs i output) →
    ∃ outcome earlier written later,
      generateOn config input (outputIn config target input) (start.wrote earlier) =
        (outcome, start.wrote (written ++ earlier)) ∧
      after = start.wrote (later ++ written ++ earlier) ∧
      results[i]? = some ⟨input, outputIn config target input, outcome⟩ ∧
      ∀ path claimants, outcome ≠ .error (.severalInputs path claimants)
  /-- No file is written twice. -/
  once : Disk.Distinct after.log

/-- The jobs of a plan have this outcome in any order. -/
theorem Arranges.outcome (h : Arranges config target inputs order) (start : Disk)
    (hstart : start.log = []) : ∃ results after,
      (runInOrder config order : StateM Disk _).run start = (results, after) ∧
        BatchOutcome config target inputs start results after := by
  obtain ⟨results, log, hrun, hlength, hran, hlog⟩ := h.exists_results start
  have hafter : (start.wrote log).log = log := by
    rw [Disk.wrote_log, hstart, List.append_nil]
  have hfiles : (order.reverse.flatMap fun x => x.1.files).Pairwise fun p q => ¬ p.sameWay q :=
    Arranges.files_pairwise ((List.reverse_perm order).trans h)
  refine ⟨results, start.wrote log, hrun, ?_, ?_, ?_, ?_⟩
  · refine List.ext_getElem? fun i => ?_
    rw [List.getElem?_map]
    cases hinput : inputs[i]? with
    | none =>
      have hnone : results[i]? = none := by
        rw [List.getElem?_eq_none_iff, hlength]
        exact List.getElem?_eq_none_iff.mp hinput
      rw [hnone, Option.map_none]
    | some input =>
      obtain ⟨result, hresult, hjob⟩ := hran i input hinput
      rw [hresult, Option.map_some, hjob.input]
      rfl
  · intro i input output hinput houtput hcontested
    obtain ⟨result, hresult, hjob⟩ := hran i input hinput
    refine ⟨by rw [hresult, hjob.several hinput houtput hcontested], fun w hw => ?_⟩
    rw [hafter] at hw
    have hmem := hlog.subset (List.mem_map_of_mem hw)
    exact Arranges.apart_of_contested ((List.reverse_perm order).trans h) hinput houtput
      hcontested hmem
  · intro i input hinput halone
    obtain ⟨result, hresult, hjob⟩ := hran i input hinput
    obtain ⟨outcome, earlier, written, later, hsplit, hgenerate, rfl, hown⟩ :=
      hjob.alone hinput halone
    exact ⟨outcome, earlier, written, later, hgenerate, hsplit ▸ rfl, hresult, hown⟩
  · rw [hafter]
    exact List.pairwise_map.mp (hfiles.sublist hlog)

/-- No document is a file that the job of another position writes when it runs alone. -/
def Undisturbed (config : ProjectConfig) (target : OutputTarget) (inputs : List Path)
    (start : Disk) : Prop :=
  ∀ (i j : Nat) (input : Path) (job : Job), i ≠ j → inputs[i]? = some input →
    (plan config target inputs)[j]? = some job →
    ∀ w ∈ (runOn config job start).2.log, ¬ w.1.sameWay input

/-- Documents that are not named like generated files or source maps are not disturbed. -/
theorem undisturbed_of_names {start : Disk} (hstart : start.log = [])
    (h : ∀ input ∈ inputs, ∀ name, input.fileName? = some name →
      ¬ ".bal".toList <:+ name ∧ ¬ ".map".toList <:+ name) :
    Undisturbed config target inputs start := by
  intro i j input job _ hinput hjob w hw hsame
  rw [plan_eq, List.getElem?_map, Option.map_eq_some_iff] at hjob
  obtain ⟨other, -, rfl⟩ := hjob
  obtain ⟨result, written, hdoes⟩ := exists_does config (planned config target inputs other) start
  rw [hdoes.run start rfl rfl, Disk.wrote_log, hstart, List.append_nil] at hw
  have hfile := hdoes.written.subset (List.mem_map_of_mem hw)
  obtain ⟨output, houtput, hcase, -⟩ := mem_files.mp hfile
  obtain ⟨directory, rfl, -⟩ := exists_directory houtput houtput
  obtain ⟨name, hname, hsuffix⟩ := fileName?_of_sameWay other directory hcase hsame
  obtain ⟨hbal, hmap⟩ := h input (List.mem_of_getElem? hinput) name hname
  exact hsuffix.elim hbal hmap

/-- What the files come to in a batch whose jobs do not disturb one another. -/
structure FinalOutcome (config : ProjectConfig) (target : OutputTarget) (inputs : List Path)
    (start : Disk) (results : List JobResult) (after : Disk) : Prop where
  /-- A document whose output no other position of the list has ends as it does when it is
  generated alone on the first disk, and its output and its source map are as they are
  then. -/
  alone : ∀ (i : Nat) (input : Path), inputs[i]? = some input →
    (∀ output, outputIn config target input = some output →
      ¬ Contested config target inputs i output) →
    results[i]? = some ⟨input, outputIn config target input,
      (generateOn config input (outputIn config target input) start).1⟩ ∧
    ∀ output, outputIn config target input = some output →
      ∀ p : Path, p.sameWay output ∨ p.sameWay (mapPath output) →
        after.read p = (generateOn config input (some output) start).2.read p
  /-- All other files are as they were. -/
  rest : ∀ p : Path,
    (∀ (i : Nat) (input output : Path), inputs[i]? = some input →
      outputIn config target input = some output → ¬ Contested config target inputs i output →
      ¬ p.sameWay output ∧ ¬ p.sameWay (mapPath output)) →
    after.read p = start.read p

/-- If jobs do not disturb one another, each of them does in any order what it does
alone. -/
theorem Arranges.run_undisturbed (h : Arranges config target inputs order) {start : Disk}
    (hstart : start.log = []) (hundisturbed : Undisturbed config target inputs start)
    {result : Job → JobResult} {written : Job → List (Path × String)}
    (hdoes : ∀ job, Does config job start (result job) (written job)) :
    (runInOrder config order : StateM Disk _).run start =
      ((plan config target inputs).map result,
        start.wrote (order.reverse.flatMap fun x => written x.1)) := by
  have hlog : ∀ job, (runOn config job start).2.log = written job := by
    intro job
    rw [(hdoes job).run start rfl rfl, Disk.wrote_log, hstart, List.append_nil]
  have hapart : order.Pairwise fun x y => ∀ w ∈ written x.1, ¬ w.1.sameWay y.1.input := by
    refine h.numbers.imp_of_mem fun {x y} hx hy hne w hw => ?_
    obtain ⟨input, hinput, hjob⟩ := h.mem_iff.mp hy
    have hplan := List.mem_zipIdx_iff_getElem?.mp ((List.Perm.mem_iff h).mp hx)
    rw [hjob]
    rw [← hlog x.1] at hw
    exact hundisturbed y.2 x.2 input x.1 hne.symm hinput hplan w hw
  have hcollect : collect (order.map fun x => (result x.1, x.2)) =
      (plan config target inputs).map result := by
    refine collect_eq ?_
    rw [List.zipIdx_map]
    exact List.Perm.map _ h
  rw [runInOrder, StateT.run_bind,
    mapM_undisturbed config hdoes hapart rfl (fun _ _ => rfl), ← hcollect]
  rfl

section Undisturbed

variable {start : Disk} {result : Job → JobResult} {written : Job → List (Path × String)}

/-- What is written in a batch is written by the job for a document, to one of its
files. -/
theorem Arranges.exists_of_written (h : Arranges config target inputs order)
    (hdoes : ∀ job, Does config job start (result job) (written job)) {w : Path × String}
    (hw : w ∈ order.reverse.flatMap fun x => written x.1) :
    ∃ (i : Nat) (input : Path), inputs[i]? = some input ∧
      w ∈ written (planned config target inputs input) ∧
      w.1 ∈ (planned config target inputs input).files := by
  obtain ⟨x, hx, hmem⟩ := List.mem_flatMap.mp hw
  obtain ⟨input, hinput, hjob⟩ := h.mem_iff.mp (List.mem_reverse.mp hx)
  rw [hjob] at hmem
  exact ⟨x.2, input, hinput, hmem, (hdoes _).written.subset (List.mem_map_of_mem hmem)⟩

/-- Where one of the files of a job lies, no other job of the plan writes. -/
theorem Arranges.mem_written_iff (h : Arranges config target inputs order)
    (hdoes : ∀ job, Does config job start (result job) (written job)) {i : Nat}
    {input p q : Path} (hinput : inputs[i]? = some input)
    (hq : q ∈ (planned config target inputs input).files) (hp : p.sameWay q)
    {w : Path × String} (hw : w.1.sameWay p) :
    w ∈ written (planned config target inputs input) ↔
      w ∈ order.reverse.flatMap fun x => written x.1 := by
  constructor
  · intro hmem
    have hx : (planned config target inputs input, i) ∈ order.reverse :=
      List.mem_reverse.mpr (h.mem_iff.mpr ⟨input, hinput, rfl⟩)
    exact List.mem_flatMap.mpr ⟨_, hx, hmem⟩
  · intro hmem
    obtain ⟨j, other, hother, hwritten, hfile⟩ := h.exists_of_written hdoes hmem
    have hsame : w.1.sameWay q := Path.sameWay_trans hw hp
    have hij : j = i := by
      by_contra hne
      exact files_apart hne hother hinput hfile hq hsame
    subst hij
    obtain rfl := Option.some.inj (hinput.symm.trans hother)
    exact hwritten

/-- If jobs do not disturb one another, no file is among those that they write twice. -/
theorem Arranges.written_distinct (h : Arranges config target inputs order)
    (hstart : start.log = []) (hundisturbed : Undisturbed config target inputs start)
    (hdoes : ∀ job, Does config job start (result job) (written job)) :
    Disk.Distinct (order.reverse.flatMap fun x => written x.1) := by
  obtain ⟨results, after, hrun, houtcome⟩ := h.outcome start hstart
  rw [h.run_undisturbed hstart hundisturbed hdoes] at hrun
  obtain rfl := congrArg Prod.snd hrun
  have honce := houtcome.once
  rwa [Disk.wrote_log, hstart, List.append_nil] at honce

/-- If jobs do not disturb one another, the files come to what the jobs write alone. -/
theorem Arranges.final (h : Arranges config target inputs order) (hstart : start.log = [])
    (hundisturbed : Undisturbed config target inputs start)
    (hdoes : ∀ job, Does config job start (result job) (written job)) :
    FinalOutcome config target inputs start ((plan config target inputs).map result)
      (start.wrote (order.reverse.flatMap fun x => written x.1)) where
  alone i input hinput halone := by
    have hjob := (hdoes (planned config target inputs input)).run start rfl rfl
    rw [runOn_alone config (planned_alone hinput halone)] at hjob
    have hresult := congrArg Prod.fst hjob
    have hdisk := congrArg Prod.snd hjob
    dsimp only [planned] at hresult hdisk
    refine ⟨?_, fun output houtput p hp => ?_⟩
    · rw [plan_eq, List.map_map, List.getElem?_map, hinput, Option.map_some, hresult]
      rfl
    · have hfew := (not_contested_iff hinput houtput).mp (halone output houtput)
      obtain ⟨q, hq, hpq⟩ : ∃ q ∈ (planned config target inputs input).files, p.sameWay q := by
        obtain hp | hp := hp
        · exact ⟨output, mem_files.mpr ⟨output, houtput, .inl rfl, hfew⟩, hp⟩
        · exact ⟨mapPath output, mem_files.mpr ⟨output, houtput, .inr rfl, hfew⟩, hp⟩
      rw [← houtput, hdisk]
      exact (Disk.read_wrote_congr (h.written_distinct hstart hundisturbed hdoes) fun w hw =>
        h.mem_written_iff hdoes hinput hq hpq hw).symm
  rest p hp := by
    refine Disk.read_wrote_of_apart fun w hw => ?_
    obtain ⟨i, input, hinput, -, hfile⟩ := h.exists_of_written hdoes hw
    obtain ⟨output, houtput, hcase, hfew⟩ := mem_files.mp hfile
    have halone := (not_contested_iff hinput houtput).mpr hfew
    obtain ⟨houtputs, hmaps⟩ := hp i input output hinput houtput halone
    rw [Path.sameWay_comm]
    obtain hcase | hcase := hcase
    · rwa [hcase]
    · rwa [hcase]

/-- If jobs do not disturb one another, two orders of them leave the same files. -/
theorem Arranges.read_eq {order' : List (Job × Nat)} (h : Arranges config target inputs order)
    (h' : Arranges config target inputs order') (hstart : start.log = [])
    (hundisturbed : Undisturbed config target inputs start)
    (hdoes : ∀ job, Does config job start (result job) (written job)) :
    (start.wrote (order.reverse.flatMap fun x => written x.1)).read =
      (start.wrote (order'.reverse.flatMap fun x => written x.1)).read := by
  have hperm : order.reverse.Perm order'.reverse :=
    ((List.reverse_perm order).trans (h.trans (List.Perm.symm h'))).trans
      (List.reverse_perm order').symm
  funext p
  refine Disk.read_wrote_congr (h'.written_distinct hstart hundisturbed hdoes) fun w _ => ?_
  exact (hperm.flatMap_right _).mem_iff

end Undisturbed

end Outcomes

end Job

/-- **A batch never overwrites its own results.** The jobs of a batch may run in any
order, in particular in that of the documents. There is always one result for each
document, in the order of the documents. A document whose output another position of
the list has fails for this reason and for no other document; the error lists just the
documents that have the output, and nothing is written for it. Every other document is
generated as if it were alone, and no file is written twice. If no document is itself a
file that another job writes, then the results and the final files are the same for all
orders, and each file is as the job that writes it alone would leave it. -/
theorem generateAll_never_overwrites (config : ProjectConfig) (target : OutputTarget)
    (inputs : List Path) (start : Disk) (hstart : start.log = []) :
    (Job.runInOrder config (Job.plan config target inputs).zipIdx : StateM Disk _) =
        generateAll config target inputs ∧
      (∀ order, Job.Arranges config target inputs order → ∃ results after,
        (Job.runInOrder config order : StateM Disk _).run start = (results, after) ∧
          Job.BatchOutcome config target inputs start results after) ∧
      (Job.Undisturbed config target inputs start → ∃ results files,
        ∀ order, Job.Arranges config target inputs order → ∃ after,
          (Job.runInOrder config order : StateM Disk _).run start = (results, after) ∧
            after.read = files ∧
            Job.FinalOutcome config target inputs start results after) := by
  refine ⟨Job.runInOrder_zipIdx config _, fun order h => h.outcome start hstart, ?_⟩
  intro hundisturbed
  choose result written hdoes using fun job => Job.exists_does config job start
  let listed := (Job.plan config target inputs).zipIdx
  have hlisted : Job.Arranges config target inputs listed := List.Perm.refl _
  refine ⟨(Job.plan config target inputs).map result,
    (start.wrote (listed.reverse.flatMap fun x => written x.1)).read, fun order h => ?_⟩
  exact ⟨_, h.run_undisturbed hstart hundisturbed hdoes,
    h.read_eq hlisted hstart hundisturbed hdoes, h.final hstart hundisturbed hdoes⟩

/-- Three documents, of which two have the same name. -/
def threeDocuments : List Path := [⟨"a/x.json"⟩, ⟨"b/x.json"⟩, ⟨"y.json"⟩]

/-- A disk that holds the same empty unit for all documents. -/
def unitsDisk : Disk where
  texts way :=
    if threeDocuments.any (·.components == way) then
      .ok "\x7b\"root\": \x7b\"kind\": \x7b\"type\": \"CompilationUnit\"\x7d\x7d\x7d"
    else .error .notFound
  refusals _ := none

/-- Three documents, of which two have the same output, are generated into one folder in
any order: the two fail and name each other, and the files come to what the third one
writes alone. -/
theorem generateAll_never_overwrites_threeDocuments :
    unitsDisk.log = [] ∧
      Job.Undisturbed { sourceMap := true } (.files (some ⟨"out"⟩)) threeDocuments unitsDisk ∧
      (∀ order,
        Job.Arranges { sourceMap := true } (.files (some ⟨"out"⟩)) threeDocuments order →
          ∃ results after,
            (Job.runInOrder { sourceMap := true } order : StateM Disk _).run unitsDisk =
              (results, after) ∧
            results[1]? = some ⟨⟨"b/x.json"⟩, some ⟨"out/x.bal"⟩,
              .error (.severalInputs ⟨"out/x.bal"⟩ [⟨"a/x.json"⟩, ⟨"b/x.json"⟩])⟩) ∧
      ∃ results files, ∀ order,
        Job.Arranges { sourceMap := true } (.files (some ⟨"out"⟩)) threeDocuments order →
          ∃ after, (Job.runInOrder { sourceMap := true } order : StateM Disk _).run unitsDisk =
            (results, after) ∧ after.read = files ∧
              Job.FinalOutcome { sourceMap := true } (.files (some ⟨"out"⟩)) threeDocuments
                unitsDisk results after := by
  have hundisturbed : Job.Undisturbed { sourceMap := true } (.files (some ⟨"out"⟩))
      threeDocuments unitsDisk := Job.undisturbed_of_names rfl (by decide)
  have hcontested : Job.Contested { sourceMap := true } (.files (some ⟨"out"⟩)) threeDocuments 1
      ⟨"out/x.bal"⟩ := ⟨0, ⟨"a/x.json"⟩, ⟨"out/x.bal"⟩, by decide, rfl, by decide, by decide⟩
  have hrivals : Job.rivals { sourceMap := true } (.files (some ⟨"out"⟩)) threeDocuments
      ⟨"out/x.bal"⟩ = [⟨"a/x.json"⟩, ⟨"b/x.json"⟩] := by decide
  obtain ⟨-, hany, hfinal⟩ := generateAll_never_overwrites { sourceMap := true }
    (.files (some ⟨"out"⟩)) threeDocuments unitsDisk rfl
  refine ⟨rfl, hundisturbed, fun order h => ?_, hfinal hundisturbed⟩
  obtain ⟨results, after, hrun, houtcome⟩ := hany order h
  have hsecond := (houtcome.several 1 ⟨"b/x.json"⟩ ⟨"out/x.bal"⟩ rfl (by decide) hcontested).1
  rw [hrivals] at hsecond
  exact ⟨results, after, hrun, hsecond⟩

end SourceScribe
