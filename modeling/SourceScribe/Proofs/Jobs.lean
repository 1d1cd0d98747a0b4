import SourceScribe.Proofs.Disks

/-!
# What a job does to a disk

A job looks at its document before it writes anything, and at no other file. So what
it ends with and what it writes is the same on all disks that hold the same document
and refuse the same, whatever else is on them. It writes its source map and its
output at most. A job whose output others have too does nothing at all.
-/

namespace SourceScribe

namespace Job

section Steps

variable {α β : Type} {refusals : List Path.Component → Option FileFault}
  {allowed allowed' : List Path}

/-- A step ends in the same way on all disks of some kind. -/
structure Ends (on : Disk → Prop) (allowed : List Path)
    (act : ExceptT JobError (StateM Disk) α) (result : Except JobError α)
    (written : List (Path × String)) : Prop where
  /-- It has the same result and writes the same files. -/
  run : ∀ d : Disk, on d → act.run.run d = (result, d.wrote written)
  /-- It writes only some of the files that it may write, last one first. -/
  written : (written.map Prod.fst).Sublist allowed
  /-- It does not fail for documents that have the same output. -/
  own : ∀ output inputs, result ≠ .error (.severalInputs output inputs)

/-- What a step does depends on nothing but what the disk refuses. -/
def Steady (refusals : List Path.Component → Option FileFault) (allowed : List Path)
    (act : ExceptT JobError (StateM Disk) α) : Prop :=
  ∃ result written, Ends (·.refusals = refusals) allowed act result written

/-- A step that only has a result is steady. -/
theorem Steady.pure (a : α) : Steady refusals [] (pure a) :=
  ⟨.ok a, [], fun _ _ => rfl, List.nil_sublist _, fun _ _ h => nomatch h⟩

/-- A step that only fails is steady, if it fails for the document itself. -/
theorem Steady.throw {e : JobError} (he : ∀ output inputs, e ≠ .severalInputs output inputs) :
    Steady refusals [] (throw e : ExceptT JobError (StateM Disk) α) :=
  ⟨.error e, [], fun _ _ => rfl, List.nil_sublist _,
    fun output inputs h => he output inputs (Except.error.inj h)⟩

/-- What is steady is so if more may be written. -/
theorem Steady.mono {act : ExceptT JobError (StateM Disk) α} (h : Steady refusals allowed act)
    (hmore : allowed.Sublist allowed') : Steady refusals allowed' act :=
  let ⟨result, written, hends⟩ := h
  ⟨result, written, hends.run, hends.written.trans hmore, hends.own⟩

/-- Steady steps behind one another are steady. -/
theorem Steady.bind {act : ExceptT JobError (StateM Disk) α}
    {next : α → ExceptT JobError (StateM Disk) β} (hact : Steady refusals allowed act)
    (hnext : ∀ a, Steady refusals allowed' (next a)) :
    Steady refusals (allowed' ++ allowed) (act >>= next) := by
  obtain ⟨result, written, hends⟩ := hact
  cases result with
  | error e =>
    refine ⟨.error e, written, fun d hd => ?_, ?_, fun output inputs h => ?_⟩
    · rw [ExceptT.run_bind, StateT.run_bind, hends.run d hd]
      rfl
    · exact hends.written.trans (List.sublist_append_right _ _)
    · exact hends.own output inputs (congrArg _ (Except.error.inj h))
  | ok a =>
    obtain ⟨result', written', hends'⟩ := hnext a
    refine ⟨result', written' ++ written, fun d hd => ?_, ?_, hends'.own⟩
    · rw [ExceptT.run_bind, StateT.run_bind, hends.run d hd, ← Disk.wrote_wrote]
      exact hends'.run _ hd
    · rw [List.map_append]
      exact hends'.written.append hends.written

/-- A directory is made, or refused, in the same way on all disks that refuse the same,
and no file is touched for it. -/
theorem makeLineage_steady (refusals : List Path.Component → Option FileFault)
    (lineage : List Path) : ∃ result, ∀ d : Disk, d.refusals = refusals →
      (FileSystem.makeLineage lineage : StateM Disk _).run d = (result, d) := by
  induction lineage with
  | nil => exact ⟨.ok (), fun _ _ => rfl⟩
  | cons p above ih =>
    obtain ⟨result, habove⟩ := ih
    obtain ⟨permit, hpermit⟩ : ∃ permit, ∀ d : Disk, d.refusals = refusals → d.permit p = permit :=
      ⟨_, fun d hd => by rw [Disk.permit, hd]⟩
    have hmake : ∀ d : Disk, d.refusals = refusals →
        (FileSystem.makeDirectory p : StateM Disk _).run d = (permit, d) := fun d hd => by
      rw [← hpermit d hd]
      rfl
    have hforgive : ∀ (fault : FileFault) (d : Disk),
        (FileSystem.forgive p fault : StateM Disk _).run d = (.error fault, d) := by
      intro fault d
      have hkind : (FileSystem.isDirectory p : StateM Disk Bool).run d = (false, d) := by
        change ((d.read p).toOption.map (fun _ => EntryKind.file) == some .directory, d) = _
        cases d.read p <;> rfl
      rw [FileSystem.forgive, StateT.run_bind, hkind]
      rfl
    cases permit with
    | ok made =>
      refine ⟨.ok (), fun d hd => ?_⟩
      rw [FileSystem.makeLineage, StateT.run_bind, hmake d hd]
      rfl
    | error fault =>
      by_cases hmissing : fault = .notFound
      · subst hmissing
        cases result with
        | error fault =>
          refine ⟨.error fault, fun d hd => ?_⟩
          rw [FileSystem.makeLineage, StateT.run_bind, hmake d hd]
          change (FileSystem.makeLineage above >>= _ : StateM Disk _).run d = _
          rw [StateT.run_bind, habove d hd]
          rfl
        | ok made =>
          refine ⟨.error .notFound, fun d hd => ?_⟩
          rw [FileSystem.makeLineage, StateT.run_bind, hmake d hd]
          change (FileSystem.makeLineage above >>= _ : StateM Disk _).run d = _
          rw [StateT.run_bind, habove d hd]
          change (FileSystem.makeDirectory p >>= _ : StateM Disk _).run d = _
          rw [StateT.run_bind, hmake d hd]
          exact hforgive .notFound d
      · refine ⟨.error fault, fun d hd => ?_⟩
        rw [FileSystem.makeLineage, StateT.run_bind, hmake d hd]
        cases fault with
        | notFound => exact absurd rfl hmissing
        | _ => exact hforgive _ d

/-- A file operation that ends in the same way on all disks that refuse the same does so
as a step of a job. -/
theorem Ends.attempt {act : StateM Disk (Except FileFault α)} {result : Except FileFault α}
    {written : List (Path × String)} {asError : FileFault → JobError}
    (h : ∀ d : Disk, d.refusals = refusals → act.run d = (result, d.wrote written))
    (herror : ∀ fault output inputs, asError fault ≠ .severalInputs output inputs) :
    Ends (·.refusals = refusals) (written.map Prod.fst) (attempt act asError) (result.mapError asError)
      written where
  run d hd := by
    change StateT.run (act >>= fun r => pure (r.mapError asError)) d = _
    rw [StateT.run_bind, h d hd]
    rfl
  written := List.Sublist.refl _
  own output inputs heq := by
    cases result with
    | ok a => cases heq
    | error fault => exact herror fault output inputs (Except.error.inj heq)

/-- Writing a file is steady. -/
theorem write_steady (file : Path) (text : String) :
    Steady refusals [file] (write file text : ExceptT JobError (StateM Disk) Unit) := by
  have herror : ∀ fault output inputs,
      JobError.unwritten file fault ≠ .severalInputs output inputs := fun _ _ _ h => nomatch h
  cases hrefused : refusals file.components with
  | none =>
    have hwrites : ∀ d : Disk, d.refusals = refusals →
        (FileSystem.writeText file text : StateM Disk _).run d =
          (.ok (), d.wrote [(file, text)]) := fun d hd =>
      Disk.writeText_run_ok (by rw [Disk.permit, hd, hrefused])
    exact ⟨_, _, .attempt hwrites herror⟩
  | some fault =>
    have hwrites : ∀ d : Disk, d.refusals = refusals →
        (FileSystem.writeText file text : StateM Disk _).run d = (.error fault, d.wrote []) :=
      fun d hd => Disk.writeText_run_error (by rw [Disk.permit, hd, hrefused])
    obtain ⟨hrun, hwritten, hown⟩ := Ends.attempt hwrites herror
    exact ⟨_, _, hrun, hwritten.trans (List.nil_sublist _), hown⟩

/-- Making the directory for a file is steady. -/
theorem prepare_steady (file : Path) :
    Steady refusals [] (prepare file : ExceptT JobError (StateM Disk) Unit) := by
  unfold prepare
  cases file.parent? with
  | none => exact .pure ()
  | some directory =>
    dsimp only
    split
    · exact .pure ()
    · obtain ⟨result, hresult⟩ := makeLineage_steady refusals directory.lineage
      have hends : Ends (·.refusals = refusals) ([].map Prod.fst)
          (attempt (FileSystem.makeDirectories directory : StateM Disk _) (.noDirectory directory))
          (result.mapError (.noDirectory directory)) [] :=
        .attempt hresult fun _ _ _ h => nomatch h
      exact ⟨_, _, hends⟩

/-- The files for an output, last one first: the source map is written before it. -/
def filesFor : Option Path → List Path
  | none => []
  | some output => [output, mapPath output]

/-- The tree that a document holds, given what is read of it. -/
def loaded (input : Path) (text : Except FileFault String) : Except JobError Ast :=
  match text with
  | .error fault => .error (.unread input fault)
  | .ok text => (Document.load text).mapError .invalid

/-- Reading a document touches no file. -/
theorem readTree_run (input : Path) (d : Disk) :
    (readTree input : ExceptT JobError (StateM Disk) Ast).run.run d =
      (loaded input (d.read input), d) := by
  have hread : (attempt (FileSystem.readText input) (.unread input) :
      ExceptT JobError (StateM Disk) String).run.run d =
        ((d.read input).mapError (.unread input), d) := rfl
  rw [readTree, ExceptT.run_bind, StateT.run_bind, hread]
  cases d.read input with
  | error fault => rfl
  | ok text =>
    cases hload : Document.load text with
    | error e =>
      simp only [bind, Except.mapError, hload, loaded]
      rfl
    | ok ast =>
      simp only [bind, Except.mapError, hload, loaded]
      rfl

/-- Reading a document does not fail for documents that have the same output. -/
theorem loaded_own (input : Path) (text : Except FileFault String) (output : Path)
    (inputs : List Path) : loaded input text ≠ .error (.severalInputs output inputs) := by
  intro h
  unfold loaded at h
  cases text with
  | error fault => cases h
  | ok text =>
    dsimp only at h
    cases hload : Document.load text <;> rw [hload] at h <;> cases h

/-- Steps that are steady once they have a document end in the same way on all disks
that hold the same document and refuse the same. -/
theorem ends_behind_document {input : Path} {next : Ast → ExceptT JobError (StateM Disk) α}
    {disk : Disk} (hnext : ∀ ast, Steady disk.refusals allowed (next ast)) :
    ∃ result written,
      Ends (fun d => d.refusals = disk.refusals ∧ d.read input = disk.read input) allowed
        (readTree input >>= next) result written := by
  cases hloaded : loaded input (disk.read input) with
  | error e =>
    refine ⟨.error e, [], fun d hd => ?_, List.nil_sublist _, fun output inputs h => ?_⟩
    · rw [ExceptT.run_bind, StateT.run_bind, readTree_run, hd.2, hloaded]
      rfl
    · obtain rfl := Except.error.inj h
      exact loaded_own input _ output inputs hloaded
  | ok ast =>
    obtain ⟨result, written, hends⟩ := hnext ast
    refine ⟨result, written, fun d hd => ?_, hends.written, hends.own⟩
    rw [ExceptT.run_bind, StateT.run_bind, readTree_run, hd.2, hloaded]
    exact hends.run d hd.1

/-- The source of a tree goes to a file in the same way on all disks that refuse the
same. -/
theorem generate_ends (config : ProjectConfig) (input : Path) (output : Option Path)
    (disk : Disk) : ∃ result written,
      Ends (fun d => d.refusals = disk.refusals ∧ d.read input = disk.read input)
        (filesFor output) (generate config input output) result written := by
  refine ends_behind_document fun ast => ?_
  cases output with
  | none =>
    dsimp only
    cases Generator.generate { options := config.options } ast with
    | ok source => exact .pure source
    | error e => exact .throw fun _ _ h => nomatch h
  | some output =>
    have hlast : ∀ source : String, Steady disk.refusals [output]
        (do write output (source ++ "\n"); return source : ExceptT JobError (StateM Disk) _) :=
      fun source => (write_steady output _).bind fun _ => .pure source
    -- preparing the output writes no file
    change Steady disk.refusals ([output, mapPath output] ++ []) _
    refine (prepare_steady output).bind fun _ => ?_
    cases sourceFor config ast output with
    | error e => exact Steady.mono (.throw fun _ _ h => nomatch h) (List.nil_sublist _)
    | ok generated =>
      obtain ⟨source, map⟩ := generated
      cases map with
      | none => exact (hlast source).mono (by simp)
      | some map => exact (write_steady (mapPath output) _).bind fun _ => hlast source

end Steps

section Runs

variable {m : Type → Type} [Monad m] [FileSystem m] (config : ProjectConfig) {job : Job}

/-- A job whose output others have too fails, and does nothing else. -/
theorem run_several {output : Path} (houtput : job.output = some output)
    (h : 2 ≤ job.claimants.length) : (run config job : m JobResult) =
      pure ⟨job.input, job.output, .error (.severalInputs output job.claimants)⟩ := by
  obtain ⟨input, _, claimants⟩ := job
  obtain rfl := houtput
  match claimants, h with
  | _ :: _ :: _, _ => rfl

/-- Any other job generates its document. -/
theorem run_alone (h : job.output = none ∨ job.claimants.length < 2) :
    (run config job : m JobResult) = do
      return ⟨job.input, job.output, ← (generate config job.input job.output).run⟩ := by
  obtain ⟨input, output, claimants⟩ := job
  match output, claimants, h with
  | none, _, _ => rfl
  | some _, [], _ => rfl
  | some _, [_], _ => rfl

/-- The files that a job may write, last one first. -/
def files (job : Job) : List Path :=
  if 2 ≤ job.claimants.length then [] else filesFor job.output

/-- What a job comes to on a disk, and the disk behind it. -/
def runOn (config : ProjectConfig) (job : Job) (d : Disk) : JobResult × Disk :=
  (Job.run config job : StateM Disk JobResult).run d

/-- What a document comes to that is generated alone on a disk, and the disk behind it. -/
def generateOn (config : ProjectConfig) (input : Path) (output : Option Path) (d : Disk) :
    Except JobError String × Disk :=
  (generate config input output : ExceptT JobError (StateM Disk) String).run.run d

/-- A job whose output others have too fails, and leaves the disk as it is. -/
theorem runOn_several {output : Path} (houtput : job.output = some output)
    (h : 2 ≤ job.claimants.length) (d : Disk) : runOn config job d =
      (⟨job.input, job.output, .error (.severalInputs output job.claimants)⟩, d) := by
  rw [runOn, run_several config houtput h]
  rfl

/-- Any other job does what its document does when it is generated alone. -/
theorem runOn_alone (h : job.output = none ∨ job.claimants.length < 2) (d : Disk) :
    runOn config job d =
      (⟨job.input, job.output, (generateOn config job.input job.output d).1⟩,
        (generateOn config job.input job.output d).2) := by
  rw [runOn, run_alone config h, StateT.run_bind]
  rfl

/-- What a job comes to on all disks that hold the same document as a disk and refuse
the same. -/
structure Does (config : ProjectConfig) (job : Job) (disk : Disk) (result : JobResult)
    (written : List (Path × String)) : Prop where
  /-- It has the same result and writes the same files. -/
  run : ∀ d : Disk, d.refusals = disk.refusals → d.read job.input = disk.read job.input →
    runOn config job d = (result, d.wrote written)
  /-- It writes only some of its files, last one first. -/
  written : (written.map Prod.fst).Sublist job.files
  /-- The result is for its document. -/
  input : result.input = job.input

/-- What a job does depends on nothing but its document and on what the disk refuses. -/
theorem exists_does (job : Job) (disk : Disk) :
    ∃ result written, Does config job disk result written := by
  by_cases halone : job.output = none ∨ job.claimants.length < 2
  · obtain ⟨outcome, written, hends⟩ := generate_ends config job.input job.output disk
    have hfiles : job.files = filesFor job.output := by
      obtain hnone | hfew := halone
      · rw [files, hnone, filesFor, ite_self]
      · rw [files, if_neg (by omega)]
    refine ⟨⟨job.input, job.output, outcome⟩, written, fun d hd hread => ?_, ?_, rfl⟩
    · rw [runOn_alone config halone, generateOn, hends.run d ⟨hd, hread⟩]
    · rw [hfiles]
      exact hends.written
  · obtain ⟨hsome, hseveral⟩ := not_or.mp halone
    obtain ⟨output, houtput⟩ := Option.ne_none_iff_exists'.mp hsome
    exact ⟨_, [], fun d _ _ => runOn_several config houtput (by omega) d, List.nil_sublist _,
      rfl⟩

end Runs

end Job

end SourceScribe
