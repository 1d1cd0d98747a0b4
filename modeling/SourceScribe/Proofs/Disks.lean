import Mathlib.Data.List.Pairwise
import SourceScribe.Files.Basic
import SourceScribe.Proofs.Outputs

/-!
# Disks

A disk holds files by the steps that lead to them, so two paths lead to the same file
just if they have the same steps. It keeps account of what is written to it, may
refuse to write in some places, and always has room for a directory elsewhere. What
is read where nothing was written is what was there; and if nothing is written twice,
the order in which files are written cannot be told from the disk.
-/

namespace SourceScribe

/-- Files by the steps that lead to them. -/
structure Disk where
  /-- The text of the file to which some steps lead at first, or why there is none. -/
  texts : List Path.Component → Except FileFault String
  /-- Why nothing can be written or made where some steps lead, if that is so. -/
  refusals : List Path.Component → Option FileFault
  /-- The files that were written since, with their texts, last one first. -/
  log : List (Path × String) := []

namespace Disk

/-- The text of the file to which a path leads: the last one that was written there, or
the one that was there at first. -/
def read (d : Disk) (p : Path) : Except FileFault String :=
  match d.log.find? (·.1.sameWay p) with
  | some (_, text) => .ok text
  | none => d.texts p.components

/-- Something is written or made, unless the disk refuses it. -/
def permit (d : Disk) (p : Path) : Except FileFault Unit :=
  match d.refusals p.components with
  | some fault => .error fault
  | none => .ok ()

/-- The disk after some more files were written, last one first. -/
def wrote (d : Disk) (files : List (Path × String)) : Disk := { d with log := files ++ d.log }

instance : FileSystem (StateM Disk) where
  readText p := fun d => (d.read p, d)
  writeText p text := fun d =>
    match d.permit p with
    | .ok () => (.ok (), d.wrote [(p, text)])
    | .error fault => (.error fault, d)
  kind? p := fun d => ((d.read p).toOption.map fun _ => .file, d)
  list _ := fun d => (.error .notDirectory, d)
  makeDirectory p := fun d => (d.permit p, d)

variable {d : Disk} {p q : Path} {files files' : List (Path × String)}

@[simp]
theorem wrote_log : (d.wrote files).log = files ++ d.log := rfl

@[simp]
theorem wrote_nil : d.wrote [] = d := rfl

/-- What is written later stands in front of what was written before. -/
@[simp]
theorem wrote_wrote : (d.wrote files).wrote files' = d.wrote (files' ++ files) := by
  rw [wrote, wrote, wrote, List.append_assoc]

/-- A file is written where the disk permits it. -/
theorem writeText_run_ok {text : String} (h : d.permit p = .ok ()) :
    (FileSystem.writeText p text : StateM Disk _).run d = (.ok (), d.wrote [(p, text)]) := by
  simp only [StateT.run, FileSystem.writeText, h]

/-- Where the disk refuses to write, it stays as it is. -/
theorem writeText_run_error {text : String} {fault : FileFault} (h : d.permit p = .error fault) :
    (FileSystem.writeText p text : StateM Disk _).run d = (.error fault, d) := by
  simp only [StateT.run, FileSystem.writeText, h]

/-- Where nothing was written, what is read is what was there before. -/
theorem read_wrote_of_apart (h : ∀ w ∈ files, ¬ w.1.sameWay p) :
    (d.wrote files).read p = d.read p := by
  have hnone : files.find? (·.1.sameWay p) = none := List.find?_eq_none.mpr h
  unfold read
  rw [wrote_log, List.find?_append, hnone, Option.none_or]
  rfl

/-- No file is among some files twice. -/
def Distinct (files : List (Path × String)) : Prop :=
  files.Pairwise fun w w' => ¬ w.1.sameWay w'.1

/-- Of distinct files at most one is where a path leads. -/
theorem Distinct.eq_of_sameWay (h : Distinct files) {w w' : Path × String} (hw : w ∈ files)
    (hw' : w' ∈ files) (hp : w.1.sameWay p) (hp' : w'.1.sameWay p) : w = w' := by
  have hsame : w.1.sameWay w'.1 := Path.sameWay_trans hp (by rwa [Path.sameWay_comm])
  have hsymm : Std.Symm fun w w' : Path × String => ¬ w.1.sameWay w'.1 :=
    ⟨fun w w' hne => by rwa [Path.sameWay_comm]⟩
  by_contra hne
  exact h.forall hw hw' hne hsame

/-- If nothing is written twice, what is read at a path depends only on which of the
files that are written lie there. -/
theorem read_wrote_congr (h : Distinct files')
    (hfiles : ∀ w : Path × String, w.1.sameWay p → (w ∈ files ↔ w ∈ files')) :
    (d.wrote files).read p = (d.wrote files').read p := by
  -- a file that is found lies where the path leads
  have hsome : ∀ {files : List (Path × String)} {w : Path × String},
      files.find? (·.1.sameWay p) = some w → w.1.sameWay p := fun hw =>
    List.find?_some (p := fun w : Path × String => w.1.sameWay p) hw
  have hfind : files.find? (·.1.sameWay p) = files'.find? (·.1.sameWay p) := by
    cases hw : files.find? (·.1.sameWay p) with
    | none =>
      refine (List.find?_eq_none.mpr fun w hmem hp => ?_).symm
      exact List.find?_eq_none.mp hw w ((hfiles w hp).mpr hmem) hp
    | some w =>
      have hp : w.1.sameWay p := hsome hw
      have hmem : w ∈ files' := (hfiles w hp).mp (List.mem_of_find?_eq_some hw)
      cases hw' : files'.find? (·.1.sameWay p) with
      | none => exact absurd hp (List.find?_eq_none.mp hw' w hmem)
      | some w' =>
        have hp' : w'.1.sameWay p := hsome hw'
        rw [h.eq_of_sameWay hmem (List.mem_of_find?_eq_some hw') hp hp']
  unfold read
  rw [wrote_log, wrote_log, List.find?_append, List.find?_append, hfind]
  rfl

end Disk

end SourceScribe
