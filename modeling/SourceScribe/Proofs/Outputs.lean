import Mathlib.Data.List.Basic
import SourceScribe.Project.Batch

/-!
# Where generated files lie

A generated file lies in a folder under a name that ends with `.bal`, and the file
for its source map lies in the same folder under this name followed by `.map`. The
steps to a file are those to its folder and its name, so two source maps lead the
same way only if their generated files do, and no generated file leads to the place
of a source map.
-/

namespace SourceScribe

namespace Path

/-- Two paths lead the same way if they have the same steps. -/
theorem sameWay_iff {p q : Path} : p.sameWay q = true ↔ p.components = q.components :=
  beq_iff_eq

/-- A path leads the same way as itself. -/
theorem sameWay_refl (p : Path) : p.sameWay p = true := sameWay_iff.mpr rfl

/-- Leading the same way goes both ways. -/
theorem sameWay_comm (p q : Path) : p.sameWay q = q.sameWay p :=
  Bool.eq_iff_iff.mpr (sameWay_iff.trans (eq_comm.trans sameWay_iff.symm))

/-- What leads the same way as something leads where that leads. -/
theorem sameWay_trans {p q r : Path} (h : p.sameWay q) (h' : q.sameWay r) : p.sameWay r :=
  sameWay_iff.mpr ((sameWay_iff.mp h).trans (sameWay_iff.mp h'))

section Names

/-- A text that can be the name of a file: it holds no slash, and it is neither empty
nor made of one or two dots, since it is longer. -/
structure IsName (text : List Char) : Prop where
  /-- There is no slash in it. -/
  solid : '/' ∉ text
  /-- It is longer than the steps that are not names. -/
  long : 2 < text.length

variable {name : List Char}

/-- A name is a step behind others. -/
theorem IsName.stepOf? (h : IsName name) : stepOf? name = some (.name name) := by
  have hlong := h.long
  have hblank : isBlank name = false := by
    have hempty : name ≠ [] := by
      rintro rfl
      exact absurd hlong (by decide)
    have hdot : name ≠ ['.'] := by
      rintro rfl
      exact absurd hlong (by decide)
    simp [isBlank, hempty, hdot]
  have hup : name ≠ ['.', '.'] := by
    rintro rfl
    exact absurd hlong (by decide)
  unfold Path.stepOf?
  rw [hblank, if_neg Bool.false_ne_true, if_neg hup]

/-- A name is a first step. -/
theorem IsName.firstStepOf? (h : IsName name) (followed : Bool) :
    firstStepOf? name followed = some (.name name) := by
  have hlong := h.long
  have hempty : name ≠ [] := by
    rintro rfl
    exact absurd hlong (by decide)
  have hhere : name ≠ ['.'] := by
    rintro rfl
    exact absurd hlong (by decide)
  unfold Path.firstStepOf?
  rw [if_neg hempty, if_neg hhere, h.stepOf?]

/-- A name is a path of one step. -/
theorem IsName.components (h : IsName name) : components ⟨.ofList name⟩ = [.name name] := by
  have hsegments : segments ⟨.ofList name⟩ = [name] := by
    rw [segments, String.toList_ofList]
    exact List.splitOn_eq_singleton h.solid
  rw [Path.components, hsegments]
  simp only [h.firstStepOf?, List.filterMap_nil, Option.toList_some, List.append_nil]

/-- The steps through a folder to what lies in it. -/
def stepsThrough (folder : List Char) : List Component :=
  match folder.splitOn '/' with
  | [] => []
  | first :: rest => (Path.firstStepOf? first true).toList ++ rest.filterMap Path.stepOf?

/-- A name behind a slash is the last step. -/
theorem IsName.components_behind (h : IsName name) (folder : List Char) :
    Path.components ⟨.ofList (folder ++ '/' :: name)⟩ = stepsThrough folder ++ [.name name] := by
  have hsegments : segments ⟨.ofList (folder ++ '/' :: name)⟩ = folder.splitOn '/' ++ [name] := by
    rw [segments, String.toList_ofList, ← List.splitOn_eq_singleton h.solid]
    exact List.splitOnP_append_cons folder name rfl
  rw [Path.components, hsegments, stepsThrough]
  cases folder.splitOn '/' with
  | nil => simp only [List.nil_append, h.firstStepOf?, List.filterMap_nil, Option.toList_some,
      List.append_nil]
  | cons first rest =>
    have hfollowed : (!(rest ++ [name]).isEmpty) = true := by simp
    simp only [List.cons_append, hfollowed, List.filterMap_append, List.filterMap_cons, h.stepOf?,
      List.filterMap_nil, List.append_assoc]

end Names

/-- What joins a name to the path of its folder. -/
def glue (folder : Path) : String :=
  if folder.text = "" || folder.text.toList.getLast? = some '/' then "" else "/"

/-- A name in a folder is put behind its path. -/
theorem IsName.join {name : List Char} (h : IsName name) (folder : Path) :
    folder.join ⟨.ofList name⟩ = ⟨folder.text ++ folder.glue ++ .ofList name⟩ := by
  have hrelative : isAbsolute ⟨.ofList name⟩ = false := by
    unfold isAbsolute
    rw [String.toList_ofList]
    cases name with
    | nil => rfl
    | cons c rest =>
      have hc : c ≠ '/' := fun hc => h.solid (hc ▸ List.mem_cons_self)
      simpa using hc
  unfold Path.join glue
  rw [hrelative, if_neg Bool.false_ne_true]
  split
  · rw [String.append_empty]
  · rfl

/-- The steps to a file are those to its folder, whatever its name, and its name. -/
theorem components_join (folder : Path) : ∃ front, ∀ name, IsName name →
    (folder.join ⟨.ofList name⟩).components = front ++ [.name name] := by
  by_cases hempty : folder.text = ""
  · refine ⟨[], fun name h => ?_⟩
    rw [h.join, glue, hempty]
    exact h.components
  · -- a folder that has a path ends with the slash in front of the name, or is given one
    obtain ⟨front, hfront⟩ : ∃ front, (folder.text ++ folder.glue).toList = front ++ ['/'] := by
      by_cases hslash : folder.text.toList.getLast? = some '/'
      · obtain ⟨front, hfront⟩ := List.getLast?_eq_some_iff.mp hslash
        exact ⟨front, by simp [glue, hfront]⟩
      · exact ⟨folder.text.toList, by simp [glue, hempty, hslash]⟩
    refine ⟨stepsThrough front, fun name h => ?_⟩
    have htext : folder.text ++ folder.glue ++ String.ofList name =
        String.ofList (front ++ '/' :: name) := by
      rw [← String.ofList_toList (s := folder.text ++ folder.glue), hfront, ← String.ofList_append,
        List.append_assoc, List.singleton_append]
    rw [h.join, htext, h.components_behind]

end Path

/-- What stands between two slashes holds none. -/
theorem Path.solid_of_mem_segments {p : Path} {segment : List Char}
    (h : segment ∈ p.segments) : '/' ∉ segment := by
  unfold segments List.splitOn at h
  generalize p.text.toList = text at h
  induction text generalizing segment with
  | nil =>
    obtain rfl : segment = [] := by simpa using h
    exact List.not_mem_nil
  | cons c text ih =>
    rw [List.splitOnP_cons_eq_if_modifyHead] at h
    split at h
    case isTrue =>
      obtain rfl | h := List.mem_cons.mp h
      · exact List.not_mem_nil
      · exact ih h
    case isFalse hc =>
      have hslash : '/' ≠ c := fun heq => hc (beq_iff_eq.mpr heq.symm)
      cases hpieces : text.splitOnP (· == '/') with
      | nil => simp [hpieces] at h
      | cons first rest =>
        rw [hpieces] at h ih
        obtain rfl | h := List.mem_cons.mp h
        · exact List.not_mem_cons_of_ne_of_not_mem hslash (ih List.mem_cons_self)
        · exact ih (List.mem_cons_of_mem _ h)

/-- The name that a path ends with is one of its segments. -/
theorem Path.mem_segments_of_fileName? {p : Path} {name : List Char} (h : p.fileName? = some name) :
    name ∈ p.segments := by
  have hstep : ∀ {segment : List Char}, stepOf? segment = some (.name name) → segment = name := by
    intro segment hs
    unfold stepOf? at hs
    split at hs
    · cases hs
    · split at hs
      · cases hs
      · injection hs with hs
        injection hs
  have hlast : Component.name name ∈ p.components := by
    unfold fileName? at h
    split at h
    case h_1 text hsome =>
      obtain rfl := Option.some.inj h
      exact List.mem_of_getLast? hsome
    case h_2 => cases h
  unfold components at hlast
  split at hlast
  case h_1 => cases hlast
  case h_2 first rest hsegments =>
    rw [hsegments]
    obtain hfirst | hrest := List.mem_append.mp hlast
    · have hs : firstStepOf? first (!rest.isEmpty) = some (.name name) := by
        simpa using hfirst
      unfold firstStepOf? at hs
      split at hs
      · split at hs <;> cases hs
      · split at hs
        · cases hs
        · rw [hstep hs]
          exact List.mem_cons_self
    · obtain ⟨segment, hmem, hs⟩ := List.mem_filterMap.mp hrest
      rw [← hstep hs]
      exact List.mem_cons_of_mem _ hmem

/-- What is left of a name without its extension is part of it. -/
theorem Path.stemOf_subset (name : List Char) : Path.stemOf name ⊆ name := by
  unfold stemOf
  split
  · exact List.Subset.refl _
  · intro c hc
    have hmem := List.mem_of_mem_tail (List.mem_reverse.mp hc)
    exact List.mem_reverse.mp ((List.dropWhile_sublist _).subset hmem)

/-- The name of a generated file is a name, whatever else without a slash is put behind
it. -/
theorem outputName_isName (input : Path) {extension : List Char} (h : '/' ∉ extension) :
    Path.IsName (outputName input ++ extension) := by
  have hstem : '/' ∉ input.stem?.getD ['o', 'u', 't'] := by
    unfold Path.stem?
    cases hname : input.fileName? with
    | none => decide
    | some name =>
      have hsolid := Path.solid_of_mem_segments (Path.mem_segments_of_fileName? hname)
      exact fun hmem => hsolid (Path.stemOf_subset name hmem)
  constructor
  · have hbal : '/' ∉ ['.', 'b', 'a', 'l'] := by decide
    simp [outputName, hstem, h]
  · simp [outputName]
    omega

/-- The folder of the generated file for a document. -/
def outputFolder (input : Path) (directory : Option Path) : Path :=
  (directory.or input.parent?).getD ⟨""⟩

variable (input other : Path) (directory directory' : Option Path)

/-- The generated file lies in its folder, under its name. -/
theorem outputPath_eq : outputPath input directory =
    (outputFolder input directory).join ⟨.ofList (outputName input)⟩ := by
  unfold outputPath outputFolder
  cases directory.or input.parent? with
  | some folder => rfl
  | none => simp [Path.join]

/-- The file for the source map lies in the same folder, under a longer name. -/
theorem mapPath_outputPath : Job.mapPath (outputPath input directory) =
    (outputFolder input directory).join ⟨.ofList (outputName input ++ ".map".toList)⟩ := by
  have hname := outputName_isName input List.not_mem_nil
  have hmap := outputName_isName input (by decide : '/' ∉ ".map".toList)
  rw [List.append_nil] at hname
  rw [outputPath_eq, hname.join, hmap.join, Job.mapPath, String.ofList_append, String.ofList_toList,
    String.append_assoc]

/-- The steps to a generated file and to the file for its source map. -/
theorem outputPath_components : ∃ front,
    (outputPath input directory).components = front ++ [.name (outputName input)] ∧
      (Job.mapPath (outputPath input directory)).components =
        front ++ [.name (outputName input ++ ".map".toList)] := by
  obtain ⟨front, hfront⟩ := Path.components_join (outputFolder input directory)
  have hname := outputName_isName input List.not_mem_nil
  rw [List.append_nil] at hname
  refine ⟨front, ?_, ?_⟩
  · rw [outputPath_eq]
    exact hfront _ hname
  · rw [mapPath_outputPath]
    exact hfront _ (outputName_isName input (by decide))

/-- A generated file and its source map have the names that they were given, with the
extensions that belong to them. -/
theorem fileName?_of_sameWay {p q : Path}
    (hp : p = outputPath input directory ∨ p = Job.mapPath (outputPath input directory))
    (h : p.sameWay q) : ∃ name, q.fileName? = some name ∧
      (".bal".toList <:+ name ∨ ".map".toList <:+ name) := by
  obtain ⟨front, houtput, hmap⟩ := outputPath_components input directory
  have hsteps := Path.sameWay_iff.mp h
  obtain rfl | rfl := hp
  · refine ⟨outputName input, ?_, .inl (List.suffix_append _ _)⟩
    rw [Path.fileName?, ← hsteps, houtput, List.getLast?_concat]
  · refine ⟨outputName input ++ ".map".toList, ?_, .inr (List.suffix_append _ _)⟩
    rw [Path.fileName?, ← hsteps, hmap, List.getLast?_concat]

/-- Source maps lead the same way only if their generated files do. -/
theorem mapPath_sameWay_iff :
    (Job.mapPath (outputPath input directory)).sameWay
        (Job.mapPath (outputPath other directory')) = true ↔
      (outputPath input directory).sameWay (outputPath other directory') = true := by
  obtain ⟨front, houtput, hmap⟩ := outputPath_components input directory
  obtain ⟨front', houtput', hmap'⟩ := outputPath_components other directory'
  rw [Path.sameWay_iff, Path.sameWay_iff, houtput, houtput', hmap, hmap']
  simp only [List.append_singleton_inj, Path.Component.name.injEq, List.append_left_inj]

/-- No generated file leads the same way as a source map. -/
theorem outputPath_not_sameWay_mapPath :
    (outputPath input directory).sameWay (Job.mapPath (outputPath other directory')) = false := by
  obtain ⟨front, houtput, -⟩ := outputPath_components input directory
  obtain ⟨front', -, hmap'⟩ := outputPath_components other directory'
  rw [← Bool.not_eq_true, Path.sameWay_iff, houtput, hmap']
  intro heq
  have hname : outputName input = outputName other ++ ".map".toList := by
    have hlast := congrArg List.getLast? heq
    simpa using hlast
  have hl : (outputName input).getLast? = some 'l' := by simp [outputName]
  have hp : (outputName other ++ ".map".toList).getLast? = some 'p' := by simp
  rw [hname, hp] at hl
  exact absurd hl (by decide)

end SourceScribe
