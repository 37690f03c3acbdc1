import ReflectionTables.Proofs.ChosenFiles
import ReflectionTables.Proofs.WrittenTrees
/-!
# What a run leaves alone

Whether it succeeds or fails, and wherever it stops, a run writes at the places of its artifacts and
of the aggregate only, and no artifact goes where a file is chosen. So artifacts are never read as
inputs, and the files that were read stay as they are.
-/

namespace ReflectionTables.Trees

open Text Reflected Generation

variable {tree after : FileTree} {settings : Settings} {files : List ChosenFile} {file : ChosenFile}

def Settings.Writes (settings : Settings) (tree : FileTree) (files : List ChosenFile) (key : Key) : Prop :=
  settings.PutsAt tree files key ∨ key = tree.placeOf settings.aggregate

theorem run_writePrepared (files : List ChosenFile) (outputs : List FileOutput) :
    (writePrepared settings files outputs).run tree =
      match (writeArtifacts settings (files.zip outputs) 0 {}).run tree with
      | (.error failure, after) => (.error failure, after)
      | (.ok (count, aggregate), middle) =>
        match (writeIfChanged settings.aggregate aggregate.text).run middle with
        | (.error failure, after) => (.error failure, after)
        | (.ok changed, after) =>
          (.ok ⟨files.length, count + changed.toNat, outputs.flatMap (·.remarks)⟩, after) := by
  rw [writePrepared, run_bind]
  generalize (writeArtifacts settings (files.zip outputs) 0 {}).run tree = result
  obtain ⟨answer, middle⟩ := result
  cases answer with
  | error failure => rfl
  | ok total =>
    obtain ⟨count, aggregate⟩ := total
    dsimp only
    rw [run_bind]
    generalize (writeIfChanged settings.aggregate aggregate.text).run middle = result
    obtain ⟨answer, after⟩ := result
    cases answer <;> rfl

theorem edits_artifacts {pairs : List (ChosenFile × FileOutput)} (hpairs : ∀ pair ∈ pairs, pair.1 ∈ files)
    (count : Nat) (aggregate : Aggregate) :
    tree.Edits (settings.Writes tree files) ((writeArtifacts settings pairs count aggregate).run tree).2 := by
  apply (edits_writeArtifacts pairs count aggregate tree).mono
  rintro key ⟨file, hfile, hkey⟩
  obtain ⟨pair, hpair, rfl⟩ := List.mem_map.mp hfile
  exact .inl ⟨pair.1, hpairs pair hpair, hkey⟩

theorem edits_writePrepared (files : List ChosenFile) (outputs : List FileOutput) :
    tree.Edits (settings.Writes tree files) ((writePrepared settings files outputs).run tree).2 := by
  have hartifacts : tree.Edits (settings.Writes tree files)
      ((writeArtifacts settings (files.zip outputs) 0 {}).run tree).2 :=
    edits_artifacts (fun pair hpair => (List.of_mem_zip hpair).1) 0 {}
  rw [run_writePrepared]
  generalize (writeArtifacts settings (files.zip outputs) 0 {}).run tree = result at hartifacts ⊢
  obtain ⟨answer, middle⟩ := result
  cases answer with
  | error failure => exact hartifacts
  | ok total =>
    have haggregate : middle.Edits (settings.Writes tree files)
        ((writeIfChanged settings.aggregate total.2.text).run middle).2 :=
      (edits_writeIfChanged settings.aggregate total.2.text middle).mono fun key hkey =>
        .inr (hkey.trans (hartifacts.within.placeOf _))
    dsimp only
    generalize (writeIfChanged settings.aggregate total.2.text).run middle = result at haggregate ⊢
    obtain ⟨answer, after⟩ := result
    cases answer with
    | error failure => exact hartifacts.trans haggregate
    | ok changed => exact hartifacts.trans haggregate

/-- Whatever the answer of a run is, it has written nothing but artifacts and the aggregate. -/
theorem edits_run (h : chosenFiles tree settings = .ok files) :
    tree.Edits (settings.Writes tree files) ((run settings).run tree).2 := by
  rw [run_run, prepared_of_chosen h]
  cases files.mapM (outputOf tree settings) with
  | error failure => exact .nothing
  | ok outputs => exact edits_writePrepared files outputs

theorem not_writes_sourceOf (hfiles : chosenFiles tree settings = .ok files)
    (haggregate : ∀ file ∈ files, settings.sourceOf tree file ≠ tree.placeOf settings.aggregate)
    (hfile : file ∈ files) : ¬settings.Writes tree files (settings.sourceOf tree file) := by
  rintro (⟨other, -, hplace⟩ | hplace)
  · exact sourceOf_ne_artifactPath hfiles hfile settings _ _ hplace
  · exact haggregate file hfile hplace

/-- A file that was chosen stands as it stood, whatever part of these edits was made. -/
theorem FileTree.Edits.get?_sourceOf (h : tree.Edits (settings.Writes tree files) after)
    (hfiles : chosenFiles tree settings = .ok files)
    (haggregate : ∀ file ∈ files, settings.sourceOf tree file ≠ tree.placeOf settings.aggregate)
    (hfile : file ∈ files) :
    after.get? (settings.sourceOf tree file) = tree.get? (settings.sourceOf tree file) := by
  have hunwritten := not_writes_sourceOf hfiles haggregate hfile
  obtain ⟨node, hentry, -⟩ := mem_of_chosenFiles hfiles hfile
  obtain ⟨node', hnode⟩ := Option.isSome_iff_exists.mp (isSome_get?_of_mem hentry)
  rw [hnode]
  exact h.get?_eq hunwritten hnode

/-- Artifacts are not inputs. Their paths have no role, wherever the output directory lies, so no run
chooses what any run has written as an artifact. And inputs are not clobbered: unless the aggregate goes
where a file was chosen, each chosen file has after a run what it had before, whether the run succeeds or
fails, and also if it is cut off while it writes, with anything in the artifact it was writing. -/
theorem artifacts_apart_from_inputs (settings : Settings) :
    (∀ relative role, roleOf? (settings.artifactPath relative role) = none) ∧
    (∀ (tree : FileTree) (later : Settings) (files : List ChosenFile),
      chosenFiles tree later = .ok files → ∀ file ∈ files, ∀ relative role,
        later.sourceOf tree file ≠ tree.placeOf (settings.artifactPath relative role)) ∧
    ∀ (tree : FileTree) (files : List ChosenFile), chosenFiles tree settings = .ok files →
      (∀ file ∈ files, settings.sourceOf tree file ≠ tree.placeOf settings.aggregate) →
      ∀ file ∈ files,
        ((run settings).run tree).2.get? (settings.sourceOf tree file) =
          tree.get? (settings.sourceOf tree file) ∧
        ∀ after, tree.Edits (settings.Writes tree files) after →
          after.get? (settings.sourceOf tree file) = tree.get? (settings.sourceOf tree file) := by
  constructor
  · exact roleOf?_artifactPath settings
  constructor
  · intro tree later files hfiles file hfile relative role
    exact sourceOf_ne_artifactPath hfiles hfile settings relative role
  · intro tree files hfiles haggregate file hfile
    have hany : ∀ after, tree.Edits (settings.Writes tree files) after →
        after.get? (settings.sourceOf tree file) = tree.get? (settings.sourceOf tree file) :=
      fun after hedits => hedits.get?_sourceOf hfiles haggregate hfile
    exact ⟨hany _ (edits_run hfiles), hany⟩

/-- A tree with a header and an implementation file. -/
def besideTree : FileTree where
  nodes := [
    (["src"], .directory),
    (["src", "a.c"], .file (bytesOf "int total;")),
    (["src", "a.h"], .file (bytesOf "struct A \x7b int x; \x7d;"))]
  cwd := []

/-- Settings by which the artifacts go beside the files. -/
def besideSettings : Settings where
  root := .ofText "src"
  outDir := .ofText "./src"
  aggregate := .ofText "src/all.txt"

/-- Artifacts beside the files are not read, and the files stay. -/
theorem artifacts_apart_beside :
    ((run besideSettings).run besideTree).2.get? ["src", "a.h"] =
      some (.file (bytesOf "struct A \x7b int x; \x7d;")) := by
  have hfiles : chosenFiles besideTree besideSettings = .ok [⟨["a.c"], .source⟩, ⟨["a.h"], .header⟩] := by
    decide +kernel
  have haggregate : ∀ file ∈ ([⟨["a.c"], .source⟩, ⟨["a.h"], .header⟩] : List ChosenFile),
      besideSettings.sourceOf besideTree file ≠ besideTree.placeOf besideSettings.aggregate := by
    decide +kernel
  have hplace : besideSettings.sourceOf besideTree ⟨["a.h"], .header⟩ = ["src", "a.h"] := by decide +kernel
  have hkept := ((artifacts_apart_from_inputs besideSettings).2.2 besideTree _ hfiles haggregate
    ⟨["a.h"], .header⟩ (by simp)).1
  rw [hplace] at hkept
  exact hkept

end ReflectionTables.Trees
