import Mathlib.Data.List.Forall2
import ReflectionTables.Proofs.RunEffects
/-!
# What a run that succeeds has written

Artifacts are written in the order of the files, so of the files that share an artifact only the
last one has its text there. Two files share their artifact just if they are twins: with the same
directory, stem and role.
-/

namespace ReflectionTables.Trees

open Text Reflected Generation

variable {tree after : FileTree} {settings : Settings} {files : List ChosenFile} {file : ChosenFile}
  {outputs : List FileOutput} {summary : Summary}

section Traversals

variable {α β ε : Type} {f g : α → Except ε β} {xs : List α} {ys : List β}

theorem forall₂_of_mapM (h : xs.mapM f = .ok ys) : List.Forall₂ (fun x y => f x = .ok y) xs ys := by
  induction xs generalizing ys with
  | nil =>
    cases h
    exact .nil
  | cons x xs ih =>
    rw [List.mapM_cons] at h
    obtain ⟨y, hx, h⟩ := exists_of_bind h
    obtain ⟨rest, hrest, h⟩ := exists_of_bind h
    cases h
    exact .cons hx (ih hrest)

theorem mapM_congr (h : ∀ x ∈ xs, f x = g x) : xs.mapM f = xs.mapM g := by
  induction xs with
  | nil => rfl
  | cons x xs ih =>
    rw [List.mapM_cons, List.mapM_cons, h x List.mem_cons_self,
      ih fun y hy => h y (List.mem_cons_of_mem x hy)]

end Traversals

theorem map_fst_zip_of_mapM (h : files.mapM (outputOf tree settings) = .ok outputs) :
    (files.zip outputs).map Prod.fst = files :=
  List.map_fst_zip (Nat.le_of_eq (forall₂_of_mapM h).length_eq)

/-- The text of the aggregate of some files: the lines of the headers, and then those of the implementation
files. -/
def Settings.aggregateText (settings : Settings) (pairs : List (ChosenFile × FileOutput)) : String :=
  unlines ("#pragma once" ::
    (typeLinesOf (settings.included pairs) ++ symbolLinesOf (settings.included pairs)))

theorem text_addAll_included (pairs : List (ChosenFile × FileOutput)) :
    (Aggregate.addAll {} (settings.included pairs)).text = settings.aggregateText pairs :=
  text_addAll (settings.included pairs)

/-- A run that has succeeded had an output for each file, and has written the artifacts and then the
aggregate. -/
theorem exists_of_run (hrun : (run settings).run tree = (.ok summary, after))
    (hfiles : chosenFiles tree settings = .ok files) :
    ∃ outputs count middle changed, files.mapM (outputOf tree settings) = .ok outputs ∧
      (writeArtifacts settings (files.zip outputs) 0 {}).run tree =
        (.ok (count, Aggregate.addAll {} (settings.included (files.zip outputs))), middle) ∧
      (writeIfChanged settings.aggregate (settings.aggregateText (files.zip outputs))).run middle =
        (.ok changed, after) ∧
      summary = ⟨files.length, count + changed.toNat, outputs.flatMap (·.remarks)⟩ := by
  rw [run_run, prepared_of_chosen hfiles] at hrun
  cases houtputs : files.mapM (outputOf tree settings) with
  | error failure =>
    rw [houtputs] at hrun
    cases hrun
  | ok outputs =>
    rw [houtputs] at hrun
    replace hrun : (writePrepared settings files outputs).run tree = (.ok summary, after) := hrun
    rw [run_writePrepared] at hrun
    split at hrun
    · cases hrun
    rename_i count aggregate middle hartifacts
    obtain rfl := aggregate_of_writeArtifacts hartifacts
    rw [text_addAll_included] at hrun
    split at hrun
    · cases hrun
    · rename_i changed after' haggregate
      cases hrun
      exact ⟨outputs, count, middle, changed, rfl, hartifacts, haggregate, rfl⟩

/-- An artifact is in the end what it was after the last artifact was written, unless the aggregate goes to
the same place. -/
theorem readText_of_run {before later : List (ChosenFile × FileOutput)} {output : FileOutput}
    (hrun : (run settings).run tree = (.ok summary, after)) (hfiles : chosenFiles tree settings = .ok files)
    (houtputs : files.mapM (outputOf tree settings) = .ok outputs)
    (hpairs : files.zip outputs = before ++ (file, output) :: later)
    (hlater : ∀ other ∈ later.map Prod.fst,
      tree.placeOf (settings.artifactOf other) ≠ tree.placeOf (settings.artifactOf file))
    (haggregate : tree.placeOf (settings.artifactOf file) ≠ tree.placeOf settings.aggregate) :
    after.readText (settings.artifactOf file) = .ok output.text := by
  obtain ⟨outputs', count, middle, changed, houtputs', hartifacts, hwritten, -⟩ := exists_of_run hrun hfiles
  cases houtputs'.symm.trans houtputs
  rw [hpairs] at hartifacts
  have hmiddle := readText_of_writeArtifacts hartifacts hlater
  have hwithin := (FileTree.Edits.of_writeArtifacts hartifacts).within
  have hlast := edits_writeIfChanged settings.aggregate (settings.aggregateText (files.zip outputs)) middle
  rw [hwritten] at hlast
  apply hlast.readText _ hmiddle
  rw [hwithin.placeOf, hwithin.placeOf]
  exact haggregate

/-- Two chosen files have the same artifact just if they are twins. After a run that succeeds, each file
without a later twin has its text in its artifact, if the aggregate is not put there. -/
theorem artifacts_kept (hsound : tree.Sound) (hfiles : chosenFiles tree settings = .ok files)
    (hrun : (run settings).run tree = (.ok summary, after)) :
    (∀ file ∈ files, ∀ other ∈ files,
      settings.artifactOf file = settings.artifactOf other ↔ file.Twin other) ∧
    ∃ outputs, files.mapM (outputOf tree settings) = .ok outputs ∧
      ∀ before file output later, files.zip outputs = before ++ (file, output) :: later →
        (∀ other ∈ later, ¬other.1.Twin file) →
        tree.placeOf (settings.artifactOf file) ≠ tree.placeOf settings.aggregate →
        after.readText (settings.artifactOf file) = .ok output.text := by
  constructor
  · intro file hfile other hother
    exact artifactOf_eq_iff (hsound.named_of_chosenFiles hfiles hfile)
      (hsound.named_of_chosenFiles hfiles hother)
  · obtain ⟨outputs, -, -, -, houtputs, -⟩ := exists_of_run hrun hfiles
    refine ⟨outputs, houtputs, ?_⟩
    intro before file output later hpairs hlater haggregate
    have hmem : ∀ pair ∈ (file, output) :: later, pair.1 ∈ files := fun pair hpair =>
      (List.of_mem_zip (hpairs ▸ List.mem_append_right before hpair)).1
    apply readText_of_run hrun hfiles houtputs hpairs _ haggregate
    intro other hother hplace
    obtain ⟨pair, hpair, rfl⟩ := List.mem_map.mp hother
    exact hlater pair hpair ((placeOf_artifactOf_eq_iff
      (hsound.named_of_chosenFiles hfiles (hmem pair (List.mem_cons_of_mem _ hpair)))
      (hsound.named_of_chosenFiles hfiles (hmem _ List.mem_cons_self))).mp hplace)

def twinTree : FileTree where
  nodes := [(["src"], .directory), (["src", "a.h"], .file []), (["src", "a.hpp"], .file [])]
  cwd := []

theorem exists_run_eq (h : ((run settings).run tree).1.toOption.isSome) :
    ∃ summary after, (run settings).run tree = (.ok summary, after) := by
  generalize (run settings).run tree = result at h ⊢
  obtain ⟨answer, after⟩ := result
  cases answer with
  | error failure => cases h
  | ok summary => exact ⟨summary, after, rfl⟩

/-- The artifact that twins share is that of the second one. -/
theorem artifacts_kept_twins :
    ∃ summary after output, (run { root := .ofText "src" }).run twinTree = (.ok summary, after) ∧
      outputOf twinTree { root := .ofText "src" } ⟨["a.hpp"], .header⟩ = .ok output ∧
      after.readText (.ofText "generated/a.generated.h") = .ok output.text := by
  have hfiles : chosenFiles twinTree { root := .ofText "src" } =
      .ok [⟨["a.h"], .header⟩, ⟨["a.hpp"], .header⟩] := by decide +kernel
  obtain ⟨summary, after, hrun⟩ : ∃ summary after,
      (run { root := .ofText "src" }).run twinTree = (.ok summary, after) := exists_run_eq (by decide +kernel)
  obtain ⟨-, outputs, houtputs, hkept⟩ := artifacts_kept (by decide +kernel) hfiles hrun
  cases forall₂_of_mapM houtputs with
  | @cons _ first _ _ hfirst hrest =>
    cases hrest with
    | @cons _ second _ _ hsecond hnil =>
      cases hnil
      have hread := hkept [(⟨["a.h"], .header⟩, first)] ⟨["a.hpp"], .header⟩ second [] rfl (by simp)
        (by decide +kernel)
      exact ⟨summary, after, second, hrun, hsecond, hread⟩

end ReflectionTables.Trees
