import Mathlib.Control.Monad.Basic
import ReflectionTables.TreeRuns
/-!
# A run that fails before it writes

A run over a tree has two phases. The first one chooses the files and reads all of them; it is a
function of the tree and changes nothing. Only its result is written. So a walk that fails, or one
file that cannot be read or parsed, wherever it stands among the others, fails the run before
anything is written.
-/

namespace ReflectionTables.Generation

open Reflected Parsing

theorem FileOutput.of_eq_error_iff {path source : String} {role : FileRole} {style : HeaderStyle}
    {failure : Failure} :
    FileOutput.of path source role style = .error failure ↔ findingsOf role source = .error failure := by
  rw [FileOutput.of]
  cases findingsOf role source with
  | error failure' => constructor <;> (intro h; cases h; rfl)
  | ok findings => constructor <;> (intro h; cases h)

end ReflectionTables.Generation

namespace ReflectionTables.Trees

open Text Reflected Parsing Generation

section Traversals

variable {α β ε : Type} {f : α → Except ε β} {xs : List α} {x : α} {e : ε}

/-- An error in going through a list is the error at one of its members. -/
theorem exists_mem_of_mapM_eq_error (h : xs.mapM f = .error e) : ∃ x ∈ xs, f x = .error e := by
  induction xs with
  | nil => cases h
  | cons x xs ih =>
    rw [List.mapM_cons] at h
    cases hx : f x with
    | error e' =>
      rw [hx] at h
      cases h
      exact ⟨x, List.mem_cons_self, hx⟩
    | ok b =>
      cases hrest : xs.mapM f with
      | ok bs => rw [hx, hrest] at h; cases h
      | error e' =>
        rw [hx, hrest] at h
        cases h
        obtain ⟨y, hy, herror⟩ := ih hrest
        exact ⟨y, List.mem_cons_of_mem x hy, herror⟩

/-- An error at any member is enough, whatever the others give. -/
theorem exists_mapM_eq_error (hx : x ∈ xs) (h : f x = .error e) : ∃ e', xs.mapM f = .error e' := by
  induction xs with
  | nil => cases hx
  | cons y xs ih =>
    rw [List.mapM_cons]
    cases hy : f y with
    | error e' => exact ⟨e', rfl⟩
    | ok b =>
      obtain rfl | hx := List.mem_cons.mp hx
      · cases hy.symm.trans h
      · obtain ⟨e', hrest⟩ := ih hx
        rw [hrest]
        exact ⟨e', rfl⟩

end Traversals

variable {tree : FileTree} {settings : Settings} {file : ChosenFile} {failure : RunFailure}

/-- Why there is nothing to write: the walk fails, or one of the chosen files is no text or not a file that
the rules accept. -/
inductive Blocked (tree : FileTree) (settings : Settings) : Prop
  | walk {failure : RunFailure} (h : chosenFiles tree settings = .error failure)
  | unread {files : List ChosenFile} {file : ChosenFile} {fault : ReadFault}
      (hfiles : chosenFiles tree settings = .ok files) (hfile : file ∈ files)
      (h : tree.readText (settings.root.join (relativePath file.names)) = .error fault)
  | unparsed {files : List ChosenFile} {file : ChosenFile} {source : String} {failure : Failure}
      (hfiles : chosenFiles tree settings = .ok files) (hfile : file ∈ files)
      (hsource : tree.readText (settings.root.join (relativePath file.names)) = .ok source)
      (h : findingsOf file.role source = .error failure)

/-- A failure that is known before anything is written: that of the walk, or of a chosen file. -/
inductive Foreseen (tree : FileTree) (settings : Settings) (failure : RunFailure) : Prop
  | walk (h : chosenFiles tree settings = .error failure)
  | file {files : List ChosenFile} {file : ChosenFile} (hfiles : chosenFiles tree settings = .ok files)
      (hfile : file ∈ files) (h : outputOf tree settings file = .error failure)

/-- A file has no output just if it cannot be read or parsed. -/
theorem exists_outputOf_eq_error :
    (∃ failure, outputOf tree settings file = .error failure) ↔
      (∃ fault, tree.readText (settings.root.join (relativePath file.names)) = .error fault) ∨
      ∃ source failure, tree.readText (settings.root.join (relativePath file.names)) = .ok source ∧
        findingsOf file.role source = .error failure := by
  cases hread : tree.readText (settings.root.join (relativePath file.names)) with
  | error fault =>
    simp only [outputOf, hread]
    exact ⟨fun _ => .inl ⟨fault, rfl⟩, fun _ => ⟨_, rfl⟩⟩
  | ok source =>
    cases hof : FileOutput.of file.logicalPath source file.role settings.style with
    | ok output =>
      simp only [outputOf, hread, hof]
      constructor
      · rintro ⟨failure, h⟩
        cases h
      · rintro (⟨fault, h⟩ | ⟨source', failure, h, hfound⟩)
        · cases h
        · cases h
          cases hof.symm.trans (FileOutput.of_eq_error_iff.mpr hfound)
    | error failure =>
      simp only [outputOf, hread, hof]
      refine ⟨fun _ => .inr ⟨source, failure, rfl, FileOutput.of_eq_error_iff.mp hof⟩, fun _ => ?_⟩
      cases failure <;> exact ⟨_, rfl⟩

theorem blocked_iff : Blocked tree settings ↔ ∃ failure, Foreseen tree settings failure := by
  constructor
  · intro h
    cases h with
    | walk h => exact ⟨_, .walk h⟩
    | unread hfiles hfile h =>
      obtain ⟨failure, houtput⟩ := exists_outputOf_eq_error.mpr (.inl ⟨_, h⟩)
      exact ⟨failure, .file hfiles hfile houtput⟩
    | unparsed hfiles hfile hsource h =>
      obtain ⟨failure, houtput⟩ := exists_outputOf_eq_error.mpr (.inr ⟨_, _, hsource, h⟩)
      exact ⟨failure, .file hfiles hfile houtput⟩
  · rintro ⟨failure, h⟩
    cases h with
    | walk h => exact .walk h
    | file hfiles hfile houtput =>
      obtain ⟨fault, h⟩ | ⟨source, failure', hsource, h⟩ := exists_outputOf_eq_error.mp ⟨failure, houtput⟩
      · exact .unread hfiles hfile h
      · exact .unparsed hfiles hfile hsource h

def prepared (tree : FileTree) (settings : Settings) :
    Except RunFailure (List ChosenFile × List FileOutput) := do
  let files ← chosenFiles tree settings
  let outputs ← files.mapM (outputOf tree settings)
  return (files, outputs)

theorem prepared_of_walk (h : chosenFiles tree settings = .error failure) :
    prepared tree settings = .error failure := by
  rw [prepared, h]
  rfl

theorem prepared_of_chosen {files : List ChosenFile} (h : chosenFiles tree settings = .ok files) :
    prepared tree settings = (files.mapM (outputOf tree settings)).map (files, ·) := by
  rw [prepared, h]
  rfl

/-- A foreseen failure ends the first phase, with itself or with that of an earlier file. -/
theorem Foreseen.exists_prepared_eq_error (h : Foreseen tree settings failure) :
    ∃ failure', prepared tree settings = .error failure' := by
  cases h with
  | walk h => exact ⟨failure, prepared_of_walk h⟩
  | file hfiles hfile h =>
    obtain ⟨failure', hall⟩ := exists_mapM_eq_error hfile h
    exact ⟨failure', by rw [prepared_of_chosen hfiles, hall]; rfl⟩

theorem foreseen_of_prepared (h : prepared tree settings = .error failure) :
    Foreseen tree settings failure := by
  cases hfiles : chosenFiles tree settings with
  | error failure' =>
    rw [prepared_of_walk hfiles] at h
    cases h
    exact .walk hfiles
  | ok files =>
    rw [prepared_of_chosen hfiles] at h
    cases hall : files.mapM (outputOf tree settings) with
    | ok outputs => rw [hall] at h; cases h
    | error failure' =>
      rw [hall] at h
      cases h
      obtain ⟨file, hfile, houtput⟩ := exists_mem_of_mapM_eq_error hall
      exact .file hfiles hfile houtput

def writePrepared (settings : Settings) (files : List ChosenFile) (outputs : List FileOutput) :
    TreeAction Summary := do
  let (written, aggregate) ← writeArtifacts settings (files.zip outputs) 0 {}
  let changed ← writeIfChanged settings.aggregate aggregate.text
  return {
    files := files.length
    written := written + changed.toNat
    remarks := outputs.flatMap (·.remarks) }

theorem run_liftExcept_ok {α β : Type} (a : α) (next : α → TreeAction β) :
    (run.liftExcept (.ok a) >>= next).run tree = (next a).run tree := rfl

theorem run_liftExcept_error {α β : Type} (next : α → TreeAction β) :
    (run.liftExcept (.error failure) >>= next).run tree = (.error failure, tree) := rfl

theorem run_run : (run settings).run tree =
    match prepared tree settings with
    | .error failure => (.error failure, tree)
    | .ok (files, outputs) => (writePrepared settings files outputs).run tree := by
  have hphases : (run settings).run tree =
      (run.liftExcept (chosenFiles tree settings) >>= fun files =>
        run.liftExcept (files.mapM (outputOf tree settings)) >>= fun outputs =>
          writePrepared settings files outputs).run tree := rfl
  rw [hphases]
  cases hfiles : chosenFiles tree settings with
  | error failure => rw [run_liftExcept_error, prepared_of_walk hfiles]
  | ok files =>
    rw [run_liftExcept_ok, prepared_of_chosen hfiles]
    cases files.mapM (outputOf tree settings) with
    | error failure => rfl
    | ok outputs => rfl

/-- A run that is blocked gives no summary, names a failure of the walk or of a chosen file, and leaves
the tree as it was. -/
theorem blocked_run (h : Blocked tree settings) :
    ∃ failure, Foreseen tree settings failure ∧ (run settings).run tree = (.error failure, tree) := by
  obtain ⟨failure', hforeseen⟩ := blocked_iff.mp h
  obtain ⟨failure, hprepared⟩ := hforeseen.exists_prepared_eq_error
  refine ⟨failure, foreseen_of_prepared hprepared, ?_⟩
  rw [run_run, hprepared]

/-- A tree with a header that ends within a record, between two that are sound. -/
def brokenTree : FileTree where
  nodes := [
    (["src"], .directory),
    (["src", "a.h"], .file (bytesOf "struct A \x7b int x; \x7d;")),
    (["src", "b.h"], .file (bytesOf "struct B \x7b int x \x7d;")),
    (["src", "c.h"], .file (bytesOf "struct C \x7b int x; \x7d;"))]
  cwd := []

/-- Nothing is written of the sound files. -/
theorem blocked_run_broken :
    ∃ failure, (run { root := .ofText "src" }).run brokenTree = (.error failure, brokenTree) := by
  have hfiles : chosenFiles brokenTree { root := .ofText "src" } =
      .ok [⟨["a.h"], .header⟩, ⟨["b.h"], .header⟩, ⟨["c.h"], .header⟩] := by decide +kernel
  have hsource : brokenTree.readText ((SlashPath.ofText "src").join (relativePath ["b.h"])) =
      .ok "struct B \x7b int x \x7d;" := by decide +kernel
  have hfound : findingsOf .header "struct B \x7b int x \x7d;" =
      .error (.rejected ⟨.expected (.semicolonAfterMember "x") ⟨.rBrace, "\x7d", 17, 0⟩, 1, 18⟩) := by
    decide +kernel
  have hfile : ⟨["b.h"], .header⟩ ∈ ([⟨["a.h"], .header⟩, ⟨["b.h"], .header⟩, ⟨["c.h"], .header⟩] :
      List ChosenFile) := by simp
  obtain ⟨failure, -, hrun⟩ := blocked_run (.unparsed hfiles hfile hsource hfound)
  exact ⟨failure, hrun⟩

end ReflectionTables.Trees
