import ReflectionTables.Proofs.SafeCuts
import ReflectionTables.TreeRuns
/-!
# The role of a file decides what is learnt

The role of a file decides what can be learnt from it. A header announces nothing, and an
implementation file has no types, so neither the style of the tables nor the path of the file can
show in what an implementation file gives, but where the path is named.
-/

namespace ReflectionTables.Reflected

variable {role : FileRole} {f : Findings} {finding : Finding}

structure Findings.Suit (f : Findings) (role : FileRole) : Prop where
  header : role = .header → f.externs = []
  source : role = .source →
    f.types = [] ∧ f.declarations = [] ∧ ∀ r ∈ f.remarks, ∃ shown, r = .unparsed shown

theorem Findings.suit_nothing : ({} : Findings).Suit role := ⟨fun _ => rfl, fun _ => ⟨rfl, rfl, by simp⟩⟩

theorem Findings.Suit.add (h : f.Suit role) (hf : finding.Suits role) : (f.add finding).Suit role := by
  cases finding with
  | type type =>
    obtain rfl : role = .header := hf
    exact ⟨h.header, by simp⟩
  | declaration declaration =>
    obtain rfl : role = .header := hf
    exact ⟨h.header, by simp⟩
  | announced declaration =>
    obtain rfl : role = .source := hf
    exact ⟨by simp, h.source⟩
  | remark r =>
    refine ⟨h.header, fun hsource => ?_⟩
    obtain ⟨htypes, hdeclarations, hremarks⟩ := h.source hsource
    refine ⟨htypes, hdeclarations, ?_⟩
    cases r with
    | unparsed shown =>
      rw [add, List.forall_mem_append, List.forall_mem_singleton]
      exact ⟨hremarks, shown, rfl⟩
    | notReflected name =>
      obtain rfl : role = .header := hf
      cases hsource

end ReflectionTables.Reflected

namespace ReflectionTables.Parsing

open Text Scanning Reflected Parsing.Parser Reading

variable {text : String} {role : FileRole}

theorem suit_findingsOf {f : Findings} (h : findingsOf role text = .ok f) : f.Suit role := by
  apply kept_of_findingsOf (·.Suit role) Findings.suit_nothing ?_ h
  intro history finding next s c hreaches _ _ hsuit
  exact hsuit.add (sparing_of_reaches True (fun _ => trivial) hreaches)

end ReflectionTables.Parsing

namespace ReflectionTables.Generation

open Reflected Parsing

def FileOutput.relabelled (output : FileOutput) (path : String) : FileOutput := { output with path }

/-- What an implementation file gives is the same under another path and in another style, but for the
path that it names. -/
theorem FileOutput.of_source (path path' text : String) (style style' : HeaderStyle) :
    FileOutput.of path' text .source style' =
      (FileOutput.of path text .source style).map (·.relabelled path') := by
  rw [FileOutput.of, FileOutput.of]
  cases findingsOf .source text with
  | error failure => rfl
  | ok findings => rfl

end ReflectionTables.Generation

namespace ReflectionTables.Trees

open Reflected Parsing Generation

variable {tree tree' : FileTree} {settings settings' : Settings} {names names' : Key} {text : String}

/-- The failure of a file under another path. -/
def RunFailure.relabelled (path : String) : RunFailure → RunFailure
  | .rejected _ error => .rejected path error
  | failure => failure

/-- In a run, too, only the path shows: in the output, or in the failure. -/
theorem outputOf_source
    (h : tree.readText (settings.root.join (relativePath names)) = .ok text)
    (h' : tree'.readText (settings'.root.join (relativePath names')) = .ok text) :
    outputOf tree' settings' ⟨names', .source⟩ =
      ((outputOf tree settings ⟨names, .source⟩).map
        (·.relabelled (ChosenFile.mk names' .source).logicalPath)).mapError
        (RunFailure.relabelled (ChosenFile.mk names' .source).logicalPath) := by
  have hsame := FileOutput.of_source (ChosenFile.mk names .source).logicalPath
    (ChosenFile.mk names' .source).logicalPath text settings.style settings'.style
  simp only [outputOf, h, h', hsame]
  cases FileOutput.of (ChosenFile.mk names .source).logicalPath text .source settings.style with
  | ok output => rfl
  | error failure => cases failure <;> rfl

/-- A header announces nothing. An implementation file has no types, and none that it leaves out; its
output depends neither on the settings nor, but for where the path is named, on its path. -/
theorem roles_do_not_leak (text : String) :
    (∀ f, findingsOf .header text = .ok f → f.externs = []) ∧
    (∀ f, findingsOf .source text = .ok f →
      f.types = [] ∧ f.declarations = [] ∧ ∀ name, Remark.notReflected name ∉ f.remarks) ∧
    (∀ path path' style style', FileOutput.of path' text .source style' =
      (FileOutput.of path text .source style).map (·.relabelled path')) ∧
    (∀ (tree tree' : FileTree) (settings settings' : Settings) (names names' : Key),
      tree.readText (settings.root.join (relativePath names)) = .ok text →
      tree'.readText (settings'.root.join (relativePath names')) = .ok text →
      outputOf tree' settings' ⟨names', .source⟩ =
        ((outputOf tree settings ⟨names, .source⟩).map
          (·.relabelled (ChosenFile.mk names' .source).logicalPath)).mapError
          (RunFailure.relabelled (ChosenFile.mk names' .source).logicalPath)) := by
  refine ⟨fun f h => (suit_findingsOf h).header rfl, fun f h => ?_, fun path path' style style' =>
    FileOutput.of_source path path' text style style', fun _ _ _ _ _ _ => outputOf_source⟩
  obtain ⟨htypes, hdeclarations, hremarks⟩ := (suit_findingsOf h).source rfl
  refine ⟨htypes, hdeclarations, fun name hname => ?_⟩
  obtain ⟨shown, hshown⟩ := hremarks _ hname
  cases hshown

/-- One text in both roles. -/
theorem roles_do_not_leak_both :
    (∃ f, findingsOf .header "struct A \x7b int x; \x7d; int y;" = .ok f ∧
      (!f.types.isEmpty) = true ∧ f.externs = []) ∧
    ∃ f, findingsOf .source "struct A \x7b int x; \x7d; int y;" = .ok f ∧
      (!f.externs.isEmpty) = true ∧ f.types = [] := by
  obtain ⟨hheader, hsource, -⟩ := roles_do_not_leak "struct A \x7b int x; \x7d; int y;"
  obtain ⟨f, hf, htypes⟩ := exists_of_any_toOption (p := (!·.types.isEmpty)) (show
    (findingsOf .header "struct A \x7b int x; \x7d; int y;").toOption.any _ = true by decide +kernel)
  obtain ⟨g, hg, hexterns⟩ := exists_of_any_toOption (p := (!·.externs.isEmpty)) (show
    (findingsOf .source "struct A \x7b int x; \x7d; int y;").toOption.any _ = true by decide +kernel)
  exact ⟨⟨f, hf, htypes, hheader f hf⟩, g, hg, hexterns, (hsource g hg).1⟩

end ReflectionTables.Trees
