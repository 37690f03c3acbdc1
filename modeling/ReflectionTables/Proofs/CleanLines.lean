import ReflectionTables.Proofs.ReadableHeaders
/-!
# The lines of what is announced

The lines of what an implementation file announces. Every text that is shown is clean, wherever it
comes from, since the parser is allowed to show no other. So the artifact has one line for each
declaration, and the declarations can be read back from it.
-/

namespace ReflectionTables.Parsing

open Text Scanning Reflected Parsing.Parser Reading

variable {text : String} {role : FileRole}

/-- What is learnt, if the parser may learn it, is clean. -/
theorem Request.Legal.clean {finding : Finding} {c : Reading text}
    (h : (Request.note finding).Legal c) : finding.Clean := by
  cases finding with
  | declaration declaration => trivial
  | type type => trivial
  | announced shown => exact h
  | remark r => exact h

theorem clean_findingsOf {f : Findings} (h : findingsOf role text = .ok f) : f.Clean := by
  apply kept_of_findingsOf (·.Clean) Findings.clean_nothing ?_ h
  intro history finding next s c _ hlegal _ hclean
  exact hclean.add hlegal.clean

end ReflectionTables.Parsing

namespace ReflectionTables.Generation

open Text Reflected Parsing

variable {externs : List String} {declaration line path text : String} {style : HeaderStyle}

def announcedIn? (line : String) : Option String :=
  if line.startsWith "extern " then some (.ofList (line.toList.drop 7).dropLast) else none

/-- The declarations that the lines of a text announce. -/
def announcedIn (text : String) : List String := (linesOf text).filterMap announcedIn?

theorem externLine_eq (declaration : String) : externLine declaration = "extern " ++ (declaration ++ ";") := by
  rw [← String.append_assoc]
  rfl

theorem announcedIn?_externLine (declaration : String) :
    announcedIn? (externLine declaration) = some declaration := by
  have hstart : (externLine declaration).startsWith "extern " = true := by
    rw [String.startsWith_string_iff, externLine_eq, String.toList_append]
    exact List.prefix_append _ _
  have hrest : (externLine declaration).toList.drop 7 = declaration.toList ++ [';'] := by
    rw [externLine_eq, String.toList_append, String.toList_append]
    exact List.drop_left' (by decide)
  rw [announcedIn?, if_pos hstart, hrest, List.dropLast_concat, String.ofList_toList]

/-- The artifact has one line for each declaration, if these have no line breaks. -/
theorem linesOf_symbolsText (h : ∀ declaration ∈ externs, OneLine declaration) :
    linesOf (symbolsText externs) = "#pragma once" :: externs.map externLine ++ [""] := by
  rw [symbolsText]
  apply linesOf_unlines
  rw [List.forall_mem_cons, List.forall_mem_map]
  refine ⟨by decide, fun declaration hdeclaration => ?_⟩
  exact ((show OneLine "extern " by decide).append (h declaration hdeclaration)).append (by decide)

theorem announcedIn_symbolsText (h : ∀ declaration ∈ externs, OneLine declaration) :
    announcedIn (symbolsText externs) = externs := by
  have hpragma : announcedIn? "#pragma once" = none := by decide +kernel
  have hlast : announcedIn? "" = none := by decide +kernel
  have hlines : (externs.map externLine).filterMap announcedIn? = externs := by
    rw [List.filterMap_map]
    simp only [Function.comp_def, announcedIn?_externLine, List.filterMap_some]
  rw [announcedIn, linesOf_symbolsText h, List.cons_append, List.filterMap_cons_none hpragma,
    List.filterMap_append, hlines, List.filterMap_cons_none hlast, List.filterMap_nil, List.append_nil]

/-- A remark that says that a text was not read shows this text. -/
theorem eq_unparsed_of_text {r : Remark} {shown : String} (h : r.text = "// reflgen: unparsed: " ++ shown) :
    r = .unparsed shown := by
  cases r with
  | unparsed other => rw [(String.append_right_inj _).mp h]
  | notReflected name =>
    have hstarts : Apart "// reflgen: unparsed: " "// reflgen: not reflected: " := apart_ofList (by decide)
    have htext : Apart "// reflgen: unparsed: " (Remark.notReflected name).text := hstarts.append.append
    exact absurd h htext.symm.append.ne

/-- What an implementation file announces and what is shown in any file of what no rule reads is one line of
words. So the artifact of an implementation file consists of its first line and one line for each
declaration, and says which declarations these are. -/
theorem shown_texts_are_clean (text : String) :
    (∀ f, findingsOf .source text = .ok f →
      (∀ shown ∈ f.externs, collapse shown = shown ∧ SpacedOnce shown ∧ shown ≠ "") ∧
      ∀ path style, ∃ output, FileOutput.of path text .source style = .ok output ∧
        linesOf output.text = "#pragma once" :: f.externs.map externLine ++ [""] ∧
        announcedIn output.text = f.externs) ∧
    ∀ role f, findingsOf role text = .ok f → ∀ r ∈ f.remarks, ∀ shown,
      r.text = "// reflgen: unparsed: " ++ shown → collapse shown = shown ∧ SpacedOnce shown := by
  constructor
  · intro f hfound
    have hclean := (clean_findingsOf hfound).externs
    have hlines : ∀ shown ∈ f.externs, OneLine shown := fun shown hshown =>
      (collapse_eq_self_iff.mp (hclean shown hshown).1).not_lineFeed
    constructor
    · intro shown hshown
      obtain ⟨hself, hempty⟩ := hclean shown hshown
      exact ⟨hself, collapse_eq_self_iff.mp hself, hempty⟩
    · intro path style
      have houtput : FileOutput.of path text .source style =
          .ok ⟨path, .source, symbolsText f.externs, f.declarations, f.remarks⟩ := by
        rw [FileOutput.of, hfound]
        rfl
      exact ⟨_, houtput, linesOf_symbolsText hlines, announcedIn_symbolsText hlines⟩
  · intro role f hfound r hr shown hshown
    obtain rfl := eq_unparsed_of_text hshown
    have hself : collapse shown = shown := (clean_findingsOf hfound).remarks _ hr
    exact ⟨hself, collapse_eq_self_iff.mp hself⟩

/-- Declarators that share their type words, a function on two lines, and a statement that no rule reads. -/
def scatteredText : String :=
  "unsigned\n long a = 1,\n *\t b ,c [4];\nint f(int x,\n\n int y);\n= \n ?;\n"

theorem shown_texts_are_clean_scattered : ∃ f, findingsOf .source scatteredText = .ok f ∧
    f.externs = ["unsigned long a", "unsigned long * b", "unsigned long c [4]", "int f(int x, int y)"] ∧
    (∀ shown ∈ f.externs, SpacedOnce shown) ∧ SpacedOnce "= ?;" ∧
    ∃ output, FileOutput.of "a.cpp" scatteredText .source {} = .ok output ∧
      announcedIn output.text = f.externs := by
  obtain ⟨hsource, hremarks⟩ := shown_texts_are_clean scatteredText
  obtain ⟨f, hf, hfound⟩ := exists_of_any_toOption (p := fun f => f.externs == ["unsigned long a",
      "unsigned long * b", "unsigned long c [4]", "int f(int x, int y)"] && f.remarks == [.unparsed "= ?;"])
    (show (findingsOf .source scatteredText).toOption.any _ = true by decide +kernel)
  rw [Bool.and_eq_true, beq_iff_eq, beq_iff_eq] at hfound
  obtain ⟨hexterns, hremark⟩ := hfound
  obtain ⟨hclean, houtput⟩ := hsource f hf
  obtain ⟨output, hof, -, hannounced⟩ := houtput "a.cpp" {}
  refine ⟨f, hf, hexterns, fun shown hshown => (hclean shown hshown).2.1, ?_, output, hof, hannounced⟩
  exact (hremarks .source f hf (.unparsed "= ?;") (by simp [hremark]) "= ?;" rfl).2

end ReflectionTables.Generation
