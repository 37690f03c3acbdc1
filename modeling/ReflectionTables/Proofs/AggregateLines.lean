import ReflectionTables.Proofs.AggregateTexts
import ReflectionTables.Proofs.OneLineNames
import ReflectionTables.Proofs.RoleFindings
/-!
# The lines of an aggregate

It has one line for each declaration of a header and for each implementation file, and each of them
includes something. A line is broken only by arguments that are written behind the name of a record,
and a line break in such arguments does break one.
-/

namespace ReflectionTables.Generation

open Text Reflected Parsing

variable {lines : List String} {line text path : String} {declaration : Declaration}

/-- The lines of a text. What stands behind the last line break counts as a line. -/
def linesOf (text : String) : List String := (text.toList.splitOn '\n').map String.ofList

theorem not_mem_of_mem_splitOn {cs piece : List Char} (h : piece ∈ cs.splitOn '\n') : '\n' ∉ piece := by
  induction cs generalizing piece with
  | nil =>
    rw [List.splitOn_nil, List.mem_singleton] at h
    simp [h]
  | cons c cs ih =>
    rw [List.splitOn_cons_eq_if_modifyHead] at h
    split at h
    · obtain rfl | h := List.mem_cons.mp h
      · simp
      · exact ih h
    · rename_i hc
      cases hrest : cs.splitOn '\n' with
      | nil =>
        rw [hrest] at h
        cases h
      | cons first rest =>
        rw [hrest, List.modifyHead_cons] at h
        obtain rfl | h := List.mem_cons.mp h
        · have hfirst := ih (hrest ▸ List.mem_cons_self)
          rw [List.mem_cons, not_or]
          exact ⟨fun heq => hc (beq_iff_eq.mpr heq.symm), hfirst⟩
        · exact ih (hrest ▸ List.mem_cons_of_mem _ h)

theorem oneLine_of_mem_linesOf (h : line ∈ linesOf text) : OneLine line := by
  obtain ⟨piece, hpiece, rfl⟩ := List.mem_map.mp h
  rw [OneLine, String.toList_ofList]
  exact not_mem_of_mem_splitOn hpiece

theorem linesOf_cons (h : OneLine line) (rest : String) :
    linesOf (line ++ "\n" ++ rest) = line :: linesOf rest := by
  have htext : (line ++ "\n" ++ rest).toList = line.toList ++ '\n' :: rest.toList := by simp
  rw [linesOf, htext, List.splitOn_append_cons_self_of_not_mem h, List.map_cons, String.ofList_toList]
  rfl

@[simp] theorem unlines_cons (line : String) (lines : List String) :
    unlines (line :: lines) = line ++ "\n" ++ unlines lines := by
  rw [unlines, List.map_cons, String.join_cons]
  rfl

/-- Lines without breaks can be read back from their text. -/
theorem linesOf_unlines (h : ∀ line ∈ lines, OneLine line) : linesOf (unlines lines) = lines ++ [""] := by
  induction lines with
  | nil => rfl
  | cons line lines ih =>
    obtain ⟨hline, hlines⟩ := List.forall_mem_cons.mp h
    rw [unlines_cons, linesOf_cons hline, ih hlines, List.cons_append]

theorem oneLine_includeLine (h : OneLine path) : OneLine (includeLine path) :=
  ((show OneLine "#include \"" by decide).append h).append (by decide)

theorem oneLine_declarationLine_iff (h : OneLine path) :
    OneLine (declarationLine path declaration) ↔ OneLine declaration.name := by
  have htag : OneLine declaration.tag.text := by
    cases declaration.tag with
    | record key => cases key <;> decide
    | enumeration => decide
  constructor
  · intro hline
    exact (oneLine_append.mp hline).2
  · intro hname
    exact ((((oneLine_includeLine h).append (by decide)).append htag).append (by decide)).append hname

@[simp] theorem startsWith_includeLine (path : String) : (includeLine path).startsWith "#include \"" = true := by
  rw [String.startsWith_string_iff, includeLine, String.toList_append, String.toList_append, List.append_assoc]
  exact List.prefix_append _ _

@[simp] theorem startsWith_declarationLine (path : String) (declaration : Declaration) :
    (declarationLine path declaration).startsWith "#include \"" = true := by
  have hinclude := startsWith_includeLine path
  rw [String.startsWith_string_iff] at hinclude ⊢
  have hline : declarationLine path declaration =
      includeLine path ++ (" // " ++ (declaration.tag.text ++ (" " ++ declaration.name))) := by
    rw [← String.append_assoc, ← String.append_assoc, ← String.append_assoc]
    rfl
  rw [hline, String.toList_append]
  exact hinclude.trans (List.prefix_append _ _)

/-- A file that was read, what it gave, and the text by which its artifact is included. -/
structure ReadFile where
  source : String
  style : HeaderStyle
  output : FileOutput
  artifact : String
  output_eq : FileOutput.of output.path source output.role style = .ok output

/-- What a file adds to an aggregate. -/
def ReadFile.added (file : ReadFile) : FileOutput × String := (file.output, file.artifact)

theorem ReadFile.exists_findings (file : ReadFile) : ∃ f, findingsOf file.output.role file.source = .ok f ∧
    f.declarations = file.output.declarations := by
  have houtput := file.output_eq
  rw [FileOutput.of] at houtput
  cases hfound : findingsOf file.output.role file.source with
  | error failure =>
    rw [hfound] at houtput
    cases houtput
  | ok f =>
    rw [hfound] at houtput
    refine ⟨f, rfl, ?_⟩
    exact congrArg FileOutput.declarations (Except.ok.inj houtput)

/-- The names of a file are on one line just if the arguments are that are written behind the names of its
records. -/
theorem ReadFile.oneLine_iff (file : ReadFile) :
    (∀ declaration ∈ file.output.declarations, OneLine declaration.name) ↔
      ∀ list, WritesArguments file.output.role file.source list → OneLine list := by
  obtain ⟨f, hfound, hdeclarations⟩ := file.exists_findings
  rw [← hdeclarations]
  exact oneLine_declarations_iff hfound

theorem ReadFile.declarations_of_source {file : ReadFile} (h : file.output.role = .source) :
    file.output.declarations = [] := by
  obtain ⟨f, hfound, hdeclarations⟩ := file.exists_findings
  rw [← hdeclarations]
  exact ((suit_findingsOf hfound).source h).2.1

variable {files : List ReadFile}

theorem mem_typeLinesOf_added : line ∈ typeLinesOf (files.map ReadFile.added) ↔
    ∃ file ∈ files, file.output.role = .header ∧
      ∃ declaration ∈ file.output.declarations, declarationLine file.output.path declaration = line := by
  simp [mem_typeLinesOf, ReadFile.added]

theorem mem_symbolLinesOf_added : line ∈ symbolLinesOf (files.map ReadFile.added) ↔
    ∃ file ∈ files, file.output.role = .source ∧ includeLine file.artifact = line := by
  simp [mem_symbolLinesOf, ReadFile.added]

theorem length_typeLinesOf_added (files : List ReadFile) : (typeLinesOf (files.map ReadFile.added)).length =
    ((files.filter (·.output.role = .header)).flatMap (·.output.declarations)).length := by
  rw [typeLinesOf, List.filter_map, List.flatMap_map, List.length_flatMap, List.length_flatMap]
  simp only [ReadFile.added, List.length_map]
  rfl

theorem length_symbolLinesOf_added (files : List ReadFile) :
    (symbolLinesOf (files.map ReadFile.added)).length = files.countP (·.output.role = .source) := by
  rw [symbolLinesOf, List.length_map, List.filter_map, List.length_map, List.countP_eq_length_filter]
  rfl

/-- The lines of the headers have no breaks just if the names that they declare have none. -/
theorem oneLine_typeLinesOf_iff (hpaths : ∀ file ∈ files, OneLine file.output.path ∧ OneLine file.artifact) :
    (∀ line ∈ typeLinesOf (files.map ReadFile.added), OneLine line) ↔
      ∀ file ∈ files, ∀ declaration ∈ file.output.declarations, OneLine declaration.name := by
  constructor
  · intro hlines file hfile declaration hdeclaration
    cases hrole : file.output.role with
    | header =>
      exact (oneLine_declarationLine_iff (hpaths file hfile).1).mp
        (hlines _ (mem_typeLinesOf_added.mpr ⟨file, hfile, hrole, declaration, hdeclaration, rfl⟩))
    | source =>
      rw [ReadFile.declarations_of_source hrole] at hdeclaration
      cases hdeclaration
  · intro hnames line hline
    obtain ⟨file, hfile, -, declaration, hdeclaration, rfl⟩ := mem_typeLinesOf_added.mp hline
    exact (oneLine_declarationLine_iff (hpaths file hfile).1).mpr (hnames file hfile declaration hdeclaration)

/-- The text of the aggregate has exactly its lines just if the lines of the headers have no breaks. -/
theorem linesOf_addAll_iff (hpaths : ∀ file ∈ files, OneLine file.output.path ∧ OneLine file.artifact) :
    linesOf (Aggregate.addAll {} (files.map ReadFile.added)).text =
        "#pragma once" :: (typeLinesOf (files.map ReadFile.added) ++ symbolLinesOf (files.map ReadFile.added)) ++
          [""] ↔
      ∀ line ∈ typeLinesOf (files.map ReadFile.added), OneLine line := by
  constructor
  · intro hlines line hline
    have hmem : line ∈ linesOf (Aggregate.addAll {} (files.map ReadFile.added)).text := by
      rw [hlines]
      simp [hline]
    exact oneLine_of_mem_linesOf hmem
  · intro htypes
    rw [text_addAll]
    apply linesOf_unlines
    rw [List.forall_mem_cons, List.forall_mem_append]
    refine ⟨by decide, htypes, fun line hline => ?_⟩
    obtain ⟨file, hfile, -, rfl⟩ := mem_symbolLinesOf_added.mp hline
    exact oneLine_includeLine (hpaths file hfile).2

/-- The aggregate of files with paths and include texts on one line: after the first line it has one for each
declaration of a header and one for each implementation file, all of them includes. There are no others just
if all arguments that are written behind the names of records are on one line. -/
theorem aggregate_lines (files : List ReadFile)
    (hpaths : ∀ file ∈ files, OneLine file.output.path ∧ OneLine file.artifact) :
    (linesOf (Aggregate.addAll {} (files.map ReadFile.added)).text =
        "#pragma once" :: (typeLinesOf (files.map ReadFile.added) ++ symbolLinesOf (files.map ReadFile.added)) ++
          [""] ↔
      ∀ file ∈ files, ∀ list, WritesArguments file.output.role file.source list → OneLine list) ∧
    (typeLinesOf (files.map ReadFile.added)).length =
      ((files.filter (·.output.role = .header)).flatMap (·.output.declarations)).length ∧
    (symbolLinesOf (files.map ReadFile.added)).length = files.countP (·.output.role = .source) ∧
    ∀ line ∈ typeLinesOf (files.map ReadFile.added) ++ symbolLinesOf (files.map ReadFile.added),
      line.startsWith "#include \"" = true := by
  refine ⟨?_, ?_, ?_, fun line hline => ?_⟩
  · rw [linesOf_addAll_iff hpaths, oneLine_typeLinesOf_iff hpaths]
    exact forall₂_congr fun file _ => file.oneLine_iff
  · exact length_typeLinesOf_added files
  · exact length_symbolLinesOf_added files
  · obtain hline | hline := List.mem_append.mp hline
    · obtain ⟨file, -, -, declaration, -, rfl⟩ := mem_typeLinesOf_added.mp hline
      exact startsWith_declarationLine _ _
    · obtain ⟨file, -, -, rfl⟩ := mem_symbolLinesOf_added.mp hline
      exact startsWith_includeLine _

/-- A header with a record whose arguments are written on two lines. -/
def brokenFile : ReadFile where
  source := "template <> struct Table<int,\n  float> \x7b\x7d;"
  style := {}
  output := {
    path := "a.h", role := .header, text := headerText "a.h" [] {}
    declarations := [⟨.record .structKey, "Table<int,\n  float>"⟩], remarks := [] }
  artifact := ""
  output_eq := by
    have hfound : findingsOf .header "template <> struct Table<int,\n  float> \x7b\x7d;" =
        .ok { declarations := [⟨.record .structKey, "Table<int,\n  float>"⟩] } := by decide +kernel
    rw [FileOutput.of, hfound]
    rfl

/-- The line of the record is broken, and so are its arguments. -/
theorem aggregate_lines_broken :
    ∃ list, WritesArguments .header "template <> struct Table<int,\n  float> \x7b\x7d;" list ∧ ¬OneLine list := by
  have hpaths : ∀ file ∈ [brokenFile], OneLine file.output.path ∧ OneLine file.artifact := by decide +kernel
  by_contra hnone
  have hlines := (aggregate_lines [brokenFile] hpaths).1.mpr fun file hfile list hlist => by
    obtain rfl := List.mem_singleton.mp hfile
    exact not_not.mp fun hbreak => hnone ⟨list, hlist, hbreak⟩
  revert hlines
  decide +kernel

end ReflectionTables.Generation
