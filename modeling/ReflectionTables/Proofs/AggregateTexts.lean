import ReflectionTables.FileArtifacts
/-!
# The aggregate of several files

It has the lines of all headers, in the order of the files, and then one line for each
implementation file. Headers and implementation files do not see each other there, so any order in
which the two kinds alternate gives the same text.
-/

namespace ReflectionTables.Generation

open Reflected

variable {aggregate : Aggregate} {output : FileOutput} {artifact line : String}
  {outputs outputs' first second : List (FileOutput × String)}

/-- Adds several outputs, each with the text by which its artifact is included. -/
def Aggregate.addAll (aggregate : Aggregate) (outputs : List (FileOutput × String)) : Aggregate :=
  outputs.foldl (fun sum (output, artifact) => sum.add output artifact) aggregate

/-- The lines for the types of the headers among some files. -/
def typeLinesOf (outputs : List (FileOutput × String)) : List String :=
  (outputs.filter (·.1.role = .header)).flatMap fun (output, _) =>
    output.declarations.map (declarationLine output.path)

/-- The lines for the implementation files among some files. -/
def symbolLinesOf (outputs : List (FileOutput × String)) : List String :=
  (outputs.filter (·.1.role = .source)).map fun (_, artifact) => includeLine artifact

theorem mem_typeLinesOf : line ∈ typeLinesOf outputs ↔ ∃ pair ∈ outputs, pair.1.role = .header ∧
    ∃ declaration ∈ pair.1.declarations, declarationLine pair.1.path declaration = line := by
  simp [typeLinesOf, and_assoc]

theorem mem_symbolLinesOf : line ∈ symbolLinesOf outputs ↔
    ∃ pair ∈ outputs, pair.1.role = .source ∧ includeLine pair.2 = line := by
  simp [symbolLinesOf, and_assoc]

/-- The headers among some files. Their include texts are not used. -/
def headersOf (outputs : List (FileOutput × String)) : List FileOutput :=
  (outputs.map Prod.fst).filter (·.role = .header)

/-- The implementation files among some files, with their include texts. -/
def sourcesOf (outputs : List (FileOutput × String)) : List (FileOutput × String) :=
  outputs.filter (·.1.role = .source)

theorem typeLinesOf_eq : typeLinesOf outputs =
    (headersOf outputs).flatMap fun output => output.declarations.map (declarationLine output.path) := by
  rw [typeLinesOf, headersOf, List.filter_map, List.flatMap_map]
  rfl

theorem symbolLinesOf_eq : symbolLinesOf outputs = (sourcesOf outputs).map (includeLine ·.2) := rfl

@[simp] theorem typeLinesOf_append :
    typeLinesOf (first ++ second) = typeLinesOf first ++ typeLinesOf second := by
  simp [typeLinesOf]

@[simp] theorem symbolLinesOf_append :
    symbolLinesOf (first ++ second) = symbolLinesOf first ++ symbolLinesOf second := by
  simp [symbolLinesOf]

theorem typeLinesOf_eq_nil_iff :
    typeLinesOf outputs = [] ↔ ∀ output ∈ headersOf outputs, output.declarations = [] := by
  simp [typeLinesOf_eq]

theorem symbolLinesOf_eq_nil_iff : symbolLinesOf outputs = [] ↔ sourcesOf outputs = [] := by
  simp [symbolLinesOf_eq]

theorem addAll_cons : aggregate.addAll ((output, artifact) :: outputs) =
    (aggregate.add output artifact).addAll outputs := rfl

/-- Each part of the aggregate grows at its end. -/
theorem addAll_eq (aggregate : Aggregate) (outputs : List (FileOutput × String)) :
    aggregate.addAll outputs =
      ⟨aggregate.typeLines ++ typeLinesOf outputs, aggregate.symbolLines ++ symbolLinesOf outputs⟩ := by
  induction outputs generalizing aggregate with
  | nil => simp [Aggregate.addAll, typeLinesOf, symbolLinesOf]
  | cons pair outputs ih =>
    obtain ⟨output, artifact⟩ := pair
    rw [addAll_cons, ih, Aggregate.add]
    cases hrole : output.role with
    | header => simp [typeLinesOf, symbolLinesOf, hrole]
    | source => simp [typeLinesOf, symbolLinesOf, hrole]

theorem text_addAll (outputs : List (FileOutput × String)) :
    (Aggregate.addAll {} outputs).text =
      unlines ("#pragma once" :: (typeLinesOf outputs ++ symbolLinesOf outputs)) := by
  rw [Aggregate.text, addAll_eq]
  rfl

/-- What is added to an aggregate depends only on the headers, in their order, and on the implementation
files with their include texts, in theirs. -/
theorem addAll_congr (hheaders : headersOf outputs = headersOf outputs')
    (hsources : sourcesOf outputs = sourcesOf outputs') :
    aggregate.addAll outputs = aggregate.addAll outputs' := by
  have htypes : typeLinesOf outputs = typeLinesOf outputs' := by rw [typeLinesOf_eq, hheaders, ← typeLinesOf_eq]
  have hsymbols : symbolLinesOf outputs = symbolLinesOf outputs' := by
    rw [symbolLinesOf_eq, hsources, ← symbolLinesOf_eq]
  rw [addAll_eq, htypes, hsymbols, ← addAll_eq]

/-- An aggregate is empty as long as it is given no implementation file and no header with a declaration. -/
theorem isEmpty_addAll_iff (outputs : List (FileOutput × String)) :
    (Aggregate.addAll {} outputs).isEmpty = true ↔
      sourcesOf outputs = [] ∧ ∀ output ∈ headersOf outputs, output.declarations = [] := by
  rw [Aggregate.isEmpty, addAll_eq, Bool.and_eq_true, List.isEmpty_iff, List.isEmpty_iff, List.nil_append,
    List.nil_append, typeLinesOf_eq_nil_iff, symbolLinesOf_eq_nil_iff]
  exact and_comm

/-- Headers and implementation files commute in the aggregate. Its text is the same however the two kinds
alternate, and whatever include texts the headers carry. One list behind another gives the lines of the
headers of both and then those of the implementation files of both. -/
theorem aggregate_commutes :
    (∀ (aggregate : Aggregate) (outputs outputs' : List (FileOutput × String)),
      headersOf outputs = headersOf outputs' → sourcesOf outputs = sourcesOf outputs' →
        (aggregate.addAll outputs).text = (aggregate.addAll outputs').text) ∧
    (∀ first second : List (FileOutput × String), (Aggregate.addAll {} (first ++ second)).text =
      unlines ("#pragma once" :: (typeLinesOf first ++ typeLinesOf second ++
        symbolLinesOf first ++ symbolLinesOf second))) ∧
    (∀ outputs : List (FileOutput × String), (Aggregate.addAll {} outputs).isEmpty = true ↔
      sourcesOf outputs = [] ∧ ∀ output ∈ headersOf outputs, output.declarations = []) := by
  refine ⟨fun aggregate outputs outputs' hheaders hsources => ?_, fun first second => ?_, isEmpty_addAll_iff⟩
  · rw [addAll_congr hheaders hsources]
  · rw [text_addAll, typeLinesOf_append, symbolLinesOf_append]
    simp only [List.append_assoc]

/-- An implementation file before its header and behind it. -/
theorem aggregate_commutes_pair :
    let header : FileOutput := ⟨"b.h", .header, "", [⟨.record .structKey, "B"⟩], []⟩
    let source : FileOutput := ⟨"a.cpp", .source, "", [], []⟩
    (Aggregate.addAll {} [(source, "a.symbols.h"), (header, "b.generated.h")]).text =
      (Aggregate.addAll {} [(header, ""), (source, "a.symbols.h")]).text ∧
    (Aggregate.addAll {} [(header, ""), (source, "a.symbols.h")]).text =
      unlines ["#pragma once", "#include \"b.h\" // struct B", "#include \"a.symbols.h\""] :=
  ⟨aggregate_commutes.1 {} _ _ (by decide) (by decide), by decide⟩

end ReflectionTables.Generation
