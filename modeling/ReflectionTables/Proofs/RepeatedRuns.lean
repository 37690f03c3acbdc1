import ReflectionTables.Proofs.FinishedRuns
/-!
# A run and the next one

Where no two outputs of a run have the same place, a run leaves each text in its file, and the next
run reads the same files, finds every text in its place and changes nothing. The number of written
files is that of the places that did not hold their text, as long as no path climbs with dots out of
a directory that the run has to make first.
-/

namespace ReflectionTables.Trees

open Text Reflected Generation

variable {tree after : FileTree} {settings : Settings} {files : List ChosenFile} {file : ChosenFile}
  {outputs : List FileOutput} {summary : Summary} {path : SlashPath} {key key' : Key}
  {segment text : String} {segments : List String} {content : List UInt8} {written : Key → Prop}

/-- Without climbing, segments lead on from a key. -/
theorem prefix_place (h : ".." ∉ segments) : key <+: place key segments := by
  induction segments generalizing key with
  | nil => exact List.prefix_refl key
  | cons segment segments ih =>
    obtain ⟨hsegment, hrest⟩ := not_or.mp (mt List.mem_cons.mpr h)
    rw [place_cons]
    have hstep : key <+: place key [segment] := by
      by_cases hskip : segment = "" ∨ segment = "."
      · exact ⟨[], (List.append_nil key).trans (place_skip hskip).symm⟩
      · obtain ⟨hempty, hdot⟩ := not_or.mp hskip
        rw [place_name hempty hdot (Ne.symm hsegment)]
        exact List.prefix_append key [segment]
    exact hstep.trans (ih hrest)

def FileTree.Climbs (tree : FileTree) (key : Key) (segments : List String) : Prop :=
  ∀ before behind, segments = before ++ ".." :: behind →
    ∃ directory, tree.follow key before = .ok directory ∧ tree.get? directory = some .directory

/-- Whether a path climbs out of existing directories only. -/
def FileTree.ClimbsOn (tree : FileTree) (path : SlashPath) : Prop :=
  tree.Climbs (tree.start path).1 (tree.start path).2

theorem climbs_of_not_mem (h : ".." ∉ segments) : tree.Climbs key segments := by
  rintro before behind rfl
  exact absurd (List.mem_append_right before List.mem_cons_self) h

theorem FileTree.Climbs.tail (h : tree.Climbs key (segment :: segments)) :
    tree.Climbs (place key [segment]) segments := by
  rintro before behind rfl
  obtain ⟨directory, hfollow, hdirectory⟩ := h (segment :: before) behind rfl
  exact ⟨directory, (follow_cons_iff.mp hfollow).2.2, hdirectory⟩

/-- Directories on the way to a file are there before edits if the way can be followed after them. -/
theorem FileTree.Edits.follow_of_climbs (h : tree.Edits written after) (hsound : tree.Sound)
    (hclimbs : tree.Climbs key segments) (hfollow : after.follow key segments = .ok key')
    (hfile : tree.get? key' = some (.file content)) : tree.follow key segments = .ok key' := by
  induction segments generalizing key with
  | nil => exact hfollow
  | cons segment segments ih =>
    obtain ⟨hdirectory, -, hrest⟩ := follow_cons_iff.mp hfollow
    rw [follow_cons_iff]
    suffices hstep : tree.get? key = some .directory ∧
        (segment ≠ "" → segment ≠ "." → segment ≠ ".." → (tree.get? (key ++ [segment])).isSome) from
      ⟨hstep.1, hstep.2, ih hclimbs.tail hrest⟩
    by_cases hclimb : ".." ∈ segment :: segments
    · -- what is climbed out of is there, and so is what leads to it
      obtain ⟨before, behind, hsplit⟩ := List.append_of_mem hclimb
      obtain ⟨directory, hbefore, hthere⟩ := hclimbs before behind hsplit
      cases before with
      | nil =>
        cases hbefore
        obtain rfl : segment = ".." := (List.cons.inj hsplit).1
        exact ⟨hthere, fun _ _ hdots => absurd rfl hdots⟩
      | cons first before =>
        obtain rfl : segment = first := (List.cons.inj hsplit).1
        obtain ⟨hthere, hentry, -⟩ := follow_cons_iff.mp hbefore
        exact ⟨hthere, hentry⟩
    · -- the way to the file only leads on
      have hbelow : key <+: key' := by
        rw [← place_of_follow hfollow]
        exact prefix_place hclimb
      have hne : key ≠ key' := by
        rintro rfl
        exact h.ne_directory hfile hdirectory
      refine ⟨hsound.directory_of_prefix hfile hbelow hne, fun hempty hdot hdots => ?_⟩
      have hnext : key ++ [segment] <+: key' := by
        rw [← place_of_follow hrest, place_name hempty hdot hdots]
        exact prefix_place fun hmem => hclimb (List.mem_cons_of_mem segment hmem)
      by_cases hlast : key ++ [segment] = key'
      · rw [hlast, hfile]
        rfl
      · rw [hsound.directory_of_prefix hfile hnext hlast]
        rfl

/-- A text that is in its place can be read there, if it can be read after the run. -/
theorem FileTree.Edits.readText_of_holds (h : tree.Edits written after) (hsound : tree.Sound)
    (hclimbs : tree.ClimbsOn path) (hafter : after.readText path = .ok text) (hholds : tree.Holds path text) :
    tree.readText path = .ok text := by
  obtain ⟨key, hresolve, -⟩ := readBytes_eq_ok_iff.mp (readText_eq_ok_iff.mp hafter)
  have hempty := isEmpty_of_resolve hresolve
  have hplace : tree.placeOf path = key := by rw [← h.within.placeOf, placeOf_of_resolve hresolve]
  rw [FileTree.Holds, hplace] at hholds
  rw [resolve_eq_follow hempty, h.within.start] at hresolve
  refine readText_eq_ok_iff.mpr (readBytes_eq_ok_iff.mpr ⟨key, ?_, hholds⟩)
  rw [resolve_eq_follow hempty]
  exact h.follow_of_climbs hsound hclimbs hresolve hholds

/-- The path by which a chosen file is read leads to where it stands. -/
theorem placeOf_join_relativePath (h : file.Named) :
    tree.placeOf (settings.root.join (relativePath file.names)) = settings.sourceOf tree file := by
  rw [Settings.sourceOf, relativePath]
  split
  · rename_i hnil
    rw [placeOf_join rfl (by simp), hnil, place_skip (.inl rfl), List.append_nil]
  · rename_i hnames
    rw [placeOf_join (isAbsolute_names h) hnames, place_names h]

theorem exists_of_outputOf {output : FileOutput} (h : outputOf tree settings file = .ok output) :
    ∃ source, tree.readText (settings.root.join (relativePath file.names)) = .ok source := by
  cases hread : tree.readText (settings.root.join (relativePath file.names)) with
  | ok source => exact ⟨source, rfl⟩
  | error fault =>
    rw [outputOf, hread] at h
    cases h

theorem outputOf_congr (h : after.readText (settings.root.join (relativePath file.names)) =
    tree.readText (settings.root.join (relativePath file.names))) :
    outputOf after settings file = outputOf tree settings file := by
  rw [outputOf, outputOf, h]

/-- If the file of the aggregate is not chosen after a run, then nothing is ever chosen there. -/
theorem chosenAt?_aggregate (hfiles : chosenFiles tree settings = .ok files)
    (hwithin : tree.Within after) (hholds : after.Holds settings.aggregate text)
    (hafter : ∀ files, chosenFiles after settings = .ok files → ∀ file ∈ files,
      settings.sourceOf after file ≠ after.placeOf settings.aggregate) (node : Node) :
    settings.chosenAt? (tree.placeOf settings.root) (tree.placeOf settings.aggregate, node) = none := by
  obtain ⟨root, hroot, -⟩ := chosenFiles_eq_ok_iff.mp hfiles
  have hroot' := hwithin.resolve hroot
  rw [FileTree.Holds, hwithin.placeOf] at hholds
  rw [placeOf_of_resolve hroot]
  cases hchosen : settings.chosenAt? root (tree.placeOf settings.aggregate, node) with
  | none => rfl
  | some file =>
    cases node with
    | directory =>
      rw [Settings.chosenAt?] at hchosen
      split at hchosen <;> cases hchosen
    | file bytes =>
      have hsame : settings.chosenAt? root (tree.placeOf settings.aggregate, .file (bytesOf text)) =
          some file := hchosen
      obtain hnil | hmem := mem_of_get? hholds
      · rw [hnil] at hholds
        cases hholds
      · refine absurd ?_ (hafter _ (chosenFiles_eq_ok_iff.mpr ⟨root, hroot', rfl⟩) file
          (List.mem_filterMap.mpr ⟨_, hmem, hsame⟩))
        rw [Settings.sourceOf, placeOf_of_resolve hroot', hwithin.placeOf]
        exact (chosenAt?_eq_some hchosen).1.symm

theorem readText_of_nodup (hfiles : chosenFiles tree settings = .ok files)
    (hrun : (run settings).run tree = (.ok summary, after))
    (hdistinct : (files.map fun file => tree.placeOf (settings.artifactOf file)).Nodup)
    (haggregate : ∀ file ∈ files,
      tree.placeOf (settings.artifactOf file) ≠ tree.placeOf settings.aggregate)
    (houtputs : files.mapM (outputOf tree settings) = .ok outputs) :
    ∀ pair ∈ files.zip outputs, after.readText (settings.artifactOf pair.1) = .ok pair.2.text := by
  rintro ⟨file, output⟩ hpair
  obtain ⟨before, later, hpairs⟩ := List.append_of_mem hpair
  apply readText_of_run hrun hfiles houtputs hpairs _ (haggregate file (List.of_mem_zip hpair).1)
  intro other hother hplace
  rw [← map_fst_zip_of_mapM houtputs, hpairs, List.map_append, List.map_append, List.nodup_append] at hdistinct
  exact (List.nodup_cons.mp hdistinct.2.1).1 (List.mem_map.mpr ⟨other, hother, hplace⟩)

theorem chosenFiles_of_run (hfiles : chosenFiles tree settings = .ok files)
    (hedits : tree.Edits (settings.Writes tree files) after) (hholds : after.Holds settings.aggregate text)
    (hafter : ∀ files, chosenFiles after settings = .ok files → ∀ file ∈ files,
      settings.sourceOf after file ≠ after.placeOf settings.aggregate) :
    chosenFiles after settings = .ok files := by
  apply hedits.chosenFiles_eq _ hfiles
  rintro key (⟨other, -, rfl⟩ | rfl) node
  · exact chosenAt?_artifactPath settings _ _ node
  · exact chosenAt?_aggregate hfiles hedits.within hholds hafter node

/-- The next run reads the same texts. -/
theorem mapM_outputOf_of_run (hsound : tree.Sound) (hfiles : chosenFiles tree settings = .ok files)
    (hedits : tree.Edits (settings.Writes tree files) after)
    (hafter : ∀ file ∈ files, settings.sourceOf tree file ≠ tree.placeOf settings.aggregate)
    (houtputs : files.mapM (outputOf tree settings) = .ok outputs) :
    files.mapM (outputOf after settings) = .ok outputs := by
  rw [← houtputs]
  apply mapM_congr
  intro file hfile
  cases houtput : outputOf tree settings file with
  | error failure =>
    obtain ⟨failure', herror⟩ := exists_mapM_eq_error hfile houtput
    cases houtputs.symm.trans herror
  | ok output =>
    obtain ⟨source, hsource⟩ := exists_of_outputOf houtput
    rw [← houtput]
    apply outputOf_congr
    rw [hsource]
    apply hedits.readText _ hsource
    rw [placeOf_join_relativePath (hsound.named_of_chosenFiles hfiles hfile)]
    exact not_writes_sourceOf hfiles hafter hfile

/-- Where every text is in its place, a run writes nothing. -/
theorem run_of_readText (hfiles : chosenFiles tree settings = .ok files)
    (houtputs : files.mapM (outputOf tree settings) = .ok outputs)
    (htexts : ∀ pair ∈ files.zip outputs, tree.readText (settings.artifactOf pair.1) = .ok pair.2.text)
    (htotal : tree.readText settings.aggregate = .ok (settings.aggregateText (files.zip outputs))) :
    (run settings).run tree = (.ok ⟨files.length, 0, outputs.flatMap (·.remarks)⟩, tree) := by
  have hprepared : prepared tree settings = .ok (files, outputs) := by
    rw [prepared_of_chosen hfiles, houtputs]
    rfl
  rw [run_run, hprepared]
  dsimp only
  rw [run_writePrepared, run_writeArtifacts_of_readText htexts]
  dsimp only
  rw [text_addAll_included, run_writeIfChanged_of_readText htotal]
  rfl

/-- A run that succeeds and whose outputs do not clash leaves every text in its place, and refers to each
artifact by the path from the output directory to it. It counts the places that did not hold their texts.
The next run gives the same summary, except that it has written nothing, and leaves the tree as it is. -/
theorem run_twice (hsound : tree.Sound) (hfiles : chosenFiles tree settings = .ok files)
    (hrun : (run settings).run tree = (.ok summary, after))
    (hdistinct : (files.map fun file => tree.placeOf (settings.artifactOf file)).Nodup)
    (haggregate : ∀ file ∈ files,
      tree.placeOf (settings.artifactOf file) ≠ tree.placeOf settings.aggregate)
    (hafter : ∀ files, chosenFiles after settings = .ok files → ∀ file ∈ files,
      settings.sourceOf after file ≠ after.placeOf settings.aggregate) :
    ∃ outputs, files.mapM (outputOf tree settings) = .ok outputs ∧
      (∀ pair ∈ files.zip outputs, after.readText (settings.artifactOf pair.1) = .ok pair.2.text) ∧
      after.readText settings.aggregate = .ok (settings.aggregateText (files.zip outputs)) ∧
      (∀ file ∈ files, settings.outDir.join (.ofText (settings.includePath (settings.artifactOf file))) =
        settings.artifactOf file) ∧
      ((∀ file ∈ files, tree.ClimbsOn (settings.artifactOf file)) → tree.ClimbsOn settings.aggregate →
        summary.written =
          ((files.zip outputs).countP fun pair => !tree.Holds (settings.artifactOf pair.1) pair.2.text) +
            if tree.Holds settings.aggregate (settings.aggregateText (files.zip outputs)) then 0 else 1) ∧
      (run settings).run after = (.ok { summary with written := 0 }, after) := by
  obtain ⟨outputs, count, middle, changed, houtputs, hartifacts, hwritten, rfl⟩ := exists_of_run hrun hfiles
  have hedits : tree.Edits (settings.Writes tree files) after := by
    have hedits := edits_run hfiles
    rwa [hrun] at hedits
  have hmiddle := FileTree.Edits.of_writeArtifacts hartifacts
  rw [map_fst_zip_of_mapM houtputs] at hmiddle
  have htexts := readText_of_nodup hfiles hrun hdistinct haggregate houtputs
  have htotal := (readText_of_writeIfChanged hwritten).1
  have hfiles' := chosenFiles_of_run hfiles hedits (holds_of_readText htotal) hafter
  refine ⟨outputs, houtputs, htexts, htotal, fun file hfile => ?_, fun hclimbs hclimbs' => ?_, ?_⟩
  · exact join_includePath (hsound.named_of_chosenFiles hfiles hfile)
  · have hcount := count_of_writeArtifacts hartifacts
      (by
        rw [← map_fst_zip_of_mapM houtputs, List.map_map] at hdistinct
        exact hdistinct)
      fun pair hpair => hedits.readText_of_holds hsound (hclimbs _ (List.of_mem_zip hpair).1) (htexts pair hpair)
    have hunwritten : ¬settings.PutsAt tree files (tree.placeOf settings.aggregate) := by
      rintro ⟨file, hfile, hplace⟩
      exact haggregate file hfile hplace.symm
    have hsame : middle.Holds settings.aggregate (settings.aggregateText (files.zip outputs)) ↔
        tree.Holds settings.aggregate (settings.aggregateText (files.zip outputs)) :=
      hmiddle.holds_iff hunwritten
    have hchanged := changed_of_writeIfChanged hwritten fun hholds =>
      hmiddle.readText hunwritten (hedits.readText_of_holds hsound hclimbs' htotal (hsame.mp hholds))
    rw [hcount, hchanged, Nat.zero_add]
    simp only [hsame]
  · have hunchosen : ∀ file ∈ files, settings.sourceOf tree file ≠ tree.placeOf settings.aggregate := by
      intro file hfile
      have hne := hafter files hfiles' file hfile
      rwa [Settings.sourceOf, hedits.within.placeOf, hedits.within.placeOf] at hne
    exact run_of_readText hfiles' (mapM_outputOf_of_run hsound hfiles hedits hunchosen houtputs) htexts htotal

/-- A tree with a header and an implementation file whose artifact is there already. -/
def halfTree : FileTree where
  nodes := [
    (["generated"], .directory),
    (["generated", "y.symbols.h"], .file (bytesOf "#pragma once\n")),
    (["src"], .directory),
    (["src", "x.h"], .file []),
    (["src", "y.c"], .file [])]
  cwd := []

/-- One artifact and the aggregate are missing there, and the next run finds them. -/
theorem run_twice_half :
    ∃ summary after outputs, (run { root := .ofText "src" }).run halfTree = (.ok summary, after) ∧
      summary.written =
        (([⟨["x.h"], .header⟩, ⟨["y.c"], .source⟩] : List ChosenFile).zip outputs).countP (fun pair =>
          !halfTree.Holds (Settings.artifactOf { root := .ofText "src" } pair.1) pair.2.text) +
        (if halfTree.Holds (.ofText "generated/reflection_decls.h") (Settings.aggregateText
          { root := .ofText "src" } ([⟨["x.h"], .header⟩, ⟨["y.c"], .source⟩].zip outputs)) then 0 else 1) ∧
      (run { root := .ofText "src" }).run after = (.ok { summary with written := 0 }, after) := by
  have hfiles : chosenFiles halfTree { root := .ofText "src" } =
      .ok [⟨["x.h"], .header⟩, ⟨["y.c"], .source⟩] := by decide +kernel
  have hnext : chosenFiles ((run { root := .ofText "src" }).run halfTree).2 { root := .ofText "src" } =
      .ok [⟨["x.h"], .header⟩, ⟨["y.c"], .source⟩] := by decide +kernel
  have hwithin := (edits_run hfiles).within
  obtain ⟨summary, after, hrun⟩ : ∃ summary after,
      (run { root := .ofText "src" }).run halfTree = (.ok summary, after) := exists_run_eq (by decide +kernel)
  rw [hrun] at hnext hwithin
  have hafter : ∀ files, chosenFiles after { root := .ofText "src" } = .ok files → ∀ file ∈ files,
      Settings.sourceOf { root := .ofText "src" } after file ≠
        after.placeOf (.ofText "generated/reflection_decls.h") := by
    intro files hfiles'
    cases hnext.symm.trans hfiles'
    rw [hwithin.placeOf]
    simp only [Settings.sourceOf, hwithin.placeOf]
    decide +kernel
  obtain ⟨outputs, -, -, -, -, hcount, hagain⟩ := run_twice (by decide +kernel) hfiles hrun
    (by decide +kernel) (by decide +kernel) hafter
  have hclimbs : ∀ file ∈ ([⟨["x.h"], .header⟩, ⟨["y.c"], .source⟩] : List ChosenFile),
      ".." ∉ (halfTree.start (Settings.artifactOf { root := .ofText "src" } file)).2 := by decide +kernel
  exact ⟨summary, after, outputs, hrun,
    hcount (fun file hfile => climbs_of_not_mem (hclimbs file hfile)) (climbs_of_not_mem (by decide +kernel)),
    hagain⟩

end ReflectionTables.Trees
