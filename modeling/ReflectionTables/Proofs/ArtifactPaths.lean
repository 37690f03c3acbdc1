import ReflectionTables.Proofs.TreePlaces
import ReflectionTables.TreeRuns
/-!
# The paths of artifacts

An artifact lies in the output directory where its file lies below the root, and its name is made of
the stem of the file and a suffix for the role. By that suffix no artifact has a role itself. Files
with the same directory, stem and role share their artifact, and no others do.
-/

namespace ReflectionTables.Trees

open Reflected Generation

variable {name : String} {names before : List String} {p q : SlashPath} {settings : Settings}
  {role : FileRole} {file other : ChosenFile} {tree : FileTree}

namespace SlashPath

theorem innerComponent?_name (hempty : name ≠ "") (hdot : name ≠ ".") (hdots : name ≠ "..") :
    innerComponent? name = some (.name name) := by
  unfold innerComponent?
  split
  · exact absurd rfl hempty
  · exact absurd rfl hdot
  · exact absurd rfl hdots
  · rfl

theorem filterMap_innerComponent? (h : ∀ name ∈ names, IsEntryName name) :
    names.filterMap innerComponent? = names.map .name := by
  induction names with
  | nil => rfl
  | cons name names ih =>
    have hname := h name List.mem_cons_self
    rw [List.filterMap_cons, innerComponent?_name hname.ne_empty hname.ne_dot hname.ne_dots,
      ih fun name hmem => h name (List.mem_cons_of_mem _ hmem)]
    rfl

theorem fileName?_concat (hempty : name ≠ "") (hdot : name ≠ ".") (hdots : name ≠ "..") :
    (SlashPath.mk (before ++ [name])).fileName? = some name := by
  have hinner := innerComponent?_name hempty hdot hdots
  have hlast : (SlashPath.mk (before ++ [name])).components.getLast? = some (.name name) := by
    cases before with
    | nil => simp [components, headComponent?, isAbsolute, hdot, hinner]
    | cons first others =>
      simp [components, List.filterMap_append, hinner, ← List.append_assoc]
  rw [fileName?, hlast]

theorem trimEnd_names (h : ∀ name ∈ names, IsEntryName name) : trimEnd names = names := by
  rw [trimEnd]
  cases names using List.reverseRecOn with
  | nil => rfl
  | append_singleton names last =>
    have hlast := h last (by simp)
    rw [List.reverse_append, List.reverse_singleton, List.singleton_append, List.dropWhile_cons_of_neg,
      List.reverse_cons, List.reverse_reverse]
    simp [innerComponent?_name hlast.ne_empty hlast.ne_dot hlast.ne_dots]

theorem ofText_name (h : '/' ∉ name.toList) : ofText name = ⟨[name]⟩ := by
  rw [ofText, List.splitOn_eq_singleton h, List.map_singleton, String.ofList_toList]

theorem parent?_names (h : ∀ other ∈ names ++ [name], IsEntryName other) :
    (SlashPath.mk (names ++ [name])).parent? = some (relativePath names) := by
  cases names with
  | nil =>
    have hname := h name (by simp)
    simp [parent?, trimEnd, isAbsolute, hname.ne_empty, relativePath]
  | cons first others =>
    have hfirst := (h first (by simp)).ne_empty
    have hothers : ∀ other ∈ others ++ [name], IsEntryName other :=
      fun other hmem => h other (List.mem_cons_of_mem _ hmem)
    rw [parent?]
    simp only [List.cons_append]
    rw [trimEnd_names hothers]
    split
    · rename_i hnil
      simp at hnil
    · rw [List.dropLast_concat, trimEnd_names fun other hmem => hothers other (by simp [hmem])]
      simp [isAbsolute, hfirst, relativePath]

theorem join_name (h : ∀ name ∈ names, IsEntryName name) (hname : IsEntryName name) :
    (relativePath names).join (ofText name) = ⟨names ++ [name]⟩ := by
  have habsolute : (ofText name).isAbsolute = false := by
    rw [ofText_name hname.no_slash]
    exact isAbsolute_names (by simpa using hname)
  rw [join, if_neg (by simp [habsolute]), ofText_name hname.no_slash]
  cases names with
  | nil =>
    have hempty : (relativePath []).isEmpty = true := isEmpty_iff.mpr (.inr rfl)
    rw [if_pos hempty]
    rfl
  | cons first others =>
    have hfirst := (h first List.mem_cons_self).ne_empty
    rw [if_neg (by simp [isEmpty_iff, relativePath, hfirst]), if_neg]
    · rfl
    · intro hblank
      exact (h "" (List.mem_of_getLast? hblank)).ne_empty rfl

theorem withFileName_names (hnames : ∀ name ∈ names, IsEntryName name) (hname : IsEntryName name) :
    (relativePath names).withFileName name = ⟨names.dropLast ++ [name]⟩ := by
  cases names using List.reverseRecOn with
  | nil => exact join_name hnames hname
  | append_singleton names last =>
    have hlast := hnames last (by simp)
    have hfile : (SlashPath.mk (names ++ [last])).fileName? = some last :=
      fileName?_concat hlast.ne_empty hlast.ne_dot hlast.ne_dots
    rw [relativePath, if_neg (by simp), withFileName, hfile, parent?_names hnames, List.dropLast_concat]
    exact join_name (fun name hmem => hnames name (List.mem_append_left _ hmem)) hname

end SlashPath

theorem no_slash_artifactSuffix (role : FileRole) : '/' ∉ (artifactSuffix role).toList := by
  cases role <;> decide

theorem exists_splitOn_append {α : Type} [BEq α] [LawfulBEq α] (a : α) (xs : List α) {ys : List α}
    (h : a ∉ ys) : ∃ before rest, (xs ++ ys).splitOn a = before ++ [rest ++ ys] := by
  induction xs with
  | nil => exact ⟨[], [], List.splitOn_eq_singleton h⟩
  | cons x xs ih =>
    obtain ⟨before, rest, hrest⟩ := ih
    rw [List.cons_append, List.splitOn_cons_eq_if_modifyHead, hrest]
    split
    · exact ⟨[] :: before, rest, rfl⟩
    · cases before with
      | nil => exact ⟨[], x :: rest, rfl⟩
      | cons first before => exact ⟨(x :: first) :: before, rest, rfl⟩

/-- A name that ends in the suffix of an artifact is neither blank nor made of dots. -/
theorem ne_of_artifactSuffix (stem : String) (role : FileRole) :
    stem ++ artifactSuffix role ≠ "" ∧ stem ++ artifactSuffix role ≠ "." ∧
      stem ++ artifactSuffix role ≠ ".." := by
  have hlast : (stem ++ artifactSuffix role).toList.getLast? = some 'h' := by
    cases role <;> simp [artifactSuffix]
  refine ⟨?_, ?_, ?_⟩
  all_goals
    intro heq
    rw [heq] at hlast
    revert hlast
    decide

/-- The path of an artifact ends in a name with the suffix of the role. -/
theorem exists_segments_artifactPath (settings : Settings) (relative : SlashPath) (role : FileRole) :
    ∃ before stem, (settings.artifactPath relative role).segments = before ++ [stem ++ artifactSuffix role] := by
  rw [Settings.artifactPath]
  generalize relative.stem?.getD "" = stem
  obtain ⟨before, rest, hsplit⟩ := exists_splitOn_append '/' stem.toList (no_slash_artifactSuffix role)
  have hname : (SlashPath.ofText (stem ++ artifactSuffix role)).segments =
      before.map String.ofList ++ [String.ofList rest ++ artifactSuffix role] := by
    rw [SlashPath.ofText, String.toList_append, hsplit]
    simp
  obtain ⟨outer, houter⟩ := exists_segments_join (p := settings.outDir)
    (q := relative.withFileName (stem ++ artifactSuffix role))
  rw [houter, SlashPath.withFileName]
  obtain ⟨inner, hinner⟩ := exists_segments_join
    (p := if relative.fileName?.isSome then relative.parent?.getD relative else relative)
    (q := SlashPath.ofText (stem ++ artifactSuffix role))
  rw [hinner, hname]
  exact ⟨outer ++ (inner ++ before.map String.ofList), String.ofList rest, by simp⟩

theorem exists_fileName?_artifactPath (settings : Settings) (relative : SlashPath) (role : FileRole) :
    ∃ stem, (settings.artifactPath relative role).fileName? = some (stem ++ artifactSuffix role) := by
  obtain ⟨before, stem, hsegments⟩ := exists_segments_artifactPath settings relative role
  obtain ⟨hempty, hdot, hdots⟩ := ne_of_artifactSuffix stem role
  have hname : (SlashPath.mk (before ++ [stem ++ artifactSuffix role])).fileName? =
      some (stem ++ artifactSuffix role) := SlashPath.fileName?_concat hempty hdot hdots
  rw [← hsegments] at hname
  exact ⟨stem, hname⟩

def IsArtifactName (name : String) : Prop := ∃ stem role, name = stem ++ artifactSuffix role

@[simp] theorem endsWith_artifactSuffix (stem : String) (role : FileRole) :
    (stem ++ artifactSuffix role).endsWith (artifactSuffix role) = true := by
  rw [String.endsWith_eq_endsWith_toSlice, String.Slice.endsWith_string_iff, String.copy_toSlice,
    String.toList_append]
  exact List.suffix_append _ _

theorem roleOf?_of_isArtifactName (hname : p.fileName? = some name) (h : IsArtifactName name) :
    roleOf? p = none := by
  obtain ⟨stem, role, rfl⟩ := h
  have hends := endsWith_artifactSuffix stem role
  rw [roleOf?, hname]
  cases role with
  | header => simp [hends]
  | source => simp [hends]

@[simp] theorem roleOf?_artifactPath (settings : Settings) (relative : SlashPath) (role : FileRole) :
    roleOf? (settings.artifactPath relative role) = none := by
  obtain ⟨stem, hname⟩ := exists_fileName?_artifactPath settings relative role
  exact roleOf?_of_isArtifactName hname ⟨stem, role, rfl⟩

theorem exists_placeOf_concat {path : SlashPath} (tree : FileTree) (hpath : path.segments = before ++ [name])
    (hempty : name ≠ "") (hdot : name ≠ ".") (hdots : name ≠ "..") :
    ∃ key, tree.placeOf path = key ++ [name] := by
  obtain ⟨segments⟩ := path
  obtain rfl : segments = before ++ [name] := hpath
  cases before with
  | nil =>
    refine ⟨tree.cwd, ?_⟩
    rw [List.nil_append, placeOf_cons, if_neg (by simp), place_name hempty hdot hdots]
  | cons first others =>
    rw [List.cons_append, placeOf_cons]
    split
    · exact ⟨_, by rw [place_append, place_name hempty hdot hdots]⟩
    · exact ⟨_, by rw [← List.cons_append, place_append, place_name hempty hdot hdots]⟩

theorem exists_placeOf_artifactPath (tree : FileTree) (settings : Settings) (relative : SlashPath)
    (role : FileRole) : ∃ key name, tree.placeOf (settings.artifactPath relative role) = key ++ [name] ∧
      IsArtifactName name := by
  obtain ⟨before, stem, hsegments⟩ := exists_segments_artifactPath settings relative role
  obtain ⟨hempty, hdot, hdots⟩ := ne_of_artifactSuffix stem role
  obtain ⟨key, hkey⟩ := exists_placeOf_concat tree hsegments hempty hdot hdots
  exact ⟨key, _, hkey, stem, role, rfl⟩

/-- The file name without its extension; the root has none. -/
def ChosenFile.stem (file : ChosenFile) : String := (relativePath file.names).stem?.getD ""

def ChosenFile.artifactNames (file : ChosenFile) : Key :=
  file.names.dropLast ++ [file.stem ++ artifactSuffix file.role]

def Settings.artifactOf (settings : Settings) (file : ChosenFile) : SlashPath :=
  settings.artifactPath (relativePath file.names) file.role

def ChosenFile.Named (file : ChosenFile) : Prop := ∀ name ∈ file.names, IsEntryName name

theorem mem_of_mem_splitName {c : Char} (h : c ∈ (SlashPath.splitName name).1.toList) : c ∈ name.toList := by
  rw [SlashPath.splitName] at h
  split at h
  · exact h
  · rw [String.toList_ofList] at h
    exact List.mem_of_mem_take h

theorem ChosenFile.Named.no_slash_stem (h : file.Named) : '/' ∉ file.stem.toList := by
  intro hslash
  rw [ChosenFile.stem, relativePath] at hslash
  generalize hnames : file.names = names at hslash
  cases names using List.reverseRecOn with
  | nil => simp [SlashPath.stem?, SlashPath.fileName?, SlashPath.components, SlashPath.headComponent?,
      SlashPath.isAbsolute, SlashPath.innerComponent?] at hslash
  | append_singleton before last =>
    have hlast := h last (by simp [hnames])
    have hname : (SlashPath.mk (before ++ [last])).fileName? = some last :=
      SlashPath.fileName?_concat hlast.ne_empty hlast.ne_dot hlast.ne_dots
    rw [if_neg (by simp), SlashPath.stem?, hname] at hslash
    exact hlast.no_slash (mem_of_mem_splitName hslash)

theorem ChosenFile.Named.isEntryName (h : file.Named) :
    IsEntryName (file.stem ++ artifactSuffix file.role) := by
  obtain ⟨hempty, hdot, hdots⟩ := ne_of_artifactSuffix file.stem file.role
  refine ⟨hempty, hdot, hdots, ?_⟩
  rw [String.toList_append, List.mem_append, not_or]
  exact ⟨h.no_slash_stem, no_slash_artifactSuffix file.role⟩

theorem ChosenFile.Named.artifactNames (h : file.Named) : ∀ name ∈ file.artifactNames, IsEntryName name := by
  intro name hname
  obtain hname | hname := List.mem_append.mp hname
  · exact h name (List.dropLast_subset _ hname)
  · rw [List.mem_singleton.mp hname]
    exact h.isEntryName

theorem ChosenFile.artifactNames_ne_nil (file : ChosenFile) : file.artifactNames ≠ [] := by
  simp [ChosenFile.artifactNames]

theorem artifactOf_eq (h : file.Named) :
    settings.artifactOf file = settings.outDir.join ⟨file.artifactNames⟩ := by
  rw [Settings.artifactOf, Settings.artifactPath, ← ChosenFile.stem,
    SlashPath.withFileName_names h h.isEntryName, ChosenFile.artifactNames]

theorem placeOf_artifactOf (h : file.Named) :
    tree.placeOf (settings.artifactOf file) = tree.placeOf settings.outDir ++ file.artifactNames := by
  rw [artifactOf_eq h, placeOf_join (isAbsolute_names h.artifactNames) file.artifactNames_ne_nil,
    place_names h.artifactNames]

theorem append_artifactSuffix_inj {stem stem' : String} {role role' : FileRole} :
    stem ++ artifactSuffix role = stem' ++ artifactSuffix role' ↔ stem = stem' ∧ role = role' := by
  constructor
  · intro h
    have htail := congrArg (fun s : String => s.toList.reverse.take 3) h
    cases role <;> cases role'
    · exact ⟨(String.append_left_inj _).mp h, rfl⟩
    · simp [artifactSuffix] at htail
    · simp [artifactSuffix] at htail
    · exact ⟨(String.append_left_inj _).mp h, rfl⟩
  · rintro ⟨rfl, rfl⟩
    rfl

structure ChosenFile.Twin (file other : ChosenFile) : Prop where
  directory : file.names.dropLast = other.names.dropLast
  stem : file.stem = other.stem
  role : file.role = other.role

theorem artifactNames_eq_iff : file.artifactNames = other.artifactNames ↔ file.Twin other := by
  constructor
  · intro h
    obtain ⟨hdirectory, hname⟩ := List.append_inj' h rfl
    obtain ⟨hstem, hrole⟩ := append_artifactSuffix_inj.mp (List.singleton_inj.mp hname)
    exact ⟨hdirectory, hstem, hrole⟩
  · intro h
    rw [ChosenFile.artifactNames, ChosenFile.artifactNames, h.directory, h.stem, h.role]

/-- Two artifacts have the same path where they have the same place. -/
theorem artifactOf_eq_iff (hfile : file.Named) (hother : other.Named) :
    settings.artifactOf file = settings.artifactOf other ↔ file.Twin other := by
  constructor
  · intro h
    have hplace := congrArg (FileTree.empty []).placeOf h
    rw [placeOf_artifactOf hfile, placeOf_artifactOf hother] at hplace
    exact artifactNames_eq_iff.mp (List.append_cancel_left hplace)
  · intro h
    rw [artifactOf_eq hfile, artifactOf_eq hother, artifactNames_eq_iff.mpr h]

theorem placeOf_artifactOf_eq_iff (hfile : file.Named) (hother : other.Named) :
    tree.placeOf (settings.artifactOf file) = tree.placeOf (settings.artifactOf other) ↔ file.Twin other := by
  rw [placeOf_artifactOf hfile, placeOf_artifactOf hother, List.append_cancel_left_eq, artifactNames_eq_iff]

theorem components_names (h : ∀ name ∈ names, IsEntryName name) :
    (SlashPath.mk names).components = names.map .name := by
  cases names with
  | nil => rfl
  | cons first others =>
    have hfirst := h first List.mem_cons_self
    rw [SlashPath.components]
    dsimp only
    rw [SlashPath.filterMap_innerComponent? fun name hmem => h name (List.mem_cons_of_mem _ hmem),
      SlashPath.headComponent?, isAbsolute_names h, if_neg (by simp), if_neg hfirst.ne_dot,
      SlashPath.innerComponent?_name hfirst.ne_empty hfirst.ne_dot hfirst.ne_dots]
    rfl

theorem components_join (h : ∀ name ∈ names, IsEntryName name) (hnames : names ≠ []) :
    (p.join ⟨names⟩).components = p.components ++ names.map .name := by
  obtain ⟨hblank, hjoin⟩ | ⟨first, others, kept, rfl, hjoin, hkept, habsolute⟩ :=
    join_cases p (isAbsolute_names h) hnames
  · have hnone : p.components = [] := by
      obtain ⟨segments⟩ := p
      obtain rfl | rfl := hblank
      · rfl
      · rfl
    rw [hjoin, hnone, components_names h, List.nil_append]
  · have hinner : kept.filterMap SlashPath.innerComponent? = others.filterMap SlashPath.innerComponent? := by
      obtain rfl | rfl := hkept
      · rfl
      · rw [List.filterMap_append]
        exact (List.append_nil _).symm
    rw [hjoin] at habsolute
    rw [hjoin, SlashPath.components, SlashPath.components]
    simp only [SlashPath.headComponent?, habsolute]
    rw [List.filterMap_append, hinner, SlashPath.filterMap_innerComponent? h, List.append_assoc]

theorem ofText_intercalate (h : ∀ name ∈ names, IsEntryName name) (hnames : names ≠ []) :
    SlashPath.ofText ("/".intercalate names) = ⟨names⟩ := by
  have hsplit : ("/".intercalate names).toList.splitOn '/' = names.map String.toList := by
    rw [String.toList_intercalate]
    refine List.splitOn_intercalate '/' (fun cs hcs => ?_) (by simpa using hnames)
    obtain ⟨name, hmem, rfl⟩ := List.mem_map.mp hcs
    exact (h name hmem).no_slash
  rw [SlashPath.ofText, hsplit, List.map_map]
  congr 1
  exact List.map_id'' (fun name => String.ofList_toList) names

/-- The aggregate names an artifact from the output directory on. -/
theorem includePath_artifactOf (h : file.Named) :
    settings.includePath (settings.artifactOf file) = "/".intercalate file.artifactNames := by
  have hbelow : (settings.artifactOf file).below? settings.outDir =
      some (file.artifactNames.map SlashPath.Component.name) := by
    rw [artifactOf_eq h, SlashPath.below?, components_join h.artifactNames file.artifactNames_ne_nil,
      if_pos (List.isPrefixOf_iff_prefix.mpr (List.prefix_append _ _)), List.drop_left]
  rw [Settings.includePath, hbelow, Option.getD_some, SlashPath.logical, List.map_map]
  congr 1
  exact List.map_id'' (fun name => rfl) file.artifactNames

/-- So the include text leads from the output directory to the artifact. -/
theorem join_includePath (h : file.Named) :
    settings.outDir.join (.ofText (settings.includePath (settings.artifactOf file))) =
      settings.artifactOf file := by
  rw [includePath_artifactOf h, ofText_intercalate h.artifactNames file.artifactNames_ne_nil,
    artifactOf_eq h]

end ReflectionTables.Trees
