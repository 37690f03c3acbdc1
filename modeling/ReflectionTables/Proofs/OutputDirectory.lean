import ReflectionTables.Proofs.ChosenFiles
/-!
# The output directory inside the scanned tree

The walk compares components as they are written, so it leaves the directory out just if its path
repeats that of the root and goes on with the names on the way from there. Every other file that has
a role is chosen, once.
-/

namespace ReflectionTables.Trees

open Reflected

variable {tree : FileTree} {settings : Settings} {root names below : Key} {node : Node}
  {nodes : List (Key × Node)} {role : FileRole} {components : List SlashPath.Component}

def SlashPath.Component.step (key : Key) : SlashPath.Component → Key
  | .root => []
  | .here => key
  | .up => key.dropLast
  | .name text => key ++ [text]

def placeBy (key : Key) (components : List SlashPath.Component) : Key :=
  components.foldl SlashPath.Component.step key

@[simp] theorem placeBy_append (key : Key) (before after : List SlashPath.Component) :
    placeBy key (before ++ after) = placeBy (placeBy key before) after :=
  List.foldl_append

@[simp] theorem placeBy_names (key names : Key) : placeBy key (names.map .name) = key ++ names := by
  induction names generalizing key with
  | nil => exact (List.append_nil key).symm
  | cons name names ih =>
    calc placeBy key ((name :: names).map .name)
        = placeBy (key ++ [name]) (names.map .name) := rfl
      _ = key ++ [name] ++ names := ih (key ++ [name])
      _ = key ++ name :: names := by rw [List.append_assoc, List.singleton_append]

/-- A segment leads where its component leads, and nowhere if it has none. -/
theorem place_segment (key : Key) (segment : String) :
    place key [segment] = placeBy key (SlashPath.innerComponent? segment).toList := by
  unfold SlashPath.innerComponent?
  split
  · exact place_skip (.inl rfl)
  · exact place_skip (.inr rfl)
  · exact place_up
  · rename_i hempty hdot hdots
    exact place_name hempty hdot hdots

theorem place_eq_placeBy (key : Key) (segments : List String) :
    place key segments = placeBy key (segments.filterMap SlashPath.innerComponent?) := by
  induction segments generalizing key with
  | nil => rfl
  | cons segment segments ih =>
    have hcomponents : (segment :: segments).filterMap SlashPath.innerComponent? =
        (SlashPath.innerComponent? segment).toList ++ segments.filterMap SlashPath.innerComponent? := by
      rw [List.filterMap_cons]
      cases SlashPath.innerComponent? segment with
      | none => rfl
      | some component => rfl
    rw [place_cons, ih, place_segment, hcomponents, placeBy_append]

/-- A path leads where its components lead from the working directory. -/
theorem placeOf_eq_placeBy (tree : FileTree) (path : SlashPath) :
    tree.placeOf path = placeBy tree.cwd path.components := by
  obtain ⟨segments⟩ := path
  cases segments with
  | nil => rfl
  | cons first others =>
    rw [placeOf_cons, SlashPath.components]
    simp only [SlashPath.headComponent?, isAbsolute_cons, placeBy_append]
    by_cases habsolute : first = "" ∧ others ≠ []
    · rw [if_pos habsolute, if_pos habsolute, place_eq_placeBy]
      rfl
    rw [if_neg habsolute, if_neg habsolute, place_cons, place_eq_placeBy]
    by_cases hdot : first = "."
    · rw [if_pos hdot, place_skip (.inr hdot)]
      rfl
    · rw [if_neg hdot, place_segment]

/-- Whether the path of the output directory is that of the root with names behind it. A root that is a
single dot need not be repeated. -/
def Settings.SpellsOut (settings : Settings) (names : Key) : Prop :=
  settings.outDir.components = settings.root.components ++ names.map .name ∨
    settings.root.components = [.here] ∧ settings.outDir.components = names.map .name

instance (settings : Settings) (names : Key) : Decidable (settings.SpellsOut names) :=
  inferInstanceAs (Decidable (_ ∨ _))

theorem head?_components {path : SlashPath} (h : path.isAbsolute = true) :
    path.components.head? = some .root := by
  obtain ⟨segments⟩ := path
  cases segments with
  | nil => cases h
  | cons first others => simp [SlashPath.components, SlashPath.headComponent?, h]

theorem below?_eq_some_iff {path base : SlashPath} :
    path.below? base = some components ↔ path.components = base.components ++ components := by
  rw [SlashPath.below?]
  constructor
  · intro h
    split at h
    · rename_i hprefix
      obtain ⟨rest, hrest⟩ := List.isPrefixOf_iff_prefix.mp hprefix
      rw [← hrest, List.drop_left] at h
      cases h
      exact hrest.symm
    · cases h
  · intro h
    have hprefix : base.components.isPrefixOf path.components = true :=
      List.isPrefixOf_iff_prefix.mpr ⟨components, h.symm⟩
    rw [if_pos hprefix, h, List.drop_left]

/-- What is left out is what the output directory has behind the root, or all of it behind a single dot. -/
theorem skipped?_eq_some (h : settings.skipped? = some components) :
    settings.outDir.components = settings.root.components ++ components ∨
      settings.root.components = [.here] ∧ settings.outDir.components = components := by
  rw [Settings.skipped?] at h
  split at h
  · rename_i components' hbelow
    cases h
    exact .inl (below?_eq_some_iff.mp hbelow)
  split at h
  · rename_i hhere
    cases h
    rw [Bool.and_eq_true, beq_iff_eq] at hhere
    exact .inr ⟨hhere.2, rfl⟩
  · cases h

/-- What is left out leads from the root to the output directory. -/
theorem placeBy_of_skipped? (tree : FileTree) (h : settings.skipped? = some components) :
    tree.placeOf settings.outDir = placeBy (tree.placeOf settings.root) components := by
  rw [placeOf_eq_placeBy, placeOf_eq_placeBy]
  obtain hout | ⟨hroot, hout⟩ := skipped?_eq_some h
  · rw [hout, placeBy_append]
  · rw [hout, hroot]
    rfl

theorem skipped?_eq_names_iff (hnames : names ≠ []) :
    settings.skipped? = some (names.map .name) ↔ settings.SpellsOut names := by
  constructor
  · exact skipped?_eq_some
  obtain ⟨name, rest, rfl⟩ := List.exists_cons_of_ne_nil hnames
  intro h
  obtain hout | ⟨hroot, hout⟩ := h
  · rw [Settings.skipped?, below?_eq_some_iff.mpr hout]
  have hapart : settings.outDir.below? settings.root = none := by
    rw [Option.eq_none_iff_forall_ne_some]
    intro components hbelow
    rw [below?_eq_some_iff, hroot, hout] at hbelow
    cases hbelow
  have hrelative : settings.outDir.isAbsolute = false := by
    rw [Bool.eq_false_iff]
    intro habsolute
    have hhead := head?_components habsolute
    rw [hout] at hhead
    cases hhead
  simp [Settings.skipped?, hapart, hrelative, hroot, hout]

/-- The walk leaves out what lies in the output directory, if that is spelled out from the root. -/
theorem skips_iff (hout : tree.placeOf settings.outDir = tree.placeOf settings.root ++ names)
    (hnames : names ≠ []) : settings.skips below = true ↔ settings.SpellsOut names ∧ names <+: below := by
  rw [← skipped?_eq_names_iff hnames, Settings.skips]
  constructor
  · intro h
    split at h
    · rename_i components hskipped
      obtain ⟨rest, hrest⟩ := List.isPrefixOf_iff_prefix.mp h
      obtain ⟨names', behind, rfl, rfl, -⟩ := List.map_eq_append_iff.mp hrest.symm
      have hplace := placeBy_of_skipped? tree hskipped
      rw [hout, placeBy_names] at hplace
      obtain rfl := List.append_cancel_left hplace
      exact ⟨hskipped, List.prefix_append names behind⟩
    · cases h
  · intro h
    obtain ⟨hskipped, hbelow⟩ := h
    rw [hskipped]
    exact List.isPrefixOf_iff_prefix.mpr (hbelow.map SlashPath.Component.name)

@[simp] theorem keyLT_irrefl (key : Key) : keyLT key key = false := by
  induction key with
  | nil => rfl
  | cons name key ih => simp [keyLT, ih]

@[simp] theorem keyLT_append_left (root key key' : Key) : keyLT (root ++ key) (root ++ key') = keyLT key key' := by
  induction root with
  | nil => rfl
  | cons name root ih => simp [keyLT, ih]

theorem pairwise_chosen (settings : Settings) (root : Key)
    (h : nodes.Pairwise fun entry entry' => keyLT entry.1 entry'.1 = true) :
    (nodes.filterMap (settings.chosenAt? root)).Pairwise fun file file' =>
      keyLT file.names file'.names = true := by
  refine h.filterMap _ fun entry entry' hlt file hfile file' hfile' => ?_
  obtain ⟨hkey, -⟩ := chosenAt?_eq_some hfile
  obtain ⟨hkey', -⟩ := chosenAt?_eq_some hfile'
  rwa [hkey, hkey', keyLT_append_left] at hlt

theorem choose?_eq_some_iff : settings.choose? below node = some ⟨below, role⟩ ↔
    (∃ content, node = .file content) ∧ settings.skips below = false ∧
      roleOf? (settings.walkPath below) = some role := by
  cases node with
  | directory => simp [Settings.choose?]
  | file content => simp [Settings.choose?]

theorem mem_chosen_iff : ⟨below, role⟩ ∈ nodes.filterMap (settings.chosenAt? root) ↔
    (∃ content, (root ++ below, .file content) ∈ nodes) ∧ settings.skips below = false ∧
      roleOf? (settings.walkPath below) = some role := by
  rw [List.mem_filterMap]
  constructor
  · rintro ⟨⟨key, node⟩, hentry, hchosen⟩
    obtain ⟨rfl, hchoose⟩ := chosenAt?_eq_some hchosen
    obtain ⟨⟨content, rfl⟩, hrest⟩ := choose?_eq_some_iff.mp hchoose
    exact ⟨⟨content, hentry⟩, hrest⟩
  · rintro ⟨⟨content, hentry⟩, hrest⟩
    refine ⟨_, hentry, ?_⟩
    rw [Settings.chosenAt?, if_pos (List.isPrefixOf_iff_prefix.mpr (List.prefix_append root below)), List.drop_left]
    exact choose?_eq_some_iff.mpr ⟨⟨content, rfl⟩, hrest⟩

/-- The files that are chosen when the output directory lies inside the root. They are met in the order of
their names, each once. They are all files with a role, without those in the output directory if its path is
the path of the root with names behind it. However else it is written, it is scanned. -/
theorem chosen_beside_outDir (tree : FileTree) (settings : Settings) (root names : Key)
    (hnodes : tree.nodes.Pairwise fun entry entry' => keyLT entry.1 entry'.1 = true)
    (hroot : tree.resolve settings.root = .ok root) (hout : tree.placeOf settings.outDir = root ++ names)
    (hnames : names ≠ []) :
    ∃ files, chosenFiles tree settings = .ok files ∧
      files.Pairwise (fun file file' => keyLT file.names file'.names = true) ∧
      (files.map (·.names)).Nodup ∧
      ∀ below role, ⟨below, role⟩ ∈ files ↔
        (∃ content, (root ++ below, .file content) ∈ tree.nodes) ∧
          roleOf? (settings.walkPath below) = some role ∧ ¬(settings.SpellsOut names ∧ names <+: below) := by
  have hordered := pairwise_chosen settings root hnodes
  refine ⟨_, chosenFiles_eq_ok_iff.mpr ⟨root, hroot, rfl⟩, hordered, ?_, fun below role => ?_⟩
  · rw [List.Nodup, List.pairwise_map]
    refine hordered.imp fun {file file'} hlt hsame => ?_
    rw [hsame, keyLT_irrefl] at hlt
    cases hlt
  · rw [← placeOf_of_resolve hroot] at hout
    rw [mem_chosen_iff, ← skips_iff hout hnames, Bool.not_eq_true]
    exact and_congr_right fun _ => and_comm

/-- A tree with a header, and with an aggregate in a directory beside it. -/
def writtenTree : FileTree where
  nodes := [(["src"], .directory), (["src", "a.h"], .file []), (["src", "gen"], .directory),
    (["src", "gen", "decls.h"], .file [])]
  cwd := []

/-- The aggregate is left out if its directory is written behind the root, and read again if it is not. -/
theorem chosen_beside_outDir_spelled :
    (∃ files, chosenFiles writtenTree { root := ⟨["src"]⟩, outDir := ⟨["src", "gen"]⟩ } = .ok files ∧
      ⟨["a.h"], .header⟩ ∈ files ∧ ∀ role, ⟨["gen", "decls.h"], role⟩ ∉ files) ∧
    ∃ files, chosenFiles writtenTree { root := ⟨["src"]⟩, outDir := ⟨[".", "src", "gen"]⟩ } = .ok files ∧
      ⟨["gen", "decls.h"], .header⟩ ∈ files := by
  constructor
  · obtain ⟨files, hfiles, -, -, hmem⟩ := chosen_beside_outDir writtenTree
      { root := ⟨["src"]⟩, outDir := ⟨["src", "gen"]⟩ } ["src"] ["gen"]
      (by decide +kernel) (by decide +kernel) (by decide +kernel) (by decide)
    refine ⟨files, hfiles, (hmem _ _).mpr ?_, fun role hrole => ?_⟩
    · exact ⟨⟨[], by decide⟩, by decide +kernel, by decide +kernel⟩
    · exact ((hmem _ _).mp hrole).2.2 (by decide +kernel)
  · obtain ⟨files, hfiles, -, -, hmem⟩ := chosen_beside_outDir writtenTree
      { root := ⟨["src"]⟩, outDir := ⟨[".", "src", "gen"]⟩ } ["src"] ["gen"]
      (by decide +kernel) (by decide +kernel) (by decide +kernel) (by decide)
    exact ⟨files, hfiles, (hmem _ _).mpr ⟨⟨[], by decide⟩, by decide +kernel, by decide +kernel⟩⟩

end ReflectionTables.Trees
