import ReflectionTables.Proofs.ArtifactPaths
import ReflectionTables.Proofs.TreeEdits
/-!
# Which files a run chooses

Whether a file is chosen depends on its names alone, so the choice is the same after any edits at
places where nothing is chosen. The place of an artifact is such a place, whatever the settings are
by which the artifact was written or the files are chosen.
-/

namespace ReflectionTables.Trees

open Reflected Generation

variable {tree after : FileTree} {settings : Settings} {root key names : Key} {node : Node}
  {nodes : List (Key × Node)} {file : ChosenFile} {files : List ChosenFile} {path : SlashPath}
  {name : String} {written : Key → Prop}

theorem place_blanks {blanks : List String}
    (h : ∀ segment ∈ blanks, SlashPath.innerComponent? segment = none) : place key blanks = key := by
  induction blanks with
  | nil => rfl
  | cons segment blanks ih =>
    have hsegment := h segment List.mem_cons_self
    have hskip : segment = "" ∨ segment = "." := by
      unfold SlashPath.innerComponent? at hsegment
      split at hsegment
      · exact .inl rfl
      · exact .inr rfl
      · cases hsegment
      · cases hsegment
    rw [place_cons, place_skip hskip, ih fun other hmem => h other (List.mem_cons_of_mem _ hmem)]

theorem place_of_innerComponent? {segment : String}
    (h : SlashPath.innerComponent? segment = some (.name name)) : place key [segment] = key ++ [name] := by
  unfold SlashPath.innerComponent? at h
  split at h
  · cases h
  · cases h
  · cases h
  · rename_i hempty hdot hdots
    cases h
    exact place_name hempty hdot hdots

/-- Segments whose last name is followed by blanks only lead to an entry of that name. -/
theorem exists_place_of_components {segments : List String} {components : List SlashPath.Component}
    (h : segments.filterMap SlashPath.innerComponent? = components ++ [.name name]) (key : Key) :
    ∃ key', place key segments = key' ++ [name] := by
  obtain ⟨outer, rest, rfl, -, hrest⟩ := List.filterMap_eq_append_iff.mp h
  obtain ⟨inner, segment, blanks, rfl, -, hsegment, hblanks⟩ := List.filterMap_eq_cons_iff.mp hrest
  have hskip : ∀ segment ∈ blanks, SlashPath.innerComponent? segment = none := by
    simpa [List.filterMap_eq_nil_iff] using hblanks
  rw [← List.append_assoc, place_append, place_cons, place_of_innerComponent? hsegment, place_blanks hskip]
  exact ⟨place key (outer ++ inner), rfl⟩

theorem getLast?_of_fileName? (h : path.fileName? = some name) :
    path.components.getLast? = some (.name name) := by
  rw [SlashPath.fileName?] at h
  split at h
  · rename_i hlast
    cases h
    exact hlast
  · cases h

theorem exists_placeOf_of_fileName? (tree : FileTree) (h : path.fileName? = some name) :
    ∃ key, tree.placeOf path = key ++ [name] := by
  have hlast := getLast?_of_fileName? h
  obtain ⟨segments⟩ := path
  cases segments with
  | nil => cases h
  | cons first others =>
    rw [SlashPath.components] at hlast
    rw [placeOf_cons]
    cases hothers : others.filterMap SlashPath.innerComponent? using List.reverseRecOn with
    | nil =>
      -- all names but the first are blanks
      have hblanks : ∀ segment ∈ others, SlashPath.innerComponent? segment = none := by
        simpa [List.filterMap_eq_nil_iff] using hothers
      simp only [hothers, List.append_nil, SlashPath.headComponent?, isAbsolute_cons] at hlast
      by_cases habsolute : first = "" ∧ others ≠ []
      · rw [if_pos habsolute] at hlast
        cases hlast
      rw [if_neg habsolute] at hlast ⊢
      split at hlast
      · cases hlast
      cases hfirst : SlashPath.innerComponent? first with
      | none =>
        rw [hfirst] at hlast
        cases hlast
      | some component =>
        rw [hfirst] at hlast
        cases hlast
        rw [place_cons, place_of_innerComponent? hfirst, place_blanks hblanks]
        exact ⟨tree.cwd, rfl⟩
    | append_singleton before last =>
      simp only [hothers, ← List.append_assoc, List.getLast?_concat, Option.some.injEq] at hlast
      subst hlast
      split
      · exact exists_place_of_components hothers []
      · rw [place_cons]
        exact exists_place_of_components hothers _

def Settings.sourceOf (settings : Settings) (tree : FileTree) (file : ChosenFile) : Key :=
  tree.placeOf settings.root ++ file.names

def Settings.chosenAt? (settings : Settings) (root : Key) (entry : Key × Node) : Option ChosenFile :=
  if root.isPrefixOf entry.1 then settings.choose? (entry.1.drop root.length) entry.2 else none

theorem filterMap_below : (tree.below root).filterMap (fun (names, node) => settings.choose? names node) =
    tree.nodes.filterMap (settings.chosenAt? root) := by
  rw [FileTree.below, List.filterMap_map, List.filterMap_filter, List.filterMap_cons]
  have hroot : (if root.isPrefixOf ([] : Key) then settings.choose? (([] : Key).drop root.length) .directory
      else none) = none := by
    split <;> rfl
  dsimp only [Function.comp_apply]
  rw [hroot]
  rfl

theorem chosenFiles_eq_ok_iff : chosenFiles tree settings = .ok files ↔
    ∃ root, tree.resolve settings.root = .ok root ∧ files = tree.nodes.filterMap (settings.chosenAt? root) := by
  rw [chosenFiles]
  cases tree.resolve settings.root with
  | error e =>
    constructor
    · intro h
      cases h
    · rintro ⟨root, h, -⟩
      cases h
  | ok root =>
    simp only [filterMap_below, Except.ok.injEq, exists_eq_left']
    exact eq_comm

theorem chosenAt?_eq_some (h : settings.chosenAt? root (key, node) = some file) :
    key = root ++ file.names ∧ settings.choose? file.names node = some file := by
  rw [Settings.chosenAt?] at h
  split at h
  · rename_i hbelow
    obtain ⟨names, rfl⟩ := List.isPrefixOf_iff_prefix.mp hbelow
    rw [List.drop_left] at h
    have hnames : file.names = names := by
      unfold Settings.choose? at h
      split at h
      · cases h
      split at h
      · cases h
      · obtain ⟨role, -, rfl⟩ := Option.map_eq_some_iff.mp h
        rfl
    rw [hnames]
    exact ⟨rfl, h⟩
  · cases h

theorem mem_of_chosenFiles (h : chosenFiles tree settings = .ok files) (hfile : file ∈ files) :
    ∃ node, (settings.sourceOf tree file, node) ∈ tree.nodes ∧
      settings.chosenAt? (tree.placeOf settings.root) (settings.sourceOf tree file, node) = some file := by
  obtain ⟨root, hroot, rfl⟩ := chosenFiles_eq_ok_iff.mp h
  obtain ⟨⟨key, node⟩, hentry, hchosen⟩ := List.mem_filterMap.mp hfile
  obtain ⟨rfl, -⟩ := chosenAt?_eq_some hchosen
  rw [Settings.sourceOf, placeOf_of_resolve hroot]
  exact ⟨node, hentry, hchosen⟩

/-- Nothing is chosen where an artifact goes. -/
theorem choose?_of_isArtifactName (hplace : tree.placeOf settings.root ++ names = key ++ [name])
    (hname : IsArtifactName name) : settings.choose? names node = none := by
  have hrole : roleOf? (settings.walkPath names) = none := by
    cases names using List.reverseRecOn with
    | nil =>
      rw [Settings.walkPath, if_pos rfl]
      cases hroot : settings.root.fileName? with
      | none => rw [roleOf?, hroot]; rfl
      | some name' =>
        obtain ⟨key', hkey'⟩ := exists_placeOf_of_fileName? tree hroot
        rw [List.append_nil, hkey'] at hplace
        obtain ⟨-, hsame⟩ := List.append_inj' hplace rfl
        cases hsame
        exact roleOf?_of_isArtifactName hroot hname
    | append_singleton before last =>
      rw [← List.append_assoc] at hplace
      obtain ⟨-, hsame⟩ := List.append_inj' hplace rfl
      cases hsame
      obtain ⟨stem, role, rfl⟩ := hname
      obtain ⟨hempty, hdot, hdots⟩ := ne_of_artifactSuffix stem role
      obtain ⟨outer, houter⟩ := exists_segments_join (p := settings.root)
        (q := relativePath (before ++ [stem ++ artifactSuffix role]))
      have hlast : (SlashPath.mk (outer ++ before ++ [stem ++ artifactSuffix role])).fileName? =
          some (stem ++ artifactSuffix role) := SlashPath.fileName?_concat hempty hdot hdots
      have hpath : settings.walkPath (before ++ [stem ++ artifactSuffix role]) =
          ⟨outer ++ before ++ [stem ++ artifactSuffix role]⟩ := by
        rw [Settings.walkPath, if_neg (by simp)]
        refine congrArg SlashPath.mk (houter.trans ?_)
        rw [relativePath, if_neg (by simp), List.append_assoc]
      rw [hpath]
      exact roleOf?_of_isArtifactName hlast ⟨stem, role, rfl⟩
  unfold Settings.choose?
  rw [hrole]
  split
  · rfl
  · split <;> rfl

/-- Nothing is chosen at the place of an artifact, whatever is there. -/
theorem chosenAt?_artifactPath (other : Settings) (relative : SlashPath) (role : FileRole) (node : Node) :
    settings.chosenAt? (tree.placeOf settings.root) (tree.placeOf (other.artifactPath relative role), node) =
      none := by
  cases hchosen : settings.chosenAt? (tree.placeOf settings.root)
      (tree.placeOf (other.artifactPath relative role), node) with
  | none => rfl
  | some file =>
    obtain ⟨hplace, hchoose⟩ := chosenAt?_eq_some hchosen
    obtain ⟨key, name, hkey, hname⟩ := exists_placeOf_artifactPath tree other relative role
    rw [choose?_of_isArtifactName (hplace.symm.trans hkey) hname] at hchoose
    cases hchoose

theorem sourceOf_ne_artifactPath (h : chosenFiles tree settings = .ok files) (hfile : file ∈ files)
    (other : Settings) (relative : SlashPath) (role : FileRole) :
    settings.sourceOf tree file ≠ tree.placeOf (other.artifactPath relative role) := by
  intro hplace
  obtain ⟨node, -, hchosen⟩ := mem_of_chosenFiles h hfile
  rw [hplace, chosenAt?_artifactPath] at hchosen
  cases hchosen

theorem isSome_get?_of_mem (h : (key, node) ∈ tree.nodes) : (tree.get? key).isSome := by
  rw [FileTree.get?]
  split
  · rfl
  · exact List.lookup_isSome_iff.mpr ⟨(key, node), h, beq_iff_eq.mpr rfl⟩

theorem filterMap_insertNode {α : Type} {f : Key × Node → Option α} (hnew : f (key, node) = none)
    (hold : ∀ old, nodes.lookup key = some old → f (key, old) = none) :
    (insertNode key node nodes).filterMap f = nodes.filterMap f := by
  induction nodes with
  | nil => exact List.filterMap_cons_none hnew
  | cons entry nodes ih =>
    obtain ⟨k, n⟩ := entry
    rw [insertNode]
    split
    · rename_i heq
      subst heq
      rw [List.filterMap_cons_none hnew, List.filterMap_cons_none (hold n (by rw [lookup_cons_eq, if_pos rfl]))]
    split
    · rw [List.filterMap_cons_none hnew]
    · rename_i hne _
      rw [List.filterMap_cons, List.filterMap_cons, ih]
      intro old hlookup
      exact hold old (by rwa [lookup_cons_eq, if_neg fun h => hne h.symm])

/-- Edits where nothing is chosen do not change the choice. -/
theorem FileTree.Edits.chosenFiles_eq (h : tree.Edits written after)
    (hwritten : ∀ key, written key → ∀ node, settings.chosenAt? (tree.placeOf settings.root) (key, node) = none)
    (hfiles : chosenFiles tree settings = .ok files) : chosenFiles after settings = .ok files := by
  obtain ⟨root, hroot, rfl⟩ := chosenFiles_eq_ok_iff.mp hfiles
  rw [placeOf_of_resolve hroot] at hwritten
  have hnodes : after.nodes.filterMap (settings.chosenAt? root) =
      tree.nodes.filterMap (settings.chosenAt? root) := by
    clear hfiles
    induction h with
    | nothing => rfl
    | @directory after key _ hnew ih =>
      rw [← ih]
      apply filterMap_insertNode
      · rw [Settings.chosenAt?]
        split <;> rfl
      · intro old hlookup
        rw [FileTree.get?] at hnew
        split at hnew
        · cases hnew
        · cases hlookup.symm.trans hnew
    | @file after key content _ hkey hfree ih =>
      exact (filterMap_insertNode (hwritten key hkey _) fun old _ => hwritten key hkey old).trans ih
  exact chosenFiles_eq_ok_iff.mpr ⟨root, h.within.resolve hroot, hnodes.symm⟩

structure FileTree.Sound (tree : FileTree) : Prop where
  named : ∀ entry ∈ tree.nodes, ∀ name ∈ entry.1, IsEntryName name
  enclosed : ∀ entry ∈ tree.nodes, ∀ n < entry.1.length, tree.get? (entry.1.take n) = some .directory

instance (tree : FileTree) : Decidable tree.Sound :=
  decidable_of_iff
    ((∀ entry ∈ tree.nodes, ∀ name ∈ entry.1, IsEntryName name) ∧
      ∀ entry ∈ tree.nodes, ∀ n < entry.1.length, tree.get? (entry.1.take n) = some .directory)
    ⟨fun ⟨h, h'⟩ => ⟨h, h'⟩, fun h => ⟨h.1, h.2⟩⟩

theorem FileTree.Sound.named_of_chosenFiles (hsound : tree.Sound) (h : chosenFiles tree settings = .ok files)
    (hfile : file ∈ files) : file.Named := by
  obtain ⟨node, hentry, -⟩ := mem_of_chosenFiles h hfile
  intro name hname
  exact hsound.named _ hentry name (List.mem_append_right _ hname)

theorem mem_of_get? (h : tree.get? key = some node) : key = [] ∨ (key, node) ∈ tree.nodes := by
  rw [FileTree.get?] at h
  split at h
  · exact .inl ‹_›
  · obtain ⟨before, behind, hnodes, -⟩ := List.lookup_eq_some_iff.mp h
    exact .inr (by simp [hnodes])

theorem FileTree.Sound.directory_of_prefix (hsound : tree.Sound) (h : tree.get? key = some node)
    (hbelow : names <+: key) (hne : names ≠ key) : tree.get? names = some .directory := by
  obtain ⟨rest, rfl⟩ := hbelow
  have hrest : rest ≠ [] := by
    rintro rfl
    exact hne (List.append_nil names).symm
  obtain hnil | hmem := mem_of_get? h
  · simp [hrest] at hnil
  · have henclosed := hsound.enclosed _ hmem names.length
      (by simpa using List.length_pos_iff.mpr hrest)
    rwa [List.take_left] at henclosed

end ReflectionTables.Trees
