import ReflectionTables.Proofs.TreePlaces
import ReflectionTables.TextSlices
/-!
# What the calls of the system do to a tree

Directories are put where there was nothing, and a file is put where a path leads unless there is a
directory. So nothing is ever lost but what a written file held, and a file that was written can be
read by the path that it was written to.
-/

namespace ReflectionTables.Trees

variable {tree middle after : FileTree} {key key' : Key} {node : Node} {path : SlashPath}
  {content : List UInt8} {written written' : Key → Prop}

theorem lookup_cons_eq (key key' : Key) (node : Node) (nodes : List (Key × Node)) :
    ((key, node) :: nodes).lookup key' = if key' = key then some node else nodes.lookup key' := by
  rw [List.lookup_cons]
  by_cases h : key' = key
  · rw [if_pos h, beq_iff_eq.mpr h]
  · rw [if_neg h, beq_eq_false_iff_ne.mpr h]

theorem lookup_insertNode (key key' : Key) (node : Node) (nodes : List (Key × Node)) :
    (insertNode key node nodes).lookup key' = if key' = key then some node else nodes.lookup key' := by
  induction nodes with
  | nil => exact lookup_cons_eq key key' node []
  | cons entry nodes ih =>
    obtain ⟨k, n⟩ := entry
    rw [insertNode]
    split
    · rename_i heq
      rw [lookup_cons_eq, lookup_cons_eq, heq]
      split <;> rfl
    split
    · rw [lookup_cons_eq]
    · rename_i hne _
      rw [lookup_cons_eq, lookup_cons_eq, ih]
      by_cases h : key' = key
      · rw [if_pos h, if_pos h, if_neg fun hk => hne (hk.symm.trans h)]
      · rw [if_neg h, if_neg h]

theorem get?_insert (hkey : key ≠ []) (key' : Key) :
    (tree.insert key node).get? key' = if key' = key then some node else tree.get? key' := by
  rw [FileTree.get?, FileTree.insert, lookup_insertNode, FileTree.get?]
  by_cases h : key' = []
  · rw [if_pos h, if_pos h, if_neg fun heq => hkey (heq.symm.trans h)]
  · rw [if_neg h, if_neg h]

@[simp]
theorem get?_nil (tree : FileTree) : tree.get? [] = some .directory := rfl

theorem ne_nil_of_get?_ne (h : tree.get? key ≠ some .directory) : key ≠ [] := by
  rintro rfl
  exact h rfl

theorem get?_insert_self (h : tree.get? key ≠ some .directory) :
    (tree.insert key node).get? key = some node := by
  rw [get?_insert (ne_nil_of_get?_ne h), if_pos rfl]

theorem get?_insert_of_ne (h : tree.get? key ≠ some .directory) (hne : key' ≠ key) :
    (tree.insert key node).get? key' = tree.get? key' := by
  rw [get?_insert (ne_nil_of_get?_ne h), if_neg hne]

theorem within_insert (h : tree.get? key ≠ some .directory) : tree.Within (tree.insert key node) := by
  refine ⟨rfl, fun k hk => ?_, fun k hk => ?_⟩
  · have hne : k ≠ key := by
      rintro rfl
      exact h hk
    rwa [get?_insert_of_ne h hne]
  · by_cases hne : k = key
    · rw [hne, get?_insert_self h]
      rfl
    · rwa [get?_insert_of_ne h hne]

/-- What a run may do to a tree: put directories where there is nothing, and files at the given keys where
there is no directory. -/
inductive FileTree.Edits (written : Key → Prop) (tree : FileTree) : FileTree → Prop
  | nothing : tree.Edits written tree
  | directory {after : FileTree} {key : Key} (h : tree.Edits written after) (hnew : after.get? key = none) :
    tree.Edits written (after.insert key .directory)
  | file {after : FileTree} {key : Key} {content : List UInt8} (h : tree.Edits written after)
      (hkey : written key) (hfree : after.get? key ≠ some .directory) :
    tree.Edits written (after.insert key (.file content))

namespace FileTree.Edits

theorem mono (h : tree.Edits written after) (hmono : ∀ key, written key → written' key) :
    tree.Edits written' after := by
  induction h with
  | nothing => exact .nothing
  | directory _ hnew ih => exact .directory ih hnew
  | file _ hkey hfree ih => exact .file ih (hmono _ hkey) hfree

theorem trans (h : tree.Edits written middle) (h' : middle.Edits written after) :
    tree.Edits written after := by
  induction h' with
  | nothing => exact h
  | directory _ hnew ih => exact .directory ih hnew
  | file _ hkey hfree ih => exact .file ih hkey hfree

theorem within (h : tree.Edits written after) : tree.Within after := by
  induction h with
  | nothing => exact .refl tree
  | directory _ hnew ih => exact ih.trans (within_insert (by simp [hnew]))
  | file _ _ hfree ih => exact ih.trans (within_insert hfree)

theorem get?_eq (h : tree.Edits written after) (hkey : ¬written key) (hnode : tree.get? key = some node) :
    after.get? key = some node := by
  induction h with
  | nothing => exact hnode
  | @directory after key' _ hnew ih =>
    have hne : key ≠ key' := by
      rintro rfl
      rw [ih] at hnew
      cases hnew
    rw [get?_insert_of_ne (by simp [hnew]) hne, ih]
  | @file after key' content _ hwritten hfree ih =>
    have hne : key ≠ key' := by
      rintro rfl
      exact hkey hwritten
    rw [get?_insert_of_ne hfree hne, ih]

theorem get?_of_file (h : tree.Edits written after) (hkey : ¬written key)
    (hfile : after.get? key = some (.file content)) : tree.get? key = some (.file content) := by
  induction h with
  | nothing => exact hfile
  | @directory after key' _ hnew ih =>
    by_cases heq : key = key'
    · rw [heq, get?_insert_self (by simp [hnew])] at hfile
      cases hfile
    · rw [get?_insert_of_ne (by simp [hnew]) heq] at hfile
      exact ih hfile
  | @file after key' content' _ hwritten hfree ih =>
    have hne : key ≠ key' := by
      rintro rfl
      exact hkey hwritten
    rw [get?_insert_of_ne hfree hne] at hfile
    exact ih hfile

/-- A file never makes room for a directory. -/
theorem ne_directory (h : tree.Edits written after) (hfile : tree.get? key = some (.file content)) :
    after.get? key ≠ some .directory := by
  induction h with
  | nothing => simp [hfile]
  | @directory after key' h hnew ih =>
    have hne : key ≠ key' := by
      rintro rfl
      have hsome := h.within.isSome key (by simp [hfile])
      simp [hnew] at hsome
    rwa [get?_insert_of_ne (by simp [hnew]) hne]
  | @file after key' content' _ _ hfree ih =>
    by_cases heq : key = key'
    · rw [heq, get?_insert_self hfree]
      simp
    · rwa [get?_insert_of_ne hfree heq]

end FileTree.Edits

section Calls

/-- A computation has a result only if its first part has one, and the rest goes on from it. -/
theorem exists_of_bind {ε α β : Type} {first : Except ε α} {rest : α → Except ε β} {b : β}
    (h : (first >>= rest) = .ok b) : ∃ a, first = .ok a ∧ rest a = .ok b := by
  cases first with
  | error e => cases h
  | ok a => exact ⟨a, rfl, h⟩

theorem readBytes_eq_ok_iff : tree.readBytes path = .ok content ↔
    ∃ key, tree.resolve path = .ok key ∧ tree.get? key = some (.file content) := by
  rw [FileTree.readBytes]
  cases hresolve : tree.resolve path with
  | error e =>
    constructor
    · intro h
      cases h
    · rintro ⟨key, h, -⟩
      cases h
  | ok key =>
    have hbind : ∀ next : Key → Except SystemError (List UInt8), (Except.ok key >>= next) = next key :=
      fun _ => rfl
    rw [hbind]
    cases hnode : tree.get? key with
    | none => simp [hnode]
    | some node => cases node <;> simp [hnode]

theorem get?_placeOf_of_readBytes (h : tree.readBytes path = .ok content) :
    tree.get? (tree.placeOf path) = some (.file content) := by
  obtain ⟨key, hresolve, hnode⟩ := readBytes_eq_ok_iff.mp h
  rwa [placeOf_of_resolve hresolve]

/-- Where there is more to follow, a path reads as before unless it was written to. -/
theorem FileTree.Edits.readBytes (h : tree.Edits written after) (hplace : ¬written (tree.placeOf path))
    (hread : tree.readBytes path = .ok content) : after.readBytes path = .ok content := by
  obtain ⟨key, hresolve, hnode⟩ := readBytes_eq_ok_iff.mp hread
  rw [placeOf_of_resolve hresolve] at hplace
  exact readBytes_eq_ok_iff.mpr ⟨key, h.within.resolve hresolve, h.get?_eq hplace hnode⟩

/-- The segments without the blank ones at the end. -/
theorem exists_blanks (segments : List String) :
    ∃ blanks, segments = (segments.reverse.dropWhile (· == "")).reverse ++ blanks := by
  obtain ⟨blanks, hblanks⟩ := List.dropWhile_suffix (l := segments.reverse) (· == "")
  exact ⟨blanks.reverse, by rw [← List.reverse_append, hblanks, List.reverse_reverse]⟩

theorem ne_empty_of_getLast? {segments : List String} {last : String}
    (h : (segments.reverse.dropWhile (· == "")).reverse.getLast? = some last) : last ≠ "" := by
  rw [List.getLast?_reverse] at h
  have hlast := List.head?_dropWhile_not (· == "") segments.reverse
  rw [h] at hlast
  simpa using hlast

/-- The place of a new entry is a name in a directory that the path leads to. -/
theorem slot_spec {slot : Slot} {name : String} (h : tree.slot path = .ok slot)
    (hname : slot.name? = some name) (hslashed : slot.slashed = false) :
    ∃ before, path.isEmpty = false ∧ (tree.start path).2 = before ++ [name] ∧
      tree.follow (tree.start path).1 before = .ok slot.directory ∧
      tree.get? slot.directory = some .directory ∧ name ≠ "" ∧ name ≠ "." ∧ name ≠ ".." := by
  unfold FileTree.slot at h
  cases hempty : path.isEmpty with
  | true =>
    rw [hempty] at h
    cases h
  | false =>
    rw [hempty] at h
    generalize tree.start path = start at h ⊢
    obtain ⟨key, segments⟩ := start
    simp only [Bool.false_eq_true, if_false] at h
    obtain ⟨blanks, hblanks⟩ := exists_blanks segments
    generalize hkept : (segments.reverse.dropWhile (· == "")).reverse = kept at h hblanks
    split at h
    · cases h
      cases hname
    rename_i last hlast
    have hne : last ≠ "" := ne_empty_of_getLast? (hkept ▸ hlast)
    obtain ⟨directory, hfollow, h⟩ := exists_of_bind h
    split at h
    · rename_i hdirectory
      split at h
      · cases h
        cases hname
      rename_i hdots
      cases h
      cases hname
      rw [not_or] at hdots
      -- nothing follows the name, so no blank was cut off
      have hsame : segments = kept := by
        have hle : ¬kept.length < segments.length := of_decide_eq_false hslashed
        rw [hblanks, List.length_append, Nat.lt_add_right_iff_pos, Nat.not_lt, Nat.le_zero,
          List.length_eq_zero_iff] at hle
        rw [hblanks, hle, List.append_nil]
      obtain ⟨before, rfl⟩ := List.getLast?_eq_some_iff.mp hlast
      rw [List.dropLast_concat] at hfollow
      exact ⟨before, rfl, hsame, hfollow, hdirectory, hne, hdots⟩
    · cases h
    · cases h

theorem exists_of_makeDirectory (h : tree.makeDirectory path = .ok after) :
    ∃ key, tree.get? key = none ∧ after = tree.insert key .directory := by
  obtain ⟨slot, hslot, h⟩ := exists_of_bind h
  split at h
  · cases h
  dsimp only at h
  split at h
  · cases h
  · rename_i hnone
    cases h
    exact ⟨_, hnone, rfl⟩

theorem edits_of_makeDirectory (h : tree.makeDirectory path = .ok after) : tree.Edits written after := by
  obtain ⟨key, hnew, rfl⟩ := exists_of_makeDirectory h
  exact .directory .nothing hnew

/-- Whether or not all of a path could be made, only directories were put into the tree. -/
theorem edits_makeWithin (tree : FileTree) (path : SlashPath) (levels : Nat) :
    tree.Edits written (tree.makeWithin path levels).2 := by
  induction levels generalizing path with
  | zero => exact .nothing
  | succ levels ih =>
    rw [FileTree.makeWithin]
    split
    · exact .nothing
    extract_lets retry
    have hretry : ∀ tree : FileTree, tree.Edits written (retry tree).2 := by
      intro tree
      dsimp only [retry]
      split
      · rename_i hmade
        exact edits_of_makeDirectory hmade
      · split
        · exact .nothing
        · exact .nothing
    split
    · rename_i parent _ _
      have hparent := ih parent
      split
      · rename_i made hmade
        rw [hmade] at hparent
        exact hparent.trans (hretry made)
      · exact hparent
    · exact hretry tree

theorem edits_makeDirectories (tree : FileTree) (path : SlashPath) :
    tree.Edits written (tree.makeDirectories path).2 := edits_makeWithin tree path _

theorem writeBytes_spec (h : tree.writeBytes path content = .ok after) :
    after = tree.insert (tree.placeOf path) (.file content) ∧
      tree.get? (tree.placeOf path) ≠ some .directory ∧ after.readBytes path = .ok content := by
  obtain ⟨slot, hslot, h⟩ := exists_of_bind h
  split at h
  · cases h
  rename_i name hname
  dsimp only at h
  split at h
  · cases h
  rename_i hfree
  obtain ⟨hslashed, hfree⟩ := not_or.mp hfree
  cases h
  obtain ⟨before, hempty, hsegments, hfollow, hdirectory, hne, hdot, hdots⟩ :=
    slot_spec hslot hname (Bool.eq_false_iff.mpr hslashed)
  have hplace : tree.placeOf path = slot.directory ++ [name] := by
    rw [FileTree.placeOf, hsegments, place_append, place_of_follow hfollow, place_name hne hdot hdots]
  have hwithin : tree.Within (tree.insert (slot.directory ++ [name]) (.file content)) :=
    within_insert hfree
  have hresolve : (tree.insert (slot.directory ++ [name]) (.file content)).resolve path =
      .ok (slot.directory ++ [name]) := by
    rw [resolve_eq_follow hempty, hwithin.start, hsegments, follow_append_iff]
    refine ⟨slot.directory, hwithin.follow hfollow, follow_cons_iff.mpr ⟨hwithin.directory _ hdirectory, ?_, ?_⟩⟩
    · intro _ _ _
      rw [get?_insert_self hfree]
      rfl
    · rw [place_name hne hdot hdots]
      rfl
  rw [hplace]
  exact ⟨rfl, hfree, readBytes_eq_ok_iff.mpr ⟨_, hresolve, get?_insert_self hfree⟩⟩

end Calls

end ReflectionTables.Trees
