import Mathlib.Data.List.Induction
import ReflectionTables.FileTrees
/-!
# Where paths lead

There are no links, so the place of a path can be told from its segments, and the nodes of the tree
only decide whether the path can be followed to it. A path keeps its place whatever is written, and
can be followed wherever it could be before.
-/

namespace ReflectionTables.Trees

def place (key : Key) : List String → Key
  | [] => key
  | segment :: segments =>
    if segment = "" ∨ segment = "." then place key segments
    else if segment = ".." then place key.dropLast segments
    else place (key ++ [segment]) segments

def FileTree.placeOf (tree : FileTree) (path : SlashPath) : Key :=
  place (tree.start path).1 (tree.start path).2

structure IsEntryName (name : String) : Prop where
  ne_empty : name ≠ ""
  ne_dot : name ≠ "."
  ne_dots : name ≠ ".."
  no_slash : '/' ∉ name.toList

instance (name : String) : Decidable (IsEntryName name) :=
  decidable_of_iff (name ≠ "" ∧ name ≠ "." ∧ name ≠ ".." ∧ '/' ∉ name.toList)
    ⟨fun ⟨h, h', h'', h'''⟩ => ⟨h, h', h'', h'''⟩, fun h => ⟨h.1, h.2, h.3, h.4⟩⟩

variable {tree after : FileTree} {key key' : Key} {name segment : String} {names segments : List String}
  {path : SlashPath}

theorem place_cons : place key (segment :: segments) = place (place key [segment]) segments := by
  simp only [place]
  split
  · rfl
  split <;> rfl

@[simp] theorem place_append (before after : List String) :
    place key (before ++ after) = place (place key before) after := by
  induction before generalizing key with
  | nil => rfl
  | cons segment before ih =>
    rw [List.cons_append, place_cons, ih, ← place_cons]

@[simp] theorem place_skip (h : segment = "" ∨ segment = ".") : place key [segment] = key := by
  simp only [place, if_pos h]

@[simp] theorem place_up : place key [".."] = key.dropLast := rfl

theorem place_name (hempty : name ≠ "") (hdot : name ≠ ".") (hdots : name ≠ "..") :
    place key [name] = key ++ [name] := by
  simp only [place, hempty, hdot, hdots, or_self, if_false]

@[simp] theorem place_names (h : ∀ name ∈ names, IsEntryName name) : place key names = key ++ names := by
  induction names generalizing key with
  | nil => exact (List.append_nil key).symm
  | cons name names ih =>
    have hname := h name List.mem_cons_self
    rw [place_cons, place_name hname.ne_empty hname.ne_dot hname.ne_dots,
      ih fun name hmem => h name (List.mem_cons_of_mem _ hmem), List.append_assoc, List.singleton_append]

/-- A segment is followed from a directory, and a name only to an entry. -/
theorem follow_cons_iff : tree.follow key (segment :: segments) = .ok key' ↔
    tree.get? key = some .directory ∧
    (segment ≠ "" → segment ≠ "." → segment ≠ ".." → (tree.get? (key ++ [segment])).isSome) ∧
    tree.follow (place key [segment]) segments = .ok key' := by
  rw [FileTree.follow]
  cases hnode : tree.get? key with
  | none => simp
  | some node =>
    cases node with
    | file content => simp
    | directory =>
      simp only [true_and]
      by_cases hskip : segment = "" ∨ segment = "."
      · rw [if_pos hskip, place_skip hskip]
        constructor
        · exact fun h => ⟨fun hempty hdot _ => (hskip.elim hempty hdot).elim, h⟩
        · exact fun h => h.2
      obtain ⟨hempty, hdot⟩ := not_or.mp hskip
      rw [if_neg hskip]
      by_cases hup : segment = ".."
      · subst hup
        simp
      rw [if_neg hup, place_name hempty hdot hup]
      cases tree.get? (key ++ [segment]) with
      | none => simp [hempty, hdot, hup]
      | some node => simp

theorem place_of_follow (h : tree.follow key segments = .ok key') : place key segments = key' := by
  induction segments generalizing key with
  | nil => cases h; rfl
  | cons segment segments ih =>
    rw [place_cons]
    exact ih (follow_cons_iff.mp h).2.2

theorem placeOf_of_resolve (h : tree.resolve path = .ok key) : tree.placeOf path = key := by
  rw [FileTree.resolve] at h
  split at h
  · cases h
  · exact place_of_follow h

theorem isEmpty_of_resolve (h : tree.resolve path = .ok key) : path.isEmpty = false := by
  rw [FileTree.resolve] at h
  split at h
  · cases h
  · rename_i hempty
    exact Bool.eq_false_iff.mpr hempty

theorem resolve_eq_follow (h : path.isEmpty = false) :
    tree.resolve path = tree.follow (tree.start path).1 (tree.start path).2 := by
  rw [FileTree.resolve, h]
  rfl

/-- To follow a list is to follow its first part and then its second one. -/
theorem follow_append_iff {before behind : List String} :
    tree.follow key (before ++ behind) = .ok key' ↔
      ∃ middle, tree.follow key before = .ok middle ∧ tree.follow middle behind = .ok key' := by
  induction before generalizing key with
  | nil =>
    constructor
    · exact fun h => ⟨key, rfl, h⟩
    · rintro ⟨middle, hmiddle, h⟩
      cases hmiddle
      exact h
  | cons segment before ih =>
    simp only [List.cons_append, follow_cons_iff, ih]
    constructor
    · rintro ⟨hdirectory, hentry, middle, hbefore, hbehind⟩
      exact ⟨middle, ⟨hdirectory, hentry, hbefore⟩, hbehind⟩
    · rintro ⟨middle, ⟨hdirectory, hentry, hbefore⟩, hbehind⟩
      exact ⟨hdirectory, hentry, middle, hbefore, hbehind⟩

/-- Whether whatever is in a tree is in another one, and its directories are directories. -/
structure FileTree.Within (tree after : FileTree) : Prop where
  cwd_eq : after.cwd = tree.cwd
  directory : ∀ key, tree.get? key = some .directory → after.get? key = some .directory
  isSome : ∀ key, (tree.get? key).isSome → (after.get? key).isSome

theorem FileTree.Within.refl (tree : FileTree) : tree.Within tree := ⟨rfl, fun _ h => h, fun _ h => h⟩

theorem FileTree.Within.trans {middle : FileTree} (h : tree.Within middle) (h' : middle.Within after) :
    tree.Within after :=
  ⟨h'.cwd_eq.trans h.cwd_eq, fun key hkey => h'.directory key (h.directory key hkey),
    fun key hkey => h'.isSome key (h.isSome key hkey)⟩

theorem FileTree.Within.start (h : tree.Within after) (path : SlashPath) :
    after.start path = tree.start path := by
  rw [FileTree.start, FileTree.start, h.cwd_eq]

theorem FileTree.Within.placeOf (h : tree.Within after) (path : SlashPath) :
    after.placeOf path = tree.placeOf path := by
  rw [FileTree.placeOf, FileTree.placeOf, h.start]

theorem FileTree.Within.follow (h : tree.Within after) (hkey : tree.follow key segments = .ok key') :
    after.follow key segments = .ok key' := by
  induction segments generalizing key with
  | nil => exact hkey
  | cons segment segments ih =>
    rw [follow_cons_iff] at hkey ⊢
    obtain ⟨hdirectory, hentry, hrest⟩ := hkey
    exact ⟨h.directory _ hdirectory, fun h₁ h₂ h₃ => h.isSome _ (hentry h₁ h₂ h₃), ih hrest⟩

/-- A path can still be followed where there is more to follow. -/
theorem FileTree.Within.resolve (h : tree.Within after) (hkey : tree.resolve path = .ok key) :
    after.resolve path = .ok key := by
  have hempty := isEmpty_of_resolve hkey
  rw [resolve_eq_follow hempty] at hkey ⊢
  rw [h.start]
  exact h.follow hkey

section Joins

variable {p q : SlashPath}

theorem isAbsolute_cons {first : String} {others : List String} :
    (SlashPath.mk (first :: others)).isAbsolute = true ↔ first = "" ∧ others ≠ [] := by
  simp [SlashPath.isAbsolute]

theorem isAbsolute_names (h : ∀ name ∈ names, IsEntryName name) :
    (SlashPath.mk names).isAbsolute = false := by
  cases names with
  | nil => rfl
  | cons name names =>
    have hname := (h name List.mem_cons_self).ne_empty
    simp [SlashPath.isAbsolute, hname]

theorem isEmpty_iff : p.isEmpty = true ↔ p.segments = [] ∨ p.segments = [""] := by
  obtain ⟨segments⟩ := p
  rw [SlashPath.isEmpty, SlashPath.text, beq_iff_eq, ← String.toList_inj, String.toList_intercalate]
  match segments with
  | [] => simp
  | [first] => simp [List.intercalate]
  | first :: second :: others => simp [List.intercalate]

theorem placeOf_cons (tree : FileTree) (first : String) (others : List String) :
    tree.placeOf ⟨first :: others⟩ =
      if first = "" ∧ others ≠ [] then place [] others else place tree.cwd (first :: others) := by
  rw [FileTree.placeOf, FileTree.start]
  by_cases habsolute : first = "" ∧ others ≠ []
  · rw [if_pos habsolute, if_pos (isAbsolute_cons.mpr habsolute), List.tail_cons]
  · rw [if_neg habsolute, if_neg (mt isAbsolute_cons.mp habsolute)]

/-- A slash at the end of the first part is not written twice. -/
theorem join_cons {first : String} {others : List String} (hrelative : q.isAbsolute = false)
    (hfirst : first ≠ "" ∨ others ≠ []) :
    ∃ kept, (SlashPath.mk (first :: others)).join q = ⟨first :: (kept ++ q.segments)⟩ ∧
      (others = kept ∨ others = kept ++ [""]) := by
  have hempty : ¬(SlashPath.mk (first :: others)).isEmpty = true := by
    rw [isEmpty_iff]
    rintro (hnil | hblank)
    · cases hnil
    · cases hblank
      exact hfirst.elim (absurd rfl) (absurd rfl)
  rw [SlashPath.join, if_neg (by simp [hrelative]), if_neg hempty]
  split
  · rename_i hlast
    cases others using List.reverseRecOn with
    | nil =>
      cases hlast
      exact hfirst.elim (absurd rfl) (absurd rfl)
    | append_singleton kept last =>
      obtain rfl : last = "" := by
        rw [← List.cons_append, List.getLast?_concat] at hlast
        exact Option.some.inj hlast
      exact ⟨kept, by rw [← List.cons_append, List.dropLast_concat, List.cons_append], .inr rfl⟩
  · exact ⟨others, rfl, .inl rfl⟩

/-- A joined path is the second part alone, or it begins as the first part does. -/
theorem join_cases (p : SlashPath) (hrelative : q.isAbsolute = false) (hq : q.segments ≠ []) :
    (p.segments = [] ∨ p.segments = [""]) ∧ p.join q = q ∨
      ∃ first others kept, p = ⟨first :: others⟩ ∧ p.join q = ⟨first :: (kept ++ q.segments)⟩ ∧
        (others = kept ∨ others = kept ++ [""]) ∧ (p.join q).isAbsolute = p.isAbsolute := by
  by_cases hempty : p.isEmpty = true
  · left
    constructor
    · exact isEmpty_iff.mp hempty
    · rw [SlashPath.join, if_neg (by simp [hrelative]), if_pos hempty]
  · right
    obtain ⟨segments⟩ := p
    obtain ⟨hnil, hblank⟩ := not_or.mp (mt isEmpty_iff.mpr hempty)
    obtain ⟨first, others, rfl⟩ := List.exists_cons_of_ne_nil hnil
    have hfirst : first ≠ "" ∨ others ≠ [] := by
      by_contra hnone
      obtain ⟨hfirst, hothers⟩ := not_or.mp hnone
      rw [not_not.mp hfirst, not_not.mp hothers] at hblank
      exact hblank rfl
    obtain ⟨kept, hjoin, hkept⟩ := join_cons hrelative hfirst
    refine ⟨first, others, kept, rfl, hjoin, hkept, ?_⟩
    rw [hjoin, Bool.eq_iff_iff, isAbsolute_cons, isAbsolute_cons]
    apply and_congr_right
    intro hblank
    simp [hq, hfirst.resolve_left (not_not_intro hblank)]

/-- A joined path leads on from where its first part leads. -/
theorem placeOf_join (hrelative : q.isAbsolute = false) (hq : q.segments ≠ []) :
    tree.placeOf (p.join q) = place (tree.placeOf p) q.segments := by
  obtain ⟨hblank, hjoin⟩ | ⟨first, others, kept, rfl, hjoin, hkept, habsolute⟩ := join_cases p hrelative hq
  · have hplace : tree.placeOf p = tree.cwd := by
      obtain ⟨segments⟩ := p
      obtain rfl | rfl := hblank
      · rfl
      · rfl
    rw [hjoin, hplace, FileTree.placeOf, FileTree.start, hrelative]
    rfl
  · have hplace : ∀ key, place key kept = place key others := by
      intro key
      obtain rfl | rfl := hkept
      · rfl
      · rw [place_append, place_skip (.inl rfl)]
    rw [FileTree.placeOf, FileTree.placeOf, FileTree.start, FileTree.start, habsolute, hjoin]
    split
    · rw [List.tail_cons, List.tail_cons, place_append, hplace]
    · dsimp only
      rw [place_cons, place_append, hplace, ← place_cons]

/-- The segments of the second part stand at the end of a joined path. -/
theorem exists_segments_join : ∃ before, (p.join q).segments = before ++ q.segments := by
  rw [SlashPath.join]
  split
  · exact ⟨[], rfl⟩
  split
  · exact ⟨[], rfl⟩
  split
  · exact ⟨_, rfl⟩
  · exact ⟨_, rfl⟩

end Joins

end ReflectionTables.Trees
