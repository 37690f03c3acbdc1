import ReflectionTables.Proofs.AggregateTexts
import ReflectionTables.Proofs.ArtifactPaths
import ReflectionTables.Proofs.CleanFailures
import ReflectionTables.Proofs.TreeEdits
/-!
# What a run writes

A text is written unless its path reads as that text already, and each step of a run edits the tree
at one place: that of an artifact, or that of the aggregate. A run that fails has made a part of
these edits.
-/

namespace ReflectionTables.Trees

open Text Reflected Generation

variable {tree after : FileTree} {path : SlashPath} {content text : String} {bytes : List UInt8}
  {settings : Settings} {written count : Nat} {aggregate total : Aggregate} {changed : Bool}
  {failure : RunFailure} {pairs : List (ChosenFile × FileOutput)}

theorem textOf?_eq_some_iff : textOf? bytes = some text ↔ bytes = bytesOf text := by
  rw [textOf?, String.fromUTF8?]
  constructor
  · intro h
    split at h
    · cases h
      rfl
    · cases h
  · rintro rfl
    have hvalid : (ByteArray.mk (bytesOf text).toArray).IsValidUTF8 := text.isValidUTF8
    rw [dif_pos hvalid]
    rfl

theorem readText_eq_ok_iff : tree.readText path = .ok text ↔ tree.readBytes path = .ok (bytesOf text) := by
  rw [FileTree.readText]
  cases tree.readBytes path with
  | error e =>
    constructor <;> intro h <;> cases h
  | ok bytes =>
    have htext : textOf? bytes = some text ↔ bytes = bytesOf text := textOf?_eq_some_iff
    dsimp only
    cases hbytes : textOf? bytes with
    | none =>
      rw [hbytes] at htext
      simp only [reduceCtorEq, false_iff] at htext
      simp [htext]
    | some text' =>
      rw [hbytes, Option.some.injEq] at htext
      simp [htext]

/-- Whether a file that holds a text stands where a path leads. -/
def FileTree.Holds (tree : FileTree) (path : SlashPath) (text : String) : Prop :=
  tree.get? (tree.placeOf path) = some (.file (bytesOf text))

instance (tree : FileTree) (path : SlashPath) (text : String) : Decidable (tree.Holds path text) :=
  inferInstanceAs (Decidable (_ = _))

theorem holds_of_readText (h : tree.readText path = .ok text) : tree.Holds path text :=
  get?_placeOf_of_readBytes (readText_eq_ok_iff.mp h)

theorem FileTree.Edits.readText {written : Key → Prop} (h : tree.Edits written after)
    (hplace : ¬written (tree.placeOf path)) (hread : tree.readText path = .ok text) :
    after.readText path = .ok text :=
  readText_eq_ok_iff.mpr (h.readBytes hplace (readText_eq_ok_iff.mp hread))

section Actions

variable {α : Type} (next : FileTree → TreeAction α)

@[simp] theorem run_get_bind : (get >>= next).run tree = (next tree).run tree := rfl

@[simp] theorem run_pure (a : α) : (pure a : TreeAction α).run tree = (.ok a, tree) := rfl

/-- An action goes on from the tree that the one before it has left, unless that failed. -/
theorem run_bind {β : Type} (action : TreeAction β) (next : β → TreeAction α) :
    (action >>= next).run tree =
      match action.run tree with
      | (.ok b, after) => (next b).run after
      | (.error failure, after) => (.error failure, after) := by
  change (match action.run tree with
    | (answer, after) => (ExceptT.bindCont next answer : StateM FileTree _) after) = _
  generalize action.run tree = result
  obtain ⟨answer, after⟩ := result
  cases answer <;> rfl

end Actions

def writeHere (path : SlashPath) (content : String) : TreeAction Bool := do
  match (← get).writeBytes path (bytesOf content) with
  | .ok tree =>
    set tree
    return true
  | .error e => throw (.system path (.system e))

def writeAnew (path : SlashPath) (content : String) : TreeAction Bool := do
  if let some parent := path.parent? then
    let (answer, tree) := (← get).makeDirectories parent
    set tree
    if let .error e := answer then throw (.system path (.system e))
  writeHere path content

theorem writeIfChanged_eq (path : SlashPath) (content : String) : writeIfChanged path content =
    get >>= fun tree =>
      match tree.readText path with
      | .ok existing => if existing = content then pure false else writeAnew path content
      | .error _ => writeAnew path content := by
  unfold writeIfChanged writeAnew
  congr 1
  funext tree
  cases tree.readText path <;> rfl

theorem run_writeIfChanged_of_readText (h : tree.readText path = .ok content) :
    (writeIfChanged path content).run tree = (.ok false, tree) := by
  rw [writeIfChanged_eq, run_get_bind, h]
  dsimp only
  rw [if_pos rfl, run_pure]

theorem run_writeIfChanged_of_ne (h : tree.readText path ≠ .ok content) :
    (writeIfChanged path content).run tree = (writeAnew path content).run tree := by
  rw [writeIfChanged_eq, run_get_bind]
  cases hread : tree.readText path with
  | error fault => rfl
  | ok existing =>
    dsimp only
    rw [if_neg]
    rintro rfl
    exact h hread

/-- Directories are made on the way to a file, as far as that goes, and then the file is written. -/
theorem run_writeAnew (path : SlashPath) (content : String) (tree : FileTree) :
    ∃ made, tree.Edits (fun _ => False) made ∧
      ((∃ failure, (writeAnew path content).run tree = (.error failure, made)) ∨
        (writeAnew path content).run tree = (writeHere path content).run made) := by
  unfold writeAnew
  cases hparent : path.parent? with
  | none => exact ⟨tree, .nothing, .inr rfl⟩
  | some parent =>
    have hmade : tree.Edits (fun _ => False) (tree.makeDirectories parent).2 :=
      edits_makeDirectories tree parent
    dsimp only
    rw [run_get_bind]
    cases hanswer : tree.makeDirectories parent with
    | mk answer made =>
      rw [hanswer] at hmade
      cases answer with
      | ok _ => exact ⟨made, hmade, .inr rfl⟩
      | error e => exact ⟨made, hmade, .inl ⟨_, rfl⟩⟩

theorem run_writeHere (path : SlashPath) (content : String) (tree : FileTree) :
    (∃ failure, (writeHere path content).run tree = (.error failure, tree)) ∨
      ∃ after, tree.writeBytes path (bytesOf content) = .ok after ∧
        (writeHere path content).run tree = (.ok true, after) := by
  unfold writeHere
  rw [run_get_bind]
  cases hwrite : tree.writeBytes path (bytesOf content) with
  | ok after => exact .inr ⟨after, rfl, rfl⟩
  | error e => exact .inl ⟨_, rfl⟩

/-- What a write leaves: the directories that were made, and the file if it was written. -/
theorem writeAnew_cases (path : SlashPath) (content : String) (tree : FileTree) :
    ∃ made, tree.Edits (fun _ => False) made ∧
      ((∃ failure, (writeAnew path content).run tree = (.error failure, made)) ∨
        ∃ after, made.writeBytes path (bytesOf content) = .ok after ∧
          (writeAnew path content).run tree = (.ok true, after)) := by
  obtain ⟨made, hmade, hfailed | hrun⟩ := run_writeAnew path content tree
  · exact ⟨made, hmade, .inl hfailed⟩
  · rw [hrun]
    exact ⟨made, hmade, run_writeHere path content made⟩

theorem edits_writeIfChanged (path : SlashPath) (content : String) (tree : FileTree) :
    tree.Edits (· = tree.placeOf path) ((writeIfChanged path content).run tree).2 := by
  by_cases hread : tree.readText path = .ok content
  · rw [run_writeIfChanged_of_readText hread]
    exact .nothing
  · rw [run_writeIfChanged_of_ne hread]
    obtain ⟨made, hmade, ⟨failure, hrun⟩ | ⟨after, hwrite, hrun⟩⟩ := writeAnew_cases path content tree
    · rw [hrun]
      exact hmade.mono fun _ => False.elim
    · obtain ⟨rfl, hfree, -⟩ := writeBytes_spec hwrite
      rw [hrun, hmade.within.placeOf]
      rw [hmade.within.placeOf] at hfree
      exact .file (hmade.mono fun _ => False.elim) rfl hfree

/-- A text that was written can be read, and the answer tells whether it could be read before. -/
theorem readText_of_writeIfChanged (h : (writeIfChanged path content).run tree = (.ok changed, after)) :
    after.readText path = .ok content ∧ (changed = false ↔ tree.readText path = .ok content) := by
  by_cases hread : tree.readText path = .ok content
  · rw [run_writeIfChanged_of_readText hread] at h
    cases h
    exact ⟨hread, iff_of_true rfl hread⟩
  · rw [run_writeIfChanged_of_ne hread] at h
    obtain ⟨made, -, ⟨failure, hrun⟩ | ⟨tree', hwrite, hrun⟩⟩ := writeAnew_cases path content tree
    · cases hrun.symm.trans h
    · cases hrun.symm.trans h
      exact ⟨readText_eq_ok_iff.mpr (writeBytes_spec hwrite).2.2, iff_of_false (by simp) hread⟩

/-- If a text that is in its place can be read there, the answer tells whether another one was. -/
theorem changed_of_writeIfChanged (h : (writeIfChanged path content).run tree = (.ok changed, after))
    (hread : tree.Holds path content → tree.readText path = .ok content) :
    changed.toNat = if tree.Holds path content then 0 else 1 := by
  have hiff := (readText_of_writeIfChanged h).2
  by_cases hholds : tree.Holds path content
  · rw [if_pos hholds, hiff.mpr (hread hholds)]
    rfl
  · have hchanged : changed = true :=
      Bool.of_not_eq_false fun hfalse => hholds (holds_of_readText (hiff.mp hfalse))
    rw [if_neg hholds, hchanged]
    rfl

/-- The outputs of some files, with the texts by which the aggregate includes their artifacts. -/
def Settings.included (settings : Settings) (pairs : List (ChosenFile × FileOutput)) :
    List (FileOutput × String) :=
  pairs.map fun (file, output) => (output, settings.includePath (settings.artifactOf file))

def Settings.PutsAt (settings : Settings) (tree : FileTree) (files : List ChosenFile) (key : Key) : Prop :=
  ∃ file ∈ files, key = tree.placeOf (settings.artifactOf file)

theorem run_writeArtifacts_cons (file : ChosenFile) (output : FileOutput) :
    (writeArtifacts settings ((file, output) :: pairs) count aggregate).run tree =
      match (writeIfChanged (settings.artifactOf file) output.text).run tree with
      | (.ok changed, after) =>
        (writeArtifacts settings pairs (count + changed.toNat)
          (aggregate.add output (settings.includePath (settings.artifactOf file)))).run after
      | (.error failure, after) => (.error failure, after) := by
  have hbind : writeArtifacts settings ((file, output) :: pairs) count aggregate =
      (writeIfChanged (settings.artifactOf file) output.text >>= fun changed =>
        writeArtifacts settings pairs (count + changed.toNat)
          (aggregate.add output (settings.includePath (settings.artifactOf file)))) := rfl
  rw [hbind, run_bind]
  generalize (writeIfChanged (settings.artifactOf file) output.text).run tree = result
  obtain ⟨answer, after⟩ := result
  cases answer <;> rfl

/-- Whether or not all artifacts could be written, nothing else was. -/
theorem edits_writeArtifacts (pairs : List (ChosenFile × FileOutput)) (count : Nat) (aggregate : Aggregate)
    (tree : FileTree) :
    tree.Edits (settings.PutsAt tree (pairs.map Prod.fst))
      ((writeArtifacts settings pairs count aggregate).run tree).2 := by
  induction pairs generalizing count aggregate tree with
  | nil => exact .nothing
  | cons pair pairs ih =>
    obtain ⟨file, output⟩ := pair
    have hfirst := edits_writeIfChanged (settings.artifactOf file) output.text tree
    rw [run_writeArtifacts_cons]
    generalize (writeIfChanged (settings.artifactOf file) output.text).run tree = result at hfirst ⊢
    obtain ⟨answer, after⟩ := result
    have hfirst' : tree.Edits (settings.PutsAt tree (file :: pairs.map Prod.fst)) after :=
      hfirst.mono fun key hkey => ⟨file, List.mem_cons_self, hkey⟩
    cases answer with
    | error failure => exact hfirst'
    | ok changed =>
      refine hfirst'.trans ((ih _ _ after).mono ?_)
      rintro key ⟨other, hother, rfl⟩
      exact ⟨other, List.mem_cons_of_mem _ hother, hfirst.within.placeOf _⟩

theorem FileTree.Edits.of_writeArtifacts {total : Nat} {sum : Aggregate}
    (h : (writeArtifacts settings pairs count aggregate).run tree = (.ok (total, sum), after)) :
    tree.Edits (settings.PutsAt tree (pairs.map Prod.fst)) after := by
  have hedits : tree.Edits (settings.PutsAt tree (pairs.map Prod.fst))
      ((writeArtifacts settings pairs count aggregate).run tree).2 :=
    edits_writeArtifacts pairs count aggregate tree
  rwa [h] at hedits

theorem exists_of_writeArtifacts_cons {file : ChosenFile} {output : FileOutput} {total : Nat}
    {sum : Aggregate}
    (h : (writeArtifacts settings ((file, output) :: pairs) count aggregate).run tree =
      (.ok (total, sum), after)) :
    ∃ changed middle,
      (writeIfChanged (settings.artifactOf file) output.text).run tree = (.ok changed, middle) ∧
      (writeArtifacts settings pairs (count + changed.toNat)
        (aggregate.add output (settings.includePath (settings.artifactOf file)))).run middle =
          (.ok (total, sum), after) := by
  rw [run_writeArtifacts_cons] at h
  split at h
  · rename_i changed middle hfirst
    exact ⟨changed, middle, hfirst, h⟩
  · cases h

theorem aggregate_of_writeArtifacts {total : Nat} {sum : Aggregate}
    (h : (writeArtifacts settings pairs count aggregate).run tree = (.ok (total, sum), after)) :
    sum = aggregate.addAll (settings.included pairs) := by
  induction pairs generalizing count aggregate tree with
  | nil =>
    cases h
    rfl
  | cons pair pairs ih =>
    obtain ⟨changed, middle, -, hrest⟩ := exists_of_writeArtifacts_cons h
    exact ih hrest

/-- An artifact holds its text if none of the later ones goes to the same place. -/
theorem readText_of_writeArtifacts {before later : List (ChosenFile × FileOutput)} {file : ChosenFile}
    {output : FileOutput} {total : Nat} {sum : Aggregate}
    (h : (writeArtifacts settings (before ++ (file, output) :: later) count aggregate).run tree =
      (.ok (total, sum), after))
    (hlater : ∀ other ∈ later.map Prod.fst,
      tree.placeOf (settings.artifactOf other) ≠ tree.placeOf (settings.artifactOf file)) :
    after.readText (settings.artifactOf file) = .ok output.text := by
  induction before generalizing count aggregate tree with
  | nil =>
    obtain ⟨changed, middle, hfirst, hrest⟩ := exists_of_writeArtifacts_cons h
    have hwithin := (edits_writeIfChanged (settings.artifactOf file) output.text tree).within
    rw [hfirst] at hwithin
    apply (FileTree.Edits.of_writeArtifacts hrest).readText _ (readText_of_writeIfChanged hfirst).1
    rintro ⟨other, hother, hplace⟩
    rw [hwithin.placeOf, hwithin.placeOf] at hplace
    exact hlater other hother hplace.symm
  | cons pair before ih =>
    obtain ⟨changed, middle, hfirst, hrest⟩ := exists_of_writeArtifacts_cons h
    have hwithin := (edits_writeIfChanged (settings.artifactOf pair.1) pair.2.text tree).within
    rw [hfirst] at hwithin
    apply ih hrest
    intro other hother
    rw [hwithin.placeOf, hwithin.placeOf]
    exact hlater other hother

theorem run_writeArtifacts_of_readText
    (h : ∀ pair ∈ pairs, tree.readText (settings.artifactOf pair.1) = .ok pair.2.text) :
    (writeArtifacts settings pairs count aggregate).run tree =
      (.ok (count, aggregate.addAll (settings.included pairs)), tree) := by
  induction pairs generalizing count aggregate with
  | nil => rfl
  | cons pair pairs ih =>
    rw [run_writeArtifacts_cons, run_writeIfChanged_of_readText (h pair List.mem_cons_self)]
    exact ih fun pair hpair => h pair (List.mem_cons_of_mem _ hpair)

theorem FileTree.Edits.holds_iff {written : Key → Prop} (h : tree.Edits written after)
    (hplace : ¬written (tree.placeOf path)) : after.Holds path text ↔ tree.Holds path text := by
  rw [FileTree.Holds, FileTree.Holds, h.within.placeOf]
  exact ⟨h.get?_of_file hplace, h.get?_eq hplace⟩

/-- The number of texts that were written is that of the places which did not hold theirs, as far as each
text that is there can also be read by its path. -/
theorem count_of_writeArtifacts {total : Nat} {sum : Aggregate}
    (h : (writeArtifacts settings pairs count aggregate).run tree = (.ok (total, sum), after))
    (hdistinct : (pairs.map fun pair => tree.placeOf (settings.artifactOf pair.1)).Nodup)
    (hread : ∀ pair ∈ pairs, tree.Holds (settings.artifactOf pair.1) pair.2.text →
      tree.readText (settings.artifactOf pair.1) = .ok pair.2.text) :
    total = count + pairs.countP fun pair => !tree.Holds (settings.artifactOf pair.1) pair.2.text := by
  induction pairs generalizing count aggregate tree with
  | nil =>
    cases h
    rfl
  | cons pair pairs ih =>
    obtain ⟨changed, middle, hfirst, hrest⟩ := exists_of_writeArtifacts_cons h
    have hedits := edits_writeIfChanged (settings.artifactOf pair.1) pair.2.text tree
    rw [hfirst] at hedits
    obtain ⟨hfresh, hdistinct⟩ := List.nodup_cons.mp hdistinct
    have hother : ∀ other ∈ pairs, tree.placeOf (settings.artifactOf other.1) ≠
        tree.placeOf (settings.artifactOf pair.1) :=
      fun other hmem heq => hfresh (List.mem_map.mpr ⟨other, hmem, heq⟩)
    have hholds : ∀ other ∈ pairs, (middle.Holds (settings.artifactOf other.1) other.2.text ↔
        tree.Holds (settings.artifactOf other.1) other.2.text) :=
      fun other hmem => hedits.holds_iff (hother other hmem)
    have hchanged := changed_of_writeIfChanged hfirst (hread pair List.mem_cons_self)
    have hcount := ih hrest
      (by simpa only [hedits.within.placeOf] using hdistinct)
      fun other hmem hsame => hedits.readText (hother other hmem)
        (hread other (List.mem_cons_of_mem _ hmem) ((hholds other hmem).mp hsame))
    rw [hcount, List.countP_cons, hchanged]
    have hrest' : pairs.countP (fun other => !middle.Holds (settings.artifactOf other.1) other.2.text) =
        pairs.countP fun other => !tree.Holds (settings.artifactOf other.1) other.2.text :=
      List.countP_congr fun other hmem => by simp [hholds other hmem]
    rw [hrest']
    by_cases hsame : tree.Holds (settings.artifactOf pair.1) pair.2.text
    · simp [hsame]
    · simp [hsame]
      omega

end ReflectionTables.Trees
