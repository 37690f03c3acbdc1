import ReflectionTables.Proofs.CollapsedTexts
import ReflectionTables.Proofs.FreeDeclarations
/-!
# Announced declarations of an implementation file

Every variable and every function of an implementation file is announced, in the order in which they
are declared. A text reads as the declaration does, if nothing but blanks stands where the announced
text could go further than the declaration.
-/

namespace ReflectionTables.Parsing

open Text Scanning Reflected Parsing.Parser

def onlyBlanks (text : String) (start stop : Nat) : Bool :=
  (slice? text start stop).any fun gap => gap.toList.all isBlank

/-- A declaration of an implementation file that is announced. -/
inductive SourceDeclaration
  | ofVariables (d : VariableDeclaration)
  | ofFunction (d : FunctionDeclaration)

namespace SourceDeclaration

def tokens : SourceDeclaration → List Token
  | .ofVariables d => d.tokens
  | .ofFunction d => d.tokens

def announced (text : String) : SourceDeclaration → List String
  | .ofVariables d => d.announced text
  | .ofFunction d => [shownText text d.shown]

/-- The variables or the function that a declaration declares, each as it is declared. -/
def externs (text : String) : SourceDeclaration → List String
  | .ofVariables d => shownText text (d.type.tokens ++ d.first.shown) ::
      VariableDeclaration.laterAnnounced text (shownText text d.type.tokens) d.more
  | .ofFunction d => [shownText text d.shown]

/-- Whether nothing but blanks stands behind the first variable of a declaration and, if there are
more, between its type and that variable. -/
def SetOff (text : String) : SourceDeclaration → Prop
  | .ofVariables d =>
    onlyBlanks text (stopOf (d.type.tokens ++ d.first.shown)) (startOf d.behindFirst) = true ∧
      (d.more ≠ [] → onlyBlanks text (stopOf d.type.tokens) (startOf d.first.shown) = true)
  | .ofFunction _ => True

end SourceDeclaration

/-- The declarations of an implementation file and its tokens. Declarations may stand in named
namespaces. -/
inductive SourceItems : List SourceDeclaration → List Token → Prop
  | nil : SourceItems [] []
  | declaration {ds : List SourceDeclaration} {ts : List Token} (d : SourceDeclaration)
      (hrest : SourceItems ds ts) : SourceItems (d :: ds) (d.tokens ++ ts)
  | namespaceBlock {ds ds' : List SourceDeclaration} {inner ts : List Token} {word : Token}
      (name : TokenOf .ident) (opening : TokenOf .lBrace) (closing : TokenOf .rBrace)
      (hword : word.reserved? = some .namespaceWord) (hinner : SourceItems ds inner)
      (hrest : SourceItems ds' ts) :
      SourceItems (ds ++ ds') (word :: name.val :: opening.val :: (inner ++ closing.val :: ts))

variable {text : String} {c : Reading text} {us ts rest : List Token} {P : Standing} {t first : Token}
  {ds : List SourceDeclaration}

/-- Blanks behind a span of the text make no difference. -/
theorem collapsedSlice_eq {start stop stop' : Nat} (hstart : IsBoundary text start)
    (hle : start ≤ stop) (h : onlyBlanks text stop stop' = true) :
    collapsedSlice text start stop' = collapsedSlice text start stop := by
  rw [onlyBlanks, Option.any_eq_true] at h
  obtain ⟨gap, hgap, hblanks⟩ := h
  obtain ⟨hle', hstop, hstop', hbytes⟩ := slice?_eq_some_iff.1 hgap
  obtain ⟨piece, hpiece⟩ := Option.ne_none_iff_exists'.1 (slice?_ne_none_iff.2 ⟨hle, hstart, hstop⟩)
  have hwhole : slice? text start stop' = some (piece ++ gap) := by
    refine slice?_eq_some_iff.2 ⟨Nat.le_trans hle hle', hstart, hstop', ?_⟩
    have htake : (bytesOf text).take stop = ((bytesOf text).take stop').take stop := by
      rw [List.take_take, Nat.min_eq_left hle']
    have hstop : stop = start + (stop - start) := (Nat.add_sub_cancel' hle).symm
    rw [bytesOf_append, (slice?_eq_some_iff.1 hpiece).2.2.2, hbytes, htake, List.drop_take]
    conv => enter [1, 2]; rw [hstop, ← List.drop_drop]
    rw [List.take_append_drop]
  rw [collapsedSlice, collapsedSlice, hwhole, hpiece, Option.getD_some, Option.getD_some]
  exact collapse_append_blanks fun c hc => List.all_eq_true.1 hblanks c hc

theorem SourceItems.sublist {d : SourceDeclaration} (h : SourceItems ds ts) (hd : d ∈ ds) :
    List.Sublist d.tokens ts := by
  induction h with
  | nil => cases hd
  | @declaration ds ts d' _ ih =>
    rcases List.mem_cons.1 hd with rfl | hd
    · exact List.sublist_append_left _ _
    · exact (ih hd).trans (List.sublist_append_right _ _)
  | @namespaceBlock ds ds' inner ts word name opening closing _ _ _ ihinner ih =>
    have hinner : List.Sublist inner (inner ++ closing.val :: ts) := List.sublist_append_left _ _
    have hrest : List.Sublist ts (inner ++ closing.val :: ts) :=
      (List.sublist_cons_self _ _).trans (List.sublist_append_right _ _)
    refine List.Sublist.cons _ (List.Sublist.cons _ (List.Sublist.cons _ ?_))
    rcases List.mem_append.1 hd with hd | hd
    · exact (ihinner hd).trans hinner
    · exact (ih hd).trans hrest

theorem isBoundary_startOf (h : ∀ t ∈ ts, t.StandsIn text) : IsBoundary text (startOf ts) := by
  cases ts with
  | nil => exact String.Pos.Raw.isValid_zero
  | cons t ts => exact (slice?_eq_some_iff.1 (h t List.mem_cons_self).isCut).2.1

theorem startOf_le_stopOf (h : ts.Pairwise fun t u => t.stop ≤ u.offset) : startOf ts ≤ stopOf ts := by
  cases ts with
  | nil => exact Nat.le_refl _
  | cons t ts =>
    rw [startOf_cons, stopOf, List.getLast?_eq_some_getLast (List.cons_ne_nil t ts), Option.map_some,
      Option.getD_some]
    rcases List.mem_cons.1 (List.getLast_mem (List.cons_ne_nil t ts)) with hlast | hlast
    · rw [hlast]
      exact Nat.le_add_right _ _
    · have hle := (List.pairwise_cons.1 h).1 _ hlast
      exact Nat.le_trans (Nat.le_add_right _ _) (Nat.le_trans hle (Nat.le_add_right _ _))

/-- A text that goes on over blanks reads as its tokens do. -/
theorem collapsedSlice_eq_shownText {stop : Nat} (hstands : ∀ t ∈ ts, t.StandsIn text)
    (hpair : ts.Pairwise fun t u => t.stop ≤ u.offset) (h : onlyBlanks text (stopOf ts) stop = true) :
    collapsedSlice text (startOf ts) stop = shownText text ts :=
  collapsedSlice_eq (isBoundary_startOf hstands) (startOf_le_stopOf hpair) h

theorem SourceDeclaration.announced_eq (d : SourceDeclaration) (hstands : ∀ t ∈ d.tokens, t.StandsIn text)
    (hpair : d.tokens.Pairwise fun t u => t.stop ≤ u.offset) (hsetOff : d.SetOff text) :
    d.announced text = d.externs text := by
  cases d with
  | ofFunction d => rfl
  | ofVariables d =>
    have htype : d.type.tokens ≠ [] := by simp [TypeWords.tokens, TypeWords.words, TypeWord.tokens]
    have hstart : startOf d.tokens = startOf (d.type.tokens ++ d.first.shown) :=
      startOf_append (by simp [htype])
    have hstart' : startOf d.tokens = startOf d.type.tokens := hstart.trans (startOf_append htype)
    have hshown : List.Sublist (d.type.tokens ++ d.first.shown) d.tokens :=
      List.sublist_append_left _ _
    have hwords : List.Sublist d.type.tokens d.tokens := (List.sublist_append_left _ _).trans hshown
    have hfirst : collapsedSlice text (startOf d.tokens) (startOf d.behindFirst) =
        shownText text (d.type.tokens ++ d.first.shown) := by
      rw [hstart]
      exact collapsedSlice_eq_shownText (fun t ht => hstands t (hshown.subset ht)) (hpair.sublist hshown)
        hsetOff.1
    rw [announced, externs, VariableDeclaration.announced, hfirst]
    by_cases hmore : d.more = []
    · rw [hmore]
      rfl
    · rw [hstart', collapsedSlice_eq_shownText (fun t ht => hstands t (hwords.subset ht))
        (hpair.sublist hwords) (hsetOff.2 hmore)]

/-- A declaration begins with the first word of its type. -/
theorem SourceDeclaration.exists_first (d : SourceDeclaration) : ∃ (name : PlainName) (rest : List Token),
    d.tokens = name.token :: rest ∧ isQualified name.token = false := by
  cases d with
  | ofVariables d =>
    exact ⟨d.type.first.name, _, rfl, d.unqualified _ (by simp [TypeWords.words])⟩
  | ofFunction d =>
    exact ⟨d.type.first.name, _, rfl, d.unqualified _ (by simp [TypeWords.words])⟩

theorem yields_sourceDeclaration (d : SourceDeclaration) (hrole : P.role = .source)
    (hc : c.Stands (d.tokens ++ us) P) {Q : Unit → Reading text → Prop}
    (hrest : ∀ c', c'.Stands us (P.announcing (d.announced text)) → fileItems.Yields Q c') :
    fileItems.Yields Q c := by
  rw [fileItems]
  refine yields_loop fun again hagain => ?_
  obtain ⟨name, rest, hfirst, hname⟩ := d.exists_first
  have heq : d.tokens ++ us = name.token :: (rest ++ us) := by rw [hfirst, List.cons_append]
  rw [heq] at hc
  refine (readsOne_nextOrEnd c _ _ P hc).bind ?_
  rintro _ c₁ ⟨rfl, h₁⟩
  rw [if_neg (by simp [name.isIdent])]
  have hdeclaration : (freeDeclaration name.token name.token).Yields
      (fun _ c' => c'.Stands us (P.announcing (d.announced text))) c₁ := by
    cases d with
    | ofVariables d => exact yields_freeVariables d hrole heq h₁
    | ofFunction d => exact yields_freeFunction d hrole heq h₁
  simp only [fileItem, name.isIdent, namedItem, name.unreserved, hname]
  exact hdeclaration.bind fun _ c₂ h₂ => hagain c₂ Q (hrest c₂ h₂)

theorem yields_namespaceItem (name : TokenOf .ident) (opening : TokenOf .lBrace)
    (hc : c.Stands (name.val :: opening.val :: us) P) :
    namespaceItem.Yields (fun _ c' => c'.Stands us (P.entered name.val.text)) c := by
  rw [namespaceItem]
  refine (passes_next (by rw [name.property]; rfl) c _ P hc).bind ?_
  rintro _ c₁ ⟨rfl, h₁⟩
  rw [if_neg (by simp [name.property]), if_neg (by simp [name.property])]
  refine (readsOne_next c₁ _ _ P h₁).bind ?_
  rintro _ c₂ ⟨rfl, h₂⟩
  simp only [opening.property]
  exact yields_enter (h₂.opened opening.property) (h₂.depth_of_lBrace opening.property)

theorem yields_namespaceStart {word : Token} (name : TokenOf .ident) (opening : TokenOf .lBrace)
    (hword : word.reserved? = some .namespaceWord)
    (hc : c.Stands (word :: name.val :: opening.val :: us) P) {Q : Unit → Reading text → Prop}
    (hrest : ∀ c', c'.Stands us (P.entered name.val.text) → fileItems.Yields Q c') :
    fileItems.Yields Q c := by
  have hident := Token.kind_of_reserved? hword
  rw [fileItems]
  refine yields_loop fun again hagain => ?_
  refine (passes_nextOrEnd (by rw [hident]; rfl) c _ P hc).bind ?_
  rintro _ c₁ ⟨rfl, h₁⟩
  rw [if_neg (by simp [hident])]
  simp only [fileItem, hident, namedItem, hword]
  exact (yields_namespaceItem name opening h₁).bind fun _ c₂ h₂ => hagain c₂ Q (hrest c₂ h₂)

/-- The brace behind the items of a namespace leads back to the place before it. -/
theorem yields_namespaceEnd {segment : String} (closing : TokenOf .rBrace)
    (hscopes : ∀ s ∈ P.scopes, s.depth < P.depth) (hc : c.Stands (closing.val :: us) (P.entered segment))
    {Q : Unit → Reading text → Prop} (hrest : ∀ c', c'.Stands us P → fileItems.Yields Q c') :
    fileItems.Yields Q c := by
  rw [fileItems]
  refine yields_loop fun again hagain => ?_
  have hbehind := hc.behind_of_rBrace [⟨segment, P.depth⟩] closing.property rfl rfl (by simp) hscopes
  refine (yields_nextOrEnd hc).bind ?_
  rintro _ c₁ ⟨rfl, h₁⟩
  rw [hbehind.2] at h₁
  rw [if_neg (by simp [closing.property])]
  simp only [fileItem, closing.property]
  exact hagain c₁ Q (hrest c₁ h₁)

theorem yields_sourceItems (h : SourceItems ds ts) (hrole : P.role = .source)
    (hc : c.Stands (ts ++ us) P) {Q : Unit → Reading text → Prop}
    (hrest : ∀ c', c'.Stands us (P.announcing (ds.flatMap (·.announced text))) → fileItems.Yields Q c') :
    fileItems.Yields Q c := by
  induction h generalizing c us P with
  | nil => exact hrest c (by simpa [Standing.announcing] using hc)
  | @declaration ds ts d _ ih =>
    rw [List.append_assoc] at hc
    refine yields_sourceDeclaration d hrole hc fun c₁ h₁ => ?_
    refine ih (P := P.announcing _) hrole h₁ fun c₂ h₂ => hrest c₂ ?_
    rwa [Standing.announcing_announcing] at h₂
  | @namespaceBlock ds ds' inner ts word name opening closing hword _ _ ihinner ih =>
    have hscopes := hc.scopes_lt
    rw [List.cons_append, List.cons_append, List.cons_append, List.append_assoc, List.cons_append] at hc
    refine yields_namespaceStart name opening hword hc fun c₁ h₁ => ?_
    refine ihinner (P := P.entered _) hrole h₁ fun c₂ h₂ => ?_
    refine yields_namespaceEnd (P := P.announcing _) closing hscopes h₂ fun c₃ h₃ => ?_
    refine ih (P := P.announcing _) hrole h₃ fun c₄ h₄ => hrest c₄ ?_
    rwa [Standing.announcing_announcing, ← List.flatMap_append] at h₄

/-- Whatever an implementation file declares is announced once, in the order of the file and as it
is declared, and nothing is remarked. -/
theorem externs_of_declarations (hitems : SourceItems ds (tokensOf text).1)
    (hend : (tokensOf text).2.isOk = true) (hsetOff : ∀ d ∈ ds, d.SetOff text) :
    findingsOf .source text = .ok { externs := ds.flatMap (·.externs text) } := by
  have hannounced : ds.flatMap (·.announced text) = ds.flatMap (·.externs text) :=
    List.flatMap_congr fun d hd => d.announced_eq
      (fun t ht => standsIn_of_mem_tokensOf ((hitems.sublist hd).subset ht))
      ((pairwise_tokensOf text).sublist (hitems.sublist hd)) (hsetOff d hd)
  have hstands := Reading.stands_new .source text
  rw [← List.append_nil (tokensOf text).1] at hstands
  refine findingsOf_of_yields (yields_sourceItems hitems rfl hstands fun c hc => ?_)
  rw [hannounced] at hc
  exact yields_fileItems_nil hc rfl hend

/-- Two variables of one type and a function in a namespace. -/
theorem externs_of_declarations_two :
    findingsOf .source "int a = 1, *b;\nnamespace n \x7b bool f() const; \x7d" =
      .ok { externs := ["int a", "int *b", "bool f() const"] } := by
  let a : VariableDeclaration :=
    { type := ⟨⟨⟨⟨.ident, "int", 0, 0⟩, rfl, by decide⟩, none⟩, []⟩
      first := ⟨[], ⟨⟨.ident, "a", 4, 0⟩, rfl, by decide⟩, [],
        .assigned ⟨⟨.eq, "=", 6, 0⟩, rfl⟩ [⟨.number, "1", 8, 0⟩] (.token rfl rfl .nil)⟩
      more := [⟨⟨⟨.comma, ",", 9, 0⟩, rfl⟩,
        ⟨[⟨⟨.star, "*", 11, 0⟩, rfl⟩], ⟨⟨.ident, "b", 12, 0⟩, rfl, by decide⟩, [], .absent⟩⟩]
      semicolon := ⟨⟨.semicolon, ";", 13, 0⟩, rfl⟩
      unqualified := by decide }
  let f : FunctionDeclaration :=
    { type := ⟨⟨⟨⟨.ident, "bool", 29, 1⟩, rfl, by decide⟩, none⟩, []⟩
      marks := []
      name := ⟨⟨.ident, "f", 34, 1⟩, rfl, by decide⟩
      params := .empty ⟨⟨.emptyParens, "()", 35, 1⟩, rfl⟩
      trailers := [.word ⟨⟨.ident, "const", 38, 1⟩, rfl⟩]
      ending := .declared ⟨⟨.semicolon, ";", 43, 1⟩, rfl⟩
      unqualified := by decide }
  have hitems : SourceItems [.ofVariables a, .ofFunction f]
      (tokensOf "int a = 1, *b;\nnamespace n \x7b bool f() const; \x7d").1 := by
    have htokens : (tokensOf "int a = 1, *b;\nnamespace n \x7b bool f() const; \x7d").1 =
        a.tokens ++ ⟨.ident, "namespace", 15, 0⟩ :: ⟨.ident, "n", 25, 0⟩ :: ⟨.lBrace, "\x7b", 27, 0⟩ ::
          (f.tokens ++ [] ++ [⟨.rBrace, "\x7d", 45, 0⟩]) := by decide +kernel
    rw [htokens]
    exact .declaration (.ofVariables a) (.namespaceBlock ⟨_, rfl⟩ ⟨_, rfl⟩ ⟨_, rfl⟩ (by decide)
      (.declaration (.ofFunction f) .nil) .nil)
  have hsetOff : ∀ d ∈ [SourceDeclaration.ofVariables a, .ofFunction f],
      d.SetOff "int a = 1, *b;\nnamespace n \x7b bool f() const; \x7d" := by
    rw [List.forall_mem_cons, List.forall_mem_singleton]
    exact ⟨⟨by decide +kernel, fun _ => by decide +kernel⟩, trivial⟩
  rw [externs_of_declarations hitems (by decide +kernel) hsetOff]
  decide +kernel

/-- A comment behind the first variable is announced with it. -/
example : (findingsOf .source "int x // count\n = 3;").map (·.externs) = .ok ["int x // count"] := by
  decide +kernel

end ReflectionTables.Parsing
