import ReflectionTables.Proofs.ScannedGaps
/-!
# Braces and scopes go in pairs

A scanner is read any number of times, and right behind an opening brace any scopes are entered with
its depth. Whatever was entered between two braces of a pair is left when the closing one is read,
and nothing else is: the scanner is as deep as before the pair, and in the same scopes.
-/

namespace ReflectionTables.Scanning

open Text ByteSearch

variable {text : String}

inductive ScannerUse
  | read (answer : Except ScanError Token)
  | enter (segment : String)

def ScannerUse.kind? : ScannerUse → Option TokenKind
  | .read (.ok t) => some t.kind
  | _ => none

theorem ScannerUse.brace_cases (use : ScannerUse) :
    (∃ opening : Token, use = .read (.ok opening) ∧ opening.kind = .lBrace) ∨
      (∃ closing : Token, use = .read (.ok closing) ∧ closing.kind = .rBrace) ∨
      use.kind? ≠ some .lBrace ∧ use.kind? ≠ some .rBrace := by
  rcases use with (e | t) | segment
  · exact .inr (.inr ⟨by simp [kind?], by simp [kind?]⟩)
  · by_cases hopen : t.kind = .lBrace
    · exact .inl ⟨t, rfl, hopen⟩
    · by_cases hclose : t.kind = .rBrace
      · exact .inr (.inl ⟨t, rfl, hclose⟩)
      · exact .inr (.inr ⟨by simpa [kind?] using hopen, by simpa [kind?] using hclose⟩)
  · exact .inr (.inr ⟨by simp [kind?], by simp [kind?]⟩)

/-- How many tokens of a kind were delivered. -/
def deliveredOf (kind : TokenKind) (uses : List ScannerUse) : Nat :=
  uses.countP (·.kind? == some kind)

@[simp] theorem deliveredOf_cons (kind : TokenKind) (use : ScannerUse) (uses : List ScannerUse) :
    deliveredOf kind (use :: uses) =
      deliveredOf kind uses + if use.kind? = some kind then 1 else 0 := by
  rw [deliveredOf, List.countP_cons, deliveredOf]
  simp only [beq_iff_eq]

/-- A scanner, and the opening brace that it stands right behind. -/
structure UsedScanner (text : String) where
  scanner : Scanner text
  opening? : Option Token

def UsedScanner.new (text : String) : UsedScanner text := ⟨.new text, none⟩

def openingIn : Except ScanError Token → Option Token
  | .ok t => if t.kind = .lBrace then some t else none
  | .error _ => none

/-- A scope is entered right behind an opening brace only, with the depth of that brace. -/
inductive Uses : UsedScanner text → ScannerUse → UsedScanner text → Prop
  | read {s : UsedScanner text} {answer : Except ScanError Token} {scanner : Scanner text}
      (h : s.scanner.read = (answer, scanner)) : Uses s (.read answer) ⟨scanner, openingIn answer⟩
  | enter {s : UsedScanner text} {opening : Token} (h : s.opening? = some opening) (segment : String) :
      Uses s (.enter segment) ⟨s.scanner.enter segment opening.depth, some opening⟩

inductive Runs : UsedScanner text → List ScannerUse → UsedScanner text → Prop
  | nil {s : UsedScanner text} : Runs s [] s
  | cons {s s₁ s' : UsedScanner text} {use : ScannerUse} {uses : List ScannerUse}
      (hfirst : Uses s use s₁) (hrest : Runs s₁ uses s') : Runs s (use :: uses) s'

inductive Paired : List ScannerUse → Prop
  | nil : Paired []
  | plain {use : ScannerUse} {uses : List ScannerUse} (hopen : use.kind? ≠ some .lBrace)
      (hclose : use.kind? ≠ some .rBrace) (hrest : Paired uses) : Paired (use :: uses)
  | group {opening closing : Token} {inner uses : List ScannerUse} (hopen : opening.kind = .lBrace)
      (hclose : closing.kind = .rBrace) (hinner : Paired inner) (hrest : Paired uses) :
      Paired (.read (.ok opening) :: (inner ++ .read (.ok closing) :: uses))

variable {s s₁ s₂ s' : UsedScanner text} {use : ScannerUse} {uses more inner : List ScannerUse}
  {t opening closing : Token}

/-- What a delivered token does to the scanner; the mark of the end does nothing. -/
theorem Scanner.of_read_ok {s s' : Scanner text} (h : s.read = (.ok t, s')) :
    (t.kind = .rBrace → 0 < s.depth) ∧ t.depth = t.kind.ownDepth s.depth ∧
      s'.depth = t.kind.depthAfter s.depth ∧ s'.scopes = scopesBehind t s.scopes := by
  by_cases hend : t.kind = .endOfText
  · rcases Scanner.read_cases h with ⟨-, rfl, rfl⟩ | ⟨_, _, _, -, hlexeme, -⟩
    · exact ⟨by simp, s.depth_pastTrivia, s.depth_pastTrivia, s.scopes_pastTrivia⟩
    · exact absurd hend (Lexeme.ne_end_of_ofBytes hlexeme)
  · have hreads := Scanner.reads_of_read h hend
    exact ⟨hreads.opened, hreads.depth_eq, hreads.depth_behind, hreads.scopes_behind⟩

/-- A read that fails leaves the braces and the scopes as they are. -/
theorem Scanner.unchanged_of_read_error {s s' : Scanner text} {e : ScanError}
    (h : s.read = (.error e, s')) : s'.depth = s.depth ∧ s'.scopes = s.scopes := by
  obtain ⟨rfl, -⟩ := Scanner.of_read_error h
  exact ⟨s.depth_pastTrivia, s.scopes_pastTrivia⟩

theorem Uses.read_ok (h : s.scanner.read.1.toOption = some t) :
    Uses s (.read (.ok t)) ⟨s.scanner.read.2, openingIn (.ok t)⟩ := by
  refine .read (Prod.ext ?_ rfl)
  cases hread : s.scanner.read.1 with
  | error e =>
    rw [hread] at h
    cases h
  | ok u =>
    rw [hread] at h
    exact congrArg Except.ok (Option.some.inj h)

theorem Uses.of_opening (h : Uses s (.read (.ok opening)) s') (hopen : opening.kind = .lBrace) :
    opening.depth = s.scanner.depth ∧ s'.scanner.depth = s.scanner.depth + 1 ∧
      s'.scanner.scopes = s.scanner.scopes ∧ s'.opening? = some opening := by
  cases h with
  | read hread =>
    obtain ⟨-, hdepth, hbehind, hscopes⟩ := Scanner.of_read_ok hread
    rw [hopen] at hdepth hbehind
    rw [scopesBehind, if_neg (by simp [hopen])] at hscopes
    exact ⟨hdepth, hbehind, hscopes, if_pos hopen⟩

theorem Uses.of_closing (h : Uses s (.read (.ok closing)) s') (hclose : closing.kind = .rBrace) :
    closing.depth + 1 = s.scanner.depth ∧ s'.scanner.depth = closing.depth ∧
      s'.scanner.scopes = s.scanner.scopes.dropWhile (·.depth == closing.depth) ∧ s'.opening? = none := by
  cases h with
  | read hread =>
    obtain ⟨hpos, hdepth, hbehind, hscopes⟩ := Scanner.of_read_ok hread
    have hpos := hpos hclose
    rw [hclose] at hdepth hbehind
    rw [scopesBehind, if_pos hclose] at hscopes
    simp only [TokenKind.ownDepth, TokenKind.depthAfter, if_true] at hdepth hbehind
    exact ⟨by omega, hbehind.trans (by omega), hscopes, if_neg (by simp [hclose])⟩

/-- A use that reads no brace keeps the depth, and may enter one scope. -/
theorem Uses.of_plain (h : Uses s use s') (hopen : use.kind? ≠ some .lBrace)
    (hclose : use.kind? ≠ some .rBrace) : s'.scanner.depth = s.scanner.depth ∧
      ((s'.scanner.scopes = s.scanner.scopes ∧ s'.opening? = none) ∨
        ∃ opening segment, s.opening? = some opening ∧ s'.opening? = some opening ∧
          s'.scanner.scopes = ⟨segment, opening.depth⟩ :: s.scanner.scopes) ∧
      ∀ t, use = .read (.ok t) → t.depth = s.scanner.depth := by
  cases h with
  | @read answer scanner hread =>
    cases answer with
    | error e =>
      obtain ⟨hdepth, hscopes⟩ := Scanner.unchanged_of_read_error hread
      exact ⟨hdepth, .inl ⟨hscopes, rfl⟩, by simp⟩
    | ok t =>
      obtain ⟨-, hdepth, hbehind, hscopes⟩ := Scanner.of_read_ok hread
      have hleft : t.kind ≠ .lBrace := fun hkind => hopen (congrArg some hkind)
      have hright : t.kind ≠ .rBrace := fun hkind => hclose (congrArg some hkind)
      have hafter : t.kind.depthAfter s.scanner.depth = s.scanner.depth := by
        cases hkind : t.kind <;> first | rfl | exact absurd hkind hleft | exact absurd hkind hright
      rw [TokenKind.ownDepth, if_neg hright] at hdepth
      rw [scopesBehind, if_neg hright] at hscopes
      refine ⟨hbehind.trans hafter, .inl ⟨hscopes, if_neg hleft⟩, fun u hu => ?_⟩
      cases hu
      exact hdepth
  | enter h segment => exact ⟨rfl, .inr ⟨_, segment, h, rfl, rfl⟩, by simp⟩

/-- Scopes have braces of their own that are open, an inner scope no further out than an outer one. -/
structure UsedScanner.Nested (s : UsedScanner text) : Prop where
  scopes_lt : ∀ scope ∈ s.scanner.scopes, scope.depth < s.scanner.depth
  ordered : s.scanner.scopes.Pairwise fun inner outer => outer.depth ≤ inner.depth
  opening : ∀ t, s.opening? = some t → t.depth + 1 = s.scanner.depth

theorem UsedScanner.nested_new (text : String) : (UsedScanner.new text).Nested :=
  ⟨by simp [new, Scanner.new], .nil, by simp [new]⟩

theorem lt_of_mem_dropWhile {scopes : List Scope} {depth : Nat}
    (hordered : scopes.Pairwise fun inner outer => outer.depth ≤ inner.depth)
    (hle : ∀ scope ∈ scopes, scope.depth ≤ depth) :
    ∀ scope ∈ scopes.dropWhile (·.depth == depth), scope.depth < depth := by
  induction scopes with
  | nil => simp
  | cons first scopes ih =>
    rw [List.pairwise_cons] at hordered
    by_cases hfirst : first.depth = depth
    · rw [List.dropWhile_cons_of_pos (by simpa using hfirst)]
      exact ih hordered.2 fun scope hscope => hle scope (List.mem_cons_of_mem first hscope)
    · rw [List.dropWhile_cons_of_neg (by simpa using hfirst)]
      have hlt := hle first List.mem_cons_self
      rw [List.forall_mem_cons]
      refine ⟨by omega, fun scope hscope => ?_⟩
      have := hordered.1 scope hscope
      omega

theorem UsedScanner.Nested.step (hs : s.Nested) (h : Uses s use s') : s'.Nested := by
  rcases use.brace_cases with ⟨opening, rfl, hopen⟩ | ⟨closing, rfl, hclose⟩ | ⟨hopen, hclose⟩
  · obtain ⟨hown, hdepth, hscopes, hbrace⟩ := h.of_opening hopen
    refine ⟨fun scope hscope => ?_, by rw [hscopes]; exact hs.ordered, fun t ht => ?_⟩
    · rw [hscopes] at hscope
      have := hs.scopes_lt scope hscope
      omega
    · rw [hbrace] at ht
      cases ht
      omega
  · obtain ⟨hown, hdepth, hscopes, hbrace⟩ := h.of_closing hclose
    rw [← hdepth] at hscopes
    refine ⟨?_, ?_, by simp [hbrace]⟩
    · rw [hscopes]
      refine lt_of_mem_dropWhile hs.ordered fun scope hscope => ?_
      have := hs.scopes_lt scope hscope
      omega
    · rw [hscopes]
      exact hs.ordered.sublist (List.dropWhile_sublist _)
  · obtain ⟨hdepth, ⟨hscopes, hbrace⟩ | ⟨opening, segment, hopening, hbrace, hscopes⟩, -⟩ :=
      h.of_plain hopen hclose
    · exact ⟨by rw [hscopes, hdepth]; exact hs.scopes_lt, by rw [hscopes]; exact hs.ordered, by simp [hbrace]⟩
    · have hown := hs.opening opening hopening
      refine ⟨?_, ?_, ?_⟩
      · rw [hscopes, hdepth, List.forall_mem_cons]
        exact ⟨Nat.lt_of_succ_le (Nat.le_of_eq hown), hs.scopes_lt⟩
      · rw [hscopes, List.pairwise_cons]
        refine ⟨fun scope hscope => ?_, hs.ordered⟩
        have := hs.scopes_lt scope hscope
        simp only
        omega
      · rw [hbrace, hdepth, ← hopening]
        exact hs.opening

theorem Runs.nested (h : Runs s uses s') (hs : s.Nested) : s'.Nested := by
  induction h with
  | nil => exact hs
  | cons hfirst _ ih => exact ih (hs.step hfirst)

theorem runs_append_iff : Runs s (uses ++ more) s' ↔ ∃ s₁, Runs s uses s₁ ∧ Runs s₁ more s' := by
  induction uses generalizing s with
  | nil =>
    constructor
    · exact fun h => ⟨s, .nil, h⟩
    · rintro ⟨s₁, h, h'⟩
      cases h
      exact h'
  | cons use uses ih =>
    constructor
    · intro h
      cases h with
      | cons hfirst hrest =>
        obtain ⟨s₁, h, h'⟩ := ih.1 hrest
        exact ⟨s₁, .cons hfirst h, h'⟩
    · rintro ⟨s₁, h, h'⟩
      cases h with
      | cons hfirst hrest => exact .cons hfirst (ih.2 ⟨s₁, hrest, h'⟩)

@[simp] theorem runs_singleton_iff : Runs s [use] s' ↔ Uses s use s' := by
  constructor
  · intro h
    cases h with
    | cons hfirst hrest =>
      cases hrest
      exact hfirst
  · exact fun h => .cons h .nil

theorem Runs.depth_add (h : Runs s uses s') : s'.scanner.depth + deliveredOf .rBrace uses =
    s.scanner.depth + deliveredOf .lBrace uses := by
  induction h with
  | nil => rfl
  | @cons s s₁ s' use uses hfirst _ ih =>
    rw [deliveredOf_cons, deliveredOf_cons]
    rcases use.brace_cases with ⟨opening, rfl, hopen⟩ | ⟨closing, rfl, hclose⟩ | ⟨hopen, hclose⟩
    · have hdepth := (hfirst.of_opening hopen).2.1
      have hkind : ScannerUse.kind? (.read (.ok opening)) = some .lBrace := congrArg some hopen
      rw [hkind, if_neg (by simp), if_pos rfl]
      omega
    · obtain ⟨hown, hdepth, -⟩ := hfirst.of_closing hclose
      have hkind : ScannerUse.kind? (.read (.ok closing)) = some .rBrace := congrArg some hclose
      rw [hkind, if_pos rfl, if_neg (by simp)]
      omega
    · have hdepth := (hfirst.of_plain hopen hclose).1
      rw [if_neg hopen, if_neg hclose]
      omega

/-- Whether a scanner is as deep as another one, and in the same scopes but for some of its own that
were entered at the brace around both. -/
structure UsedScanner.Within (s s' : UsedScanner text) : Prop where
  depth_eq : s'.scanner.depth = s.scanner.depth
  scopes_eq : ∃ entered, s'.scanner.scopes = entered ++ s.scanner.scopes ∧
    ∀ scope ∈ entered, scope.depth + 1 = s.scanner.depth

namespace UsedScanner.Within

theorem refl (s : UsedScanner text) : s.Within s := ⟨rfl, [], rfl, by simp⟩

theorem trans (h : s.Within s₁) (h' : s₁.Within s') : s.Within s' := by
  obtain ⟨entered, hscopes, hentered⟩ := h.scopes_eq
  obtain ⟨entered', hscopes', hentered'⟩ := h'.scopes_eq
  refine ⟨h'.depth_eq.trans h.depth_eq, entered' ++ entered, ?_, fun scope hscope => ?_⟩
  · rw [hscopes', hscopes, List.append_assoc]
  · rcases List.mem_append.1 hscope with hmem | hmem
    · exact (hentered' scope hmem).trans h.depth_eq
    · exact hentered scope hmem

theorem of_plain (hs : s.Nested) (h : Uses s use s') (hopen : use.kind? ≠ some .lBrace)
    (hclose : use.kind? ≠ some .rBrace) : s.Within s' := by
  obtain ⟨hdepth, ⟨hscopes, -⟩ | ⟨opening, segment, hopening, -, hscopes⟩, -⟩ := h.of_plain hopen hclose
  · exact ⟨hdepth, [], hscopes, by simp⟩
  · refine ⟨hdepth, [⟨segment, opening.depth⟩], hscopes, ?_⟩
    rw [List.forall_mem_singleton]
    exact hs.opening opening hopening

end UsedScanner.Within

/-- The scopes that were entered between two braces are left behind them. -/
theorem back_of_group (hs : s.Nested) (hopen : opening.kind = .lBrace) (hclose : closing.kind = .rBrace)
    (hfirst : Uses s (.read (.ok opening)) s₁) (hinner : s₁.Within s₂)
    (hlast : Uses s₂ (.read (.ok closing)) s') :
    closing.depth = opening.depth ∧ s'.scanner.depth = s.scanner.depth ∧
      s'.scanner.scopes = s.scanner.scopes := by
  obtain ⟨hown, hdepth, hscopes, -⟩ := hfirst.of_opening hopen
  obtain ⟨hown', hdepth', hscopes', -⟩ := hlast.of_closing hclose
  obtain ⟨entered, heq, hentered⟩ := hinner.scopes_eq
  have hinside := hinner.depth_eq
  refine ⟨by omega, by omega, ?_⟩
  have hleft : ∀ scope ∈ entered, (scope.depth == closing.depth) = true := fun scope hscope => by
    have := hentered scope hscope
    rw [beq_iff_eq]
    omega
  rw [hscopes', heq, hscopes, List.dropWhile_append_of_pos hleft]
  cases hstack : s.scanner.scopes with
  | nil => rfl
  | cons scope scopes =>
    have := hs.scopes_lt scope (by rw [hstack]; exact List.mem_cons_self)
    refine List.dropWhile_cons_of_neg ?_
    rw [beq_iff_eq]
    omega

/-- What a run with paired braces does, and the depths of its tokens. -/
theorem Runs.of_paired (h : Runs s uses s') (hpaired : Paired uses) (hs : s.Nested) :
    s.Within s' ∧ ∀ t, .read (.ok t) ∈ uses → s.scanner.depth ≤ t.depth := by
  induction hpaired generalizing s s' with
  | nil =>
    cases h
    exact ⟨.refl s, by simp⟩
  | @plain use uses hopen hclose _ ih =>
    cases h with
    | @cons _ s₁ _ _ _ hfirst hrest =>
      obtain ⟨hwithin, htokens⟩ := ih hrest (hs.step hfirst)
      have hplain := UsedScanner.Within.of_plain hs hfirst hopen hclose
      refine ⟨hplain.trans hwithin, fun t ht => ?_⟩
      rcases List.mem_cons.1 ht with heq | hmem
      · exact Nat.le_of_eq ((hfirst.of_plain hopen hclose).2.2 t heq.symm).symm
      · rw [← hplain.depth_eq]
        exact htokens t hmem
  | @group opening closing inner uses hopen hclose _ _ ihinner ih =>
    cases h with
    | @cons _ s₁ _ _ _ hfirst hrest =>
      obtain ⟨s₂, hinner, hrest⟩ := runs_append_iff.1 hrest
      cases hrest with
      | @cons _ s₃ _ _ _ hlast hrest =>
        have hnested := hs.step hfirst
        obtain ⟨hwithin, hinside⟩ := ihinner hinner hnested
        obtain ⟨hpair, hdepth, hscopes⟩ := back_of_group hs hopen hclose hfirst hwithin hlast
        have hback : s.Within s₃ := ⟨hdepth, [], hscopes, by simp⟩
        obtain ⟨hbehind, htokens⟩ := ih hrest ((hinner.nested hnested).step hlast)
        obtain ⟨hown, hopened, -⟩ := hfirst.of_opening hopen
        refine ⟨hback.trans hbehind, fun t ht => ?_⟩
        rcases List.mem_cons.1 ht with heq | hmem
        · cases heq
          omega
        rcases List.mem_append.1 hmem with hmem | hmem
        · have := hinside t hmem
          omega
        rcases List.mem_cons.1 hmem with heq | hmem
        · cases heq
          omega
        · rw [← hdepth]
          exact htokens t hmem

theorem Paired.append (h : Paired uses) (h' : Paired more) : Paired (uses ++ more) := by
  induction h with
  | nil => exact h'
  | plain hopen hclose _ ih => exact .plain hopen hclose ih
  | group hopen hclose hinner _ _ ih =>
    rw [List.cons_append, List.append_assoc, List.cons_append]
    exact .group hopen hclose hinner ih

/-- Whether an opening brace is the last one that has no partner in a history. -/
structure LastOpened (uses earlier : List ScannerUse) (opening : Token) (middle : List ScannerUse) : Prop where
  split : uses = earlier ++ .read (.ok opening) :: middle
  isOpening : opening.kind = .lBrace
  paired : Paired middle

/-- Where braces are open, one of them is the last one without a partner. -/
theorem Runs.exists_lastOpened (h : Runs s uses s') (hs : s.Nested) (hzero : s.scanner.depth = 0)
    (hpos : 0 < s'.scanner.depth) : ∃ earlier opening middle, LastOpened uses earlier opening middle := by
  induction hlength : uses.length using Nat.strongRecOn generalizing uses s' with
  | ind n ih =>
    rcases List.eq_nil_or_concat uses with rfl | ⟨init, use, rfl⟩
    · cases h
      omega
    rw [List.concat_eq_append, List.length_append, List.length_singleton] at hlength
    rw [List.concat_eq_append] at h ⊢
    obtain ⟨s₁, hinit, hlast⟩ := runs_append_iff.1 h
    have hlast := runs_singleton_iff.1 hlast
    rcases use.brace_cases with ⟨opening, rfl, hopen⟩ | ⟨closing, rfl, hclose⟩ | ⟨hopen, hclose⟩
    · exact ⟨init, opening, [], rfl, hopen, .nil⟩
    · -- The brace that is closed here has another one around it.
      obtain ⟨hown, hdepth, -⟩ := hlast.of_closing hclose
      obtain ⟨earlier, opening, middle, rfl, hopen, hpaired⟩ :=
        ih init.length (by omega) hinit (by omega) rfl
      obtain ⟨s₂, hearlier, hgroup⟩ := runs_append_iff.1 hinit
      cases hgroup with
      | @cons _ s₃ _ _ _ hfirst hmiddle =>
        have hnested := hearlier.nested hs
        have hwithin := (hmiddle.of_paired hpaired (hnested.step hfirst)).1
        have hback := (back_of_group hnested hopen hclose hfirst hwithin hlast).2.1
        simp only [List.length_append, List.length_cons] at hlength
        obtain ⟨first, opening', middle', rfl, hopen', hpaired'⟩ :=
          ih earlier.length (by omega) hearlier (by omega) rfl
        exact ⟨first, opening', middle' ++ .read (.ok opening) :: (middle ++ [.read (.ok closing)]),
          by simp, hopen', hpaired'.append (.group hopen hclose hpaired .nil)⟩
    · have hdepth := (hlast.of_plain hopen hclose).1
      obtain ⟨earlier, opening, middle, rfl, hopen', hpaired⟩ :=
        ih init.length (by omega) hinit (by omega) rfl
      exact ⟨earlier, opening, middle ++ [use], by simp, hopen', hpaired.append (.plain hopen hclose .nil)⟩

/-- A closing brace closes the last opening brace that had no partner, and only that one. -/
theorem Runs.of_closing (h : Runs s (uses ++ [.read (.ok closing)]) s') (hclose : closing.kind = .rBrace)
    (hs : s.Nested) {earlier middle : List ScannerUse} (hopened : LastOpened uses earlier opening middle) :
    closing.depth = opening.depth ∧ (∀ t, .read (.ok t) ∈ middle → opening.depth < t.depth) ∧
      ∃ s₁, Runs s earlier s₁ ∧ s'.scanner.depth = s₁.scanner.depth ∧
        s'.scanner.scopes = s₁.scanner.scopes := by
  obtain ⟨rfl, hopen, hpaired⟩ := hopened
  obtain ⟨s₂, hrun, hlast⟩ := runs_append_iff.1 h
  obtain ⟨s₁, hearlier, hgroup⟩ := runs_append_iff.1 hrun
  cases hgroup with
  | cons hfirst hmiddle =>
    have hnested := hearlier.nested hs
    obtain ⟨hwithin, htokens⟩ := hmiddle.of_paired hpaired (hnested.step hfirst)
    obtain ⟨hpair, hdepth, hscopes⟩ :=
      back_of_group hnested hopen hclose hfirst hwithin (runs_singleton_iff.1 hlast)
    obtain ⟨hown, hbehind, -⟩ := hfirst.of_opening hopen
    refine ⟨hpair, fun t ht => ?_, s₁, hearlier, hdepth, hscopes⟩
    have := htokens t ht
    omega

/-- A closing brace where none is open is an error. -/
theorem Scanner.read_unbalanced {s : Scanner text} (hzero : s.depth = 0)
    (hbrace : s.pastTrivia.rest.head? = some 125) :
    s.read = (.error (s.pastTrivia.error .unbalancedBrace), s.pastTrivia) := by
  have hdepth := s.depth_pastTrivia
  obtain ⟨after, hrest⟩ := List.head?_eq_some_iff.1 hbrace
  have hlexeme : Lexeme.ofBytes 125 after = .token .rBrace 1 := rfl
  have htrivia : Trivia.ofBytes (125 :: after) = .absent := rfl
  have hhand : s.pastTrivia.atHand = .error (s.pastTrivia.error .unbalancedBrace) := by
    rw [Scanner.atHand, hrest, htrivia, if_neg (by simp)]
    simp only [hlexeme]
    rw [if_pos ⟨trivial, hdepth.trans hzero⟩]
  simp only [Scanner.read, hhand]

/-- However a scanner is used, its depth is the number of braces that were opened and not closed. A
closing brace has one partner, which has its depth, and what is between them is deeper; behind it the
scopes are those from before its partner. A read that fails changes neither, and a closing brace
without a partner is such a failure. -/
theorem braces_pair (h : Runs (.new text) uses s) :
    s.scanner.depth + deliveredOf .rBrace uses = deliveredOf .lBrace uses ∧
    (∀ before closing, uses = before ++ [.read (.ok closing)] → closing.kind = .rBrace →
      (∃ earlier opening middle, LastOpened before earlier opening middle) ∧
      ∀ earlier opening middle, LastOpened before earlier opening middle →
        closing.depth = opening.depth ∧ (∀ t, .read (.ok t) ∈ middle → opening.depth < t.depth) ∧
        ∃ s₁, Runs (.new text) earlier s₁ ∧ s.scanner.depth = s₁.scanner.depth ∧
          s.scanner.scopes = s₁.scanner.scopes) ∧
    (∀ e, s.scanner.read.1 = .error e →
      s.scanner.read.2.depth = s.scanner.depth ∧ s.scanner.read.2.scopes = s.scanner.scopes) ∧
    (s.scanner.depth = 0 → s.scanner.pastTrivia.rest.head? = some 125 →
      s.scanner.read.1 = .error (s.scanner.pastTrivia.error .unbalancedBrace)) := by
  have hnew := UsedScanner.nested_new text
  refine ⟨?_, ?_, fun e he => ?_, fun hzero hbrace => ?_⟩
  · have hdepth := h.depth_add
    rwa [show (UsedScanner.new text).scanner.depth = 0 from rfl, Nat.zero_add] at hdepth
  · rintro before closing rfl hclose
    refine ⟨?_, fun earlier opening middle hopened => h.of_closing hclose hnew hopened⟩
    obtain ⟨s₁, hbefore, hlast⟩ := runs_append_iff.1 h
    have hown := ((runs_singleton_iff.1 hlast).of_closing hclose).1
    exact hbefore.exists_lastOpened hnew rfl (by omega)
  · exact Scanner.unchanged_of_read_error (Prod.ext he rfl)
  · rw [Scanner.read_unbalanced hzero hbrace]

/-- Two scopes that are entered at one brace. -/
def enteredTwice : List ScannerUse :=
  [.read (.ok ⟨.ident, "n", 0, 0⟩), .read (.ok ⟨.lBrace, "\x7b", 2, 0⟩), .enter "n", .enter "m",
    .read (.ok ⟨.rBrace, "\x7d", 4, 0⟩)]

/-- Both are left at the closing brace, and a further one has no partner. -/
theorem braces_pair_entered : ∃ s : UsedScanner "n \x7b \x7d \x7d", Runs (.new _) enteredTwice s ∧
    s.scanner.depth = 0 ∧ s.scanner.scopes = [] ∧
    s.scanner.read.1 = .error (s.scanner.pastTrivia.error .unbalancedBrace) := by
  have hrun : ∃ s : UsedScanner "n \x7b \x7d \x7d", Runs (.new _) enteredTwice s ∧
      s.scanner.pastTrivia.rest.head? = some 125 := by
    refine ⟨_, .cons (.read_ok (by decide +kernel)) (.cons (.read_ok (by decide +kernel)) (.cons
      (.enter rfl "n") (.cons (.enter rfl "m") (.cons (.read_ok (by decide +kernel)) .nil)))), ?_⟩
    decide +kernel
  obtain ⟨s, hrun, hbrace⟩ := hrun
  obtain ⟨hdepth, hclosing, -, hunbalanced⟩ := braces_pair hrun
  have hzero : s.scanner.depth = 0 := Nat.add_right_cancel hdepth
  obtain ⟨-, -, s₁, hearlier, -, hscopes⟩ := (hclosing enteredTwice.dropLast _ rfl rfl).2
    (enteredTwice.take 1) ⟨.lBrace, "\x7b", 2, 0⟩ [.enter "n", .enter "m"]
    ⟨rfl, rfl, .plain (by simp [ScannerUse.kind?]) (by simp [ScannerUse.kind?])
      (.plain (by simp [ScannerUse.kind?]) (by simp [ScannerUse.kind?]) .nil)⟩
  have hword := (runs_singleton_iff.1 hearlier).of_plain (by simp [ScannerUse.kind?]) (by simp [ScannerUse.kind?])
  rcases hword.2.1 with ⟨hsame, -⟩ | ⟨_, _, hopening, -⟩
  · exact ⟨s, hrun, hzero, hscopes.trans hsame, hunbalanced hzero hbrace⟩
  · cases hopening

end ReflectionTables.Scanning
