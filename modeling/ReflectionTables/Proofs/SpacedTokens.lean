import ReflectionTables.Proofs.RescannedSpans
/-!
# Tokens with one space between any two

Tokens can be written out with one space between any two, and the scanner reads them back. A token
is read in front of a space as it was read in front of what followed it, and the space is skipped.
So each token stands where its text was put: none falls into two, and no two become one.
-/

namespace ReflectionTables.Scanning

open Text ByteSearch

variable {text : String} {s : Scanner text} {t ending : Token} {ts : List Token} {cs : List Char}
  {depth : Nat}

def spacedText (ts : List Token) : String := " ".intercalate (ts.map (·.text))

/-- Tokens at the places of their texts, if these follow each other from an offset on with a space
between any two. -/
def spacedFrom (offset : Nat) : List Token → List Token
  | [] => []
  | t :: ts => { t with offset } :: spacedFrom (offset + t.text.utf8ByteSize + 1) ts

/-- What a token says wherever it stands. -/
def Token.saying (t : Token) : TokenKind × String × Nat := (t.kind, t.text, t.depth)

@[simp] theorem saying_spacedFrom (offset : Nat) (ts : List Token) :
    (spacedFrom offset ts).map Token.saying = ts.map Token.saying := by
  induction ts generalizing offset with
  | nil => rfl
  | cons t ts ih =>
    rw [spacedFrom, List.map_cons, List.map_cons, ih]
    rfl

@[simp] theorem depthBehind_spacedFrom (depth offset : Nat) (ts : List Token) :
    depthBehind depth (spacedFrom offset ts) = depthBehind depth ts := by
  induction ts generalizing depth offset with
  | nil => rfl
  | cons t ts ih => exact ih _ _

def spacedBehind : List Token → List Char
  | [] => []
  | t :: ts => ' ' :: (t.text.toList ++ spacedBehind ts)

theorem toList_spacedText (t : Token) (ts : List Token) :
    (spacedText (t :: ts)).toList = t.text.toList ++ spacedBehind ts := by
  rw [spacedText, String.toList_intercalate, List.map_cons, List.map_cons]
  induction ts generalizing t with
  | nil => simp [spacedBehind]
  | cons u ts ih =>
    rw [List.map_cons, List.map_cons, List.intercalate_cons_cons, ih, spacedBehind]
    simp

theorem charBytes_spacedBehind (t : Token) (ts : List Token) :
    charBytes (spacedBehind (t :: ts)) = 32 :: charBytes (t.text.toList ++ spacedBehind ts) :=
  charBytes_ascii (by decide)

theorem thins_space (cs cs' : List Char) : Thins (charBytes (' ' :: cs')) (charBytes cs) := by
  refine ⟨[], charBytes cs, charBytes (' ' :: cs'), rfl, rfl, .inr ?_⟩
  rw [charBytes_ascii (by decide)]
  rfl

theorem thins_spacedBehind (ts : List Token) (cs : List Char) :
    Thins (charBytes (spacedBehind ts)) (charBytes cs) := by
  cases ts with
  | nil => exact ⟨[], charBytes cs, [], rfl, rfl, .inl rfl⟩
  | cons t ts => exact thins_space cs _

theorem Token.ReadBefore.of_thins {cs' : List Char} (h : t.ReadBefore cs)
    (hthins : Thins (charBytes cs') (charBytes cs)) : t.ReadBefore cs' := by
  obtain ⟨b, xs, hbytes, htrivia, hlexeme⟩ := h
  exact ⟨b, xs, hbytes, Trivia.ofBytes_of_thins hthins htrivia, Lexeme.ofBytes_of_thins hthins hlexeme⟩

theorem Token.ReadBefore.spaced (h : t.ReadBefore cs) (ts : List Token) :
    t.ReadBefore (spacedBehind ts) :=
  h.of_thins (thins_spacedBehind ts cs)

/-- A token that nothing stands in front of is read where it stands. -/
theorem Token.ReadBefore.read_here (h : t.ReadBefore cs) (hs : s.AtBoundary)
    (hrest : s.rest = charBytes (t.text.toList ++ cs)) (hopen : t.kind = .rBrace → 0 < s.depth)
    (hown : t.depth = t.kind.ownDepth s.depth) :
    ∃ s' : Scanner text, s.read = (.ok { t with offset := s.position }, s') ∧ t.kind ≠ .endOfText ∧
      s'.AtBoundary ∧ s'.rest = charBytes cs ∧ s'.position = s.position + t.text.utf8ByteSize ∧
      s'.depth = t.kind.depthAfter s.depth := by
  obtain ⟨u, s', hread, hkind, htext, hrest', hdepth⟩ := h.read hs hrest hopen
  obtain ⟨b, xs, hbytes, htrivia, hlexeme⟩ := h
  have hpast : s.pastTrivia = s := by
    refine Scanner.pastTrivia_of_absent ?_
    rw [hrest, charBytes_append, hbytes]
    exact htrivia
  have hend : t.kind ≠ .endOfText := Lexeme.ne_end_of_ofBytes hlexeme
  have hreads := Scanner.reads_of_read hread (hkind ▸ hend)
  have hoffset : u.offset = s.position := by
    rcases Scanner.read_cases hread with ⟨-, -, rfl⟩ | ⟨_, _, _, -, -, -, -, hoffset, -⟩
    · exact absurd hkind.symm hend
    · rwa [hpast] at hoffset
  have hu : u = { t with offset := s.position } := by
    rw [Token.mk.injEq]
    exact ⟨hkind, htext, hoffset, by rw [hreads.depth_eq, hkind, hown]⟩
  refine ⟨s', by rw [hread, hu], hend, hs.of_read hread, hrest', ?_, hdepth⟩
  rw [hreads.position_eq, Token.stop, hoffset, htext]

theorem Scanner.read_of_spaced (hs : s.AtBoundary)
    (hrest : s.rest = charBytes (t.text.toList ++ spacedBehind ts))
    (hts : ∀ u ∈ t :: ts, ∃ cs, u.ReadBefore cs) (hnested : Nested s.depth (t :: ts)) :
    ∃ s' : Scanner text, s.read = (.ok { t with offset := s.position }, s') ∧ t.kind ≠ .endOfText ∧
      s'.AtBoundary ∧ s'.rest = charBytes (spacedBehind ts) ∧
      s'.position = s.position + t.text.utf8ByteSize ∧ s'.depth = t.kind.depthAfter s.depth := by
  obtain ⟨cs, hbefore⟩ := hts t List.mem_cons_self
  exact (hbefore.spaced ts).read_here hs hrest hnested.1 hnested.2.1

theorem Scanner.tokens_skip_space (hrest : s.rest = charBytes (' ' :: cs)) :
    (s.skip 1).tokens = s.tokens := by
  have htrivia : Trivia.ofBytes s.rest = .bytes 1 := by
    rw [hrest]
    exact Trivia.ofBytes_blank (by decide) rfl
  rw [← s.tokens_pastTrivia, Scanner.pastTrivia_of_bytes htrivia, Scanner.tokens_pastTrivia]

/-- Behind a token that is no brace and a space, a text is scanned as it is alone. -/
theorem tokensOf_behind_space (h : t.ReadBefore cs) (hbrace : t.kind.isBrace = false) (piece : String) :
    tokensOf (t.text ++ " " ++ piece) =
      ({ t with offset := 0, depth := 0 } :: (tokensOf piece).1.map (·.behind (t.text ++ " ")),
        ((tokensOf piece).2.map (·.behind (t.text ++ " "))).mapError (·.behind (t.text ++ " "))) := by
  have hkind : t.kind ≠ .rBrace := by
    rintro hkind
    rw [hkind] at hbrace
    cases hbrace
  have hbefore : { t with depth := 0 }.ReadBefore (' ' :: piece.toList) := h.of_thins (thins_space cs _)
  have hrest : (Scanner.new (t.text ++ " " ++ piece)).rest =
      charBytes (t.text.toList ++ ' ' :: piece.toList) := by
    change bytesOf _ = _
    rw [bytesOf_eq, String.append_assoc, String.toList_append, String.toList_append]
    rfl
  obtain ⟨s', hread, hend, -, hrest', hposition, hdepth⟩ := hbefore.read_here
    (Scanner.atBoundary_new _) hrest (fun hclose => absurd hclose hkind)
    (by rw [TokenKind.ownDepth, if_neg hkind]; rfl)
  have hfollows : (Scanner.new piece).Follows (s'.skip 1) := by
    refine ⟨?_, ?_⟩
    · change s'.position + 1 = 0 + (t.text ++ " ").utf8ByteSize
      rw [hposition, String.utf8ByteSize_append, Nat.zero_add]
      change 0 + _ + 1 = _ + 1
      rw [Nat.zero_add]
    · change s'.depth = 0
      rw [hdepth, TokenKind.depthAfter_of_isBrace hbrace]
      rfl
  have htokens := Scanner.tokens_of_read hread hend
  rw [← Scanner.tokens_skip_space hrest', hfollows.tokens_eq] at htokens
  exact htokens

theorem Scanner.tokens_of_rest_nil (h : s.rest = []) :
    s.tokens = ([], .ok ⟨.endOfText, "", s.position, s.depth⟩) := by
  have hpast : s.pastTrivia = s := Scanner.pastTrivia_of_absent (by rw [h]; rfl)
  have hhand : s.atHand = .ok (⟨.endOfText, "", s.position, s.depth⟩, 0) := by
    rw [Scanner.atHand, h]
    rfl
  have hread : s.read = (.ok ⟨.endOfText, "", s.position, s.depth⟩, s.behind .endOfText 0) := by
    rw [Scanner.read, hpast, hhand]
  exact Scanner.tokens_of_read_end hread rfl

theorem Scanner.tokens_of_spaced (hs : s.AtBoundary)
    (hrest : s.rest = charBytes (t.text.toList ++ spacedBehind ts))
    (hts : ∀ u ∈ t :: ts, ∃ cs, u.ReadBefore cs) (hnested : Nested s.depth (t :: ts)) :
    s.tokens.1 = spacedFrom s.position (t :: ts) ∧ ∃ ending, s.tokens.2 = .ok ending := by
  induction ts generalizing s t with
  | nil =>
    obtain ⟨s', hread, hend, -, hrest', -⟩ := Scanner.read_of_spaced hs hrest hts hnested
    rw [Scanner.tokens_of_read hread hend, Scanner.tokens_of_rest_nil hrest']
    exact ⟨rfl, _, rfl⟩
  | cons u ts ih =>
    obtain ⟨s', hread, hend, hs', hrest', hposition, hdepth⟩ :=
      Scanner.read_of_spaced hs hrest hts hnested
    -- The scanner behind the space has the next token at hand.
    have hskip : (s'.skip 1).rest = charBytes (u.text.toList ++ spacedBehind ts) := by
      change s'.rest.drop 1 = _
      rw [hrest', charBytes_spacedBehind]
      rfl
    have hboundary : (s'.skip 1).AtBoundary := by
      refine hs'.skip (endsWhole_of_getElem? (b := 32) ?_ (by decide))
      rw [hrest', charBytes_spacedBehind]
      rfl
    have hnested' : Nested (s'.skip 1).depth (u :: ts) := by
      change Nested s'.depth (u :: ts)
      rw [hdepth]
      exact hnested.2.2
    obtain ⟨htokens, hending⟩ :=
      ih hboundary hskip (fun v hv => hts v (List.mem_cons_of_mem t hv)) hnested'
    rw [Scanner.tokens_of_read hread hend, ← Scanner.tokens_skip_space hrest']
    refine ⟨?_, hending⟩
    have hskipped : (s'.skip 1).position = s.position + t.text.utf8ByteSize + 1 :=
      congrArg (· + 1) hposition
    rw [htokens, hskipped]
    rfl

/-- Tokens that are read in front of anything are read back from their spaced text, if their braces
are nested. -/
theorem tokensOf_spacedText_of_readBefore (hts : ∀ t ∈ ts, ∃ cs, t.ReadBefore cs)
    (hnested : Nested 0 ts) :
    tokensOf (spacedText ts) = (spacedFrom 0 ts,
      .ok ⟨.endOfText, "", (spacedText ts).utf8ByteSize, depthBehind 0 ts⟩) := by
  have htokens : (tokensOf (spacedText ts)).1 = spacedFrom 0 ts ∧
      ∃ ending, (tokensOf (spacedText ts)).2 = .ok ending := by
    cases ts with
    | nil => exact ⟨by decide +kernel, ⟨.endOfText, "", 0, 0⟩, by decide +kernel⟩
    | cons t ts =>
      refine Scanner.tokens_of_spaced (Scanner.atBoundary_new _) ?_ hts hnested
      rw [← toList_spacedText, ← bytesOf_eq]
      rfl
  obtain ⟨htokens, ending, hending⟩ := htokens
  refine Prod.ext htokens ?_
  rw [hending, ending_tokensOf hending, htokens, depthBehind_spacedFrom]

theorem Scanner.AtBoundary.readBefore_of_mem (hs : s.AtBoundary) (ht : t ∈ s.tokens.1) :
    ∃ cs, t.ReadBefore cs := by
  induction s using Scanner.tokens_induction with
  | stop s ending h =>
    rw [h] at ht
    cases ht
  | step s u s' hread hend h ih =>
    rw [h] at ht
    rcases List.mem_cons.1 ht with rfl | ht
    · obtain ⟨_, behind, -, -, -, -, hbefore⟩ := hs.readBefore hread hend
      exact ⟨behind, hbefore⟩
    · exact ih (hs.of_read hread) ht

/-- The tokens of a text that is scanned to its end are read back from their spaced text, each at the
place of its own text, with the kind, the text and the depth it had. A token that is no closing brace
is read back from its text alone. -/
theorem tokensOf_spacedText (h : (tokensOf text).2 = .ok ending) :
    tokensOf (spacedText (tokensOf text).1) = (spacedFrom 0 (tokensOf text).1,
      .ok { ending with offset := (spacedText (tokensOf text).1).utf8ByteSize }) ∧
    (tokensOf (spacedText (tokensOf text).1)).1.map Token.saying = (tokensOf text).1.map Token.saying ∧
    ∀ t ∈ (tokensOf text).1, t.kind ≠ .rBrace →
      (tokensOf t.text).1 = [{ t with offset := 0, depth := 0 }] := by
  have hbefore (t : Token) (ht : t ∈ (tokensOf text).1) : ∃ cs, t.ReadBefore cs :=
    (Scanner.atBoundary_new text).readBefore_of_mem ht
  have hspaced := tokensOf_spacedText_of_readBefore hbefore (nested_tokensOf text)
  refine ⟨?_, ?_, fun t ht hkind => ?_⟩
  · rw [hspaced, ending_tokensOf h]
  · rw [hspaced, saying_spacedFrom]
  · have hnested : Nested 0 [{ t with depth := 0 }] := ⟨fun hclose => absurd hclose hkind, ?_, trivial⟩
    · have hmem : ∀ u ∈ [{ t with depth := 0 }], ∃ cs, Token.ReadBefore u cs :=
        List.forall_mem_singleton.2 (hbefore t ht)
      have halone := tokensOf_spacedText_of_readBefore hmem hnested
      have htext : spacedText [{ t with depth := 0 }] = t.text := by simp [spacedText]
      rw [htext] at halone
      rw [halone]
      rfl
    · rw [TokenKind.ownDepth, if_neg hkind]

/-- Operators that stood together, a name with its colons, a pair of parentheses that was written apart
and a literal with a line feed in it. -/
theorem tokensOf_spacedText_joined :
    (tokensOf "a::b->*c( )>>=/**/\"x\n\\\" //\"\x7b+++\x7d=//").2 = .ok ⟨.endOfText, "", 35, 0⟩ ∧
    (tokensOf "a::b - > * c ( ) >> = \"x\n\\\" //\" \x7b ++ + \x7d =").1.map Token.saying =
      (tokensOf "a::b->*c( )>>=/**/\"x\n\\\" //\"\x7b+++\x7d=//").1.map Token.saying := by
  have hending : (tokensOf "a::b->*c( )>>=/**/\"x\n\\\" //\"\x7b+++\x7d=//").2 =
      .ok ⟨.endOfText, "", 35, 0⟩ := by decide +kernel
  have htext : spacedText (tokensOf "a::b->*c( )>>=/**/\"x\n\\\" //\"\x7b+++\x7d=//").1 =
      "a::b - > * c ( ) >> = \"x\n\\\" //\" \x7b ++ + \x7d =" := by decide +kernel
  have hsaying := (tokensOf_spacedText hending).2.1
  rw [htext] at hsaying
  exact ⟨hending, hsaying⟩

end ReflectionTables.Scanning
