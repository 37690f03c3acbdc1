import ReflectionTables.Proofs.CharacterScans
import ReflectionTables.Proofs.SafeCuts
import ReflectionTables.Proofs.ThinnedLexemes
/-!
# Spans that are announced are scanned again

What is announced from one span of the text is scanned again by whoever compiles it. The span is
laid out as its tokens with gaps between them. Collapsing changes the gaps and leaves the tokens, as
long as no line is drawn into one with what follows it, no literal holds a run of blanks, and the
braces of the span close each other.
-/

namespace ReflectionTables.Scanning

open Text ByteSearch Parsing

variable {text : String} {s s' : Scanner text} {t : Token} {ts us after : List Token}
  {cs cs' tail : List Char} {start stop offset depth : Nat} {ending : Except ScanError Token}

theorem IsEdge.not_across (h : IsEdge text offset) (ht : t ∈ (tokensOf text).1) :
    t.stop ≤ offset ∨ offset ≤ t.offset := by
  have hordered : ∀ {u}, u ∈ (tokensOf text).1 → t.stop ≤ u.offset ∨ t = u ∨ u.stop ≤ t.offset := by
    intro u hu
    obtain ⟨before, after, hsplit⟩ := List.append_of_mem hu
    have hpair := pairwise_tokensOf text
    rw [hsplit, List.pairwise_append, List.pairwise_cons] at hpair
    rw [hsplit, List.mem_append, List.mem_cons] at ht
    exact ht.imp (fun ht => hpair.2.2 t ht u List.mem_cons_self) (Or.imp_right (hpair.2.1.1 t))
  rcases h with ⟨u, hu, rfl⟩ | ⟨u, hu, rfl⟩ | ⟨-, rfl⟩
  · rcases hordered hu with hle | rfl | hle
    · exact .inl hle
    · exact .inr (Nat.le_refl _)
    · have := (standsIn_of_mem_tokensOf hu).offset_lt_stop
      exact .inr (by omega)
  · rcases hordered hu with hle | rfl | hle
    · have := (standsIn_of_mem_tokensOf hu).offset_lt_stop
      exact .inl (by omega)
    · exact .inl (Nat.le_refl _)
    · exact .inr hle
  · exact .inl (standsIn_of_mem_tokensOf ht).stop_le

theorem exists_split_tokens (hpair : ts.Pairwise fun t u => t.stop ≤ u.offset)
    (hproper : ∀ t ∈ ts, t.offset < t.stop) (h : ∀ t ∈ ts, t.stop ≤ offset ∨ offset ≤ t.offset) :
    ∃ us vs, ts = us ++ vs ∧ (∀ t ∈ us, t.stop ≤ offset) ∧ ∀ t ∈ vs, offset ≤ t.offset := by
  induction ts with
  | nil => exact ⟨[], [], rfl, by simp, by simp⟩
  | cons t ts ih =>
    rw [List.pairwise_cons] at hpair
    have ht := hproper t List.mem_cons_self
    rcases h t List.mem_cons_self with hle | hle
    · obtain ⟨us, vs, rfl, hus, hvs⟩ := ih hpair.2 (fun u hu => hproper u (List.mem_cons_of_mem t hu))
        (fun u hu => h u (List.mem_cons_of_mem t hu))
      exact ⟨t :: us, vs, rfl, List.forall_mem_cons.2 ⟨hle, hus⟩, hvs⟩
    · refine ⟨[], t :: ts, rfl, by simp, List.forall_mem_cons.2 ⟨hle, fun u hu => ?_⟩⟩
      have := hpair.1 u hu
      omega

def tokensBetween (text : String) (start stop : Nat) : List Token :=
  (tokensOf text).1.filter fun t => start ≤ t.offset ∧ t.stop ≤ stop

theorem mem_tokensBetween : t ∈ tokensBetween text start stop ↔
    t ∈ (tokensOf text).1 ∧ start ≤ t.offset ∧ t.stop ≤ stop := by
  rw [tokensBetween, List.mem_filter, decide_eq_true_eq]

/-- Where those before a row of tokens begin too early and those behind it end too late, the row is what
stands between two offsets. -/
theorem tokensBetween_of_split {before : List Token}
    (hsplit : (tokensOf text).1 = before ++ (us ++ after)) (hbefore : ∀ t ∈ before, t.offset < start)
    (hus : ∀ t ∈ us, start ≤ t.offset ∧ t.stop ≤ stop) (hafter : ∀ t ∈ after, stop < t.stop) :
    tokensBetween text start stop = us := by
  have hnone : before.filter (fun t => start ≤ t.offset ∧ t.stop ≤ stop) = [] := by
    rw [List.filter_eq_nil_iff]
    intro t ht
    have := hbefore t ht
    simp
    omega
  have hall : us.filter (fun t => start ≤ t.offset ∧ t.stop ≤ stop) = us := by
    rw [List.filter_eq_self]
    intro t ht
    rw [decide_eq_true_eq]
    exact hus t ht
  have hnone' : after.filter (fun t => start ≤ t.offset ∧ t.stop ≤ stop) = [] := by
    rw [List.filter_eq_nil_iff]
    intro t ht
    have := hafter t ht
    simp
    omega
  rw [tokensBetween, hsplit, List.filter_append, List.filter_append, hnone, hall, hnone',
    List.nil_append, List.append_nil]

theorem exists_append_tokensBetween (hstart : IsEdge text start) (hstop : IsEdge text stop) :
    ∃ before after, (tokensOf text).1 = before ++ (tokensBetween text start stop ++ after) ∧
      (∀ t ∈ before, t.stop ≤ start) ∧ ∀ t ∈ after, stop ≤ t.offset := by
  have hproper : ∀ t ∈ (tokensOf text).1, t.offset < t.stop := fun t ht =>
    (standsIn_of_mem_tokensOf ht).offset_lt_stop
  obtain ⟨before, rest, hsplit, hbefore, hrest⟩ := exists_split_tokens (pairwise_tokensOf text)
    hproper fun t ht => hstart.not_across ht
  have hpair := pairwise_tokensOf text
  rw [hsplit, List.pairwise_append] at hpair
  have hmem : ∀ t ∈ rest, t ∈ (tokensOf text).1 := fun t ht =>
    hsplit ▸ List.mem_append_right before ht
  obtain ⟨us, after, rfl, hus, hafter⟩ := exists_split_tokens hpair.2.1
    (fun t ht => hproper t (hmem t ht)) fun t ht => hstop.not_across (hmem t ht)
  have hbetween : tokensBetween text start stop = us := by
    refine tokensBetween_of_split hsplit (fun t ht => ?_)
      (fun t ht => ⟨hrest t (List.mem_append_left _ ht), hus t ht⟩) (fun t ht => ?_)
    · exact Nat.lt_of_lt_of_le (hproper t (hsplit ▸ List.mem_append_left _ ht)) (hbefore t ht)
    · exact Nat.lt_of_le_of_lt (hafter t ht) (hproper t (hmem t (List.mem_append_right _ ht)))
  rw [hbetween]
  exact ⟨before, after, hsplit, hbefore, hafter⟩

theorem Scanner.AtBoundary.of_read (h : s.AtBoundary) (hread : s.read = (.ok t, s')) :
    s'.AtBoundary := by
  have hnext := h.read.1
  rwa [hread] at hnext

/-- The scanner comes to every place in the list of tokens. -/
theorem Scanner.AtBoundary.exists_behind (h : s.AtBoundary)
    (htokens : s.tokens = (ts ++ us, ending)) :
    ∃ s' : Scanner text, s'.AtBoundary ∧ s'.tokens = (us, ending) ∧
      s'.position = (ts.map (·.stop)).getLastD s.position := by
  induction ts generalizing s with
  | nil => exact ⟨s, h, htokens, rfl⟩
  | cons t ts ih =>
    obtain ⟨s₁, hread, hend, htokens₁⟩ := Scanner.read_of_tokens htokens
    obtain ⟨s', hs', htokens', hposition⟩ := ih (h.of_read hread) htokens₁
    refine ⟨s', hs', htokens', ?_⟩
    rw [hposition, (Scanner.reads_of_read hread hend).position_eq, List.map_cons, List.getLastD_cons]

/-- Whether a token is read in front of the characters that follow it. -/
def Token.ReadBefore (t : Token) (behind : List Char) : Prop :=
  ∃ b xs, charBytes t.text.toList = b :: xs ∧
    Trivia.ofBytes (b :: (xs ++ charBytes behind)) = .absent ∧
    Lexeme.ofBytes b (xs ++ charBytes behind) = .token t.kind (xs.length + 1)

/-- Whether characters are laid out as the given tokens, in front of `tail`: blanks and block
comments come before each token and a gap comes last. -/
inductive LaidOut (tail : List Char) : List Token → List Char → Prop
  | gap {cs : List Char} (hgap : Gap cs) : LaidOut tail [] cs
  | token {spacing cs : List Char} {t : Token} {ts : List Token} (hspacing : Spacing spacing)
      (ht : t.ReadBefore (cs ++ tail)) (hrest : LaidOut tail ts cs) :
      LaidOut tail (t :: ts) (spacing ++ (t.text.toList ++ cs))

/-- Whether every brace that closes was opened. -/
def bracesPair (depth : Nat) : List Token → Bool
  | [] => true
  | t :: ts => (t.kind != .rBrace || decide (0 < depth)) && bracesPair (t.kind.depthAfter depth) ts

/-- What follows a token is the same up to the first blank after collapsing. -/
theorem thins_squeeze (cs tail : List Char) :
    Thins (charBytes (squeeze false cs)) (charBytes (cs ++ tail)) := by
  obtain ⟨same, rest, rfl, h⟩ := squeeze_cases cs
  refine ⟨charBytes same, charBytes (rest ++ tail), ?_⟩
  rw [List.append_assoc, charBytes_append]
  rcases h with h | ⟨more, h⟩
  · exact ⟨[], rfl, by rw [h, List.append_nil], .inl rfl⟩
  · refine ⟨charBytes (' ' :: more), rfl, by rw [h, charBytes_append], .inr ?_⟩
    rw [charBytes_ascii (by decide)]
    rfl

theorem Token.ReadBefore.squeeze (h : t.ReadBefore (cs ++ tail)) :
    t.ReadBefore (Text.squeeze false cs) := by
  obtain ⟨b, xs, hbytes, htrivia, hlexeme⟩ := h
  have hthins := thins_squeeze cs tail
  exact ⟨b, xs, hbytes, Trivia.ofBytes_of_thins hthins htrivia,
    Lexeme.ofBytes_of_thins hthins hlexeme⟩

theorem Token.ReadBefore.text_ne_nil (h : t.ReadBefore cs) : t.text.toList ≠ [] := by
  obtain ⟨b, xs, hbytes, -⟩ := h
  intro hnil
  rw [hnil] at hbytes
  cases hbytes

/-- Collapsing keeps the layout, if it keeps the text of each token. -/
theorem LaidOut.squeeze (h : LaidOut tail ts cs) (hwords : ∀ t ∈ ts, collapse t.text = t.text)
    (pending : Bool) : LaidOut [] ts (Text.squeeze pending cs) := by
  induction h generalizing pending with
  | gap hgap => exact .gap (hgap.squeeze pending)
  | @token spacing cs t ts hspacing ht hrest ih =>
    obtain ⟨hself, hpending, hhead⟩ := collapse_eq_self (hwords t List.mem_cons_self)
    obtain ⟨c, word, hword⟩ := List.exists_cons_of_ne_nil ht.text_ne_nil
    have hsqueeze : Text.squeeze pending (spacing ++ (t.text.toList ++ cs)) =
        tighten pending spacing ++ (t.text.toList ++ Text.squeeze false cs) := by
      have hword' : t.text.toList ++ cs = c :: (word ++ cs) := by rw [hword, List.cons_append]
      rw [hword', squeeze_append_word (hhead c word hword), ← hword', squeeze_append, hself, hpending]
    rw [hsqueeze]
    refine .token (hspacing.tighten pending) ?_
      (ih (fun u hu => hwords u (List.mem_cons_of_mem t hu)) false)
    rw [List.append_nil]
    exact ht.squeeze

theorem Scanner.AtBoundary.slice?_of_rest (h : s.AtBoundary) (hrest : s.rest = charBytes (cs ++ cs')) :
    slice? text s.position (s.position + (charBytes cs).length) = some (.ofList cs) := by
  obtain ⟨u, v, rfl, hu⟩ := IsBoundary.exists_append h
  have hv : v = .ofList cs ++ .ofList cs' := by
    rw [s.rest_eq, ← hu, bytesOf_append, ← length_bytesOf, List.drop_left, charBytes,
      String.ofList_append] at hrest
    exact bytesOf_injective hrest
  have hslice : slice? (u ++ v) (u.utf8ByteSize + 0) (u.utf8ByteSize + (charBytes cs).length) =
      slice? v 0 (charBytes cs).length := slice?_append_right
  rw [Nat.add_zero, hu] at hslice
  have hle : (charBytes cs).length ≤ (String.ofList cs).utf8ByteSize := Nat.le_refl _
  rw [hslice, hv, slice?_append_left hle, slice?_eq_some_iff]
  refine ⟨Nat.zero_le _, String.Pos.Raw.isValid_zero, isBoundary_size _, ?_⟩
  rw [List.drop_zero, charBytes, List.take_length]

/-- A token at hand is read, and the scanner comes to the characters behind it. -/
theorem Token.ReadBefore.read (h : t.ReadBefore cs) (hs : s.AtBoundary)
    (hrest : s.rest = charBytes (t.text.toList ++ cs)) (hopen : t.kind = .rBrace → 0 < s.depth) :
    ∃ (u : Token) (s' : Scanner text), s.read = (.ok u, s') ∧ u.kind = t.kind ∧ u.text = t.text ∧
      s'.rest = charBytes cs ∧ s'.depth = t.kind.depthAfter s.depth := by
  obtain ⟨b, xs, hbytes, htrivia, hlexeme⟩ := h
  have hafter : s.rest = b :: (xs ++ charBytes cs) := by
    rw [hrest, charBytes_append, hbytes, List.cons_append]
  have hlength : (charBytes t.text.toList).length = xs.length + 1 := by rw [hbytes, List.length_cons]
  have hslice := hs.slice?_of_rest hrest
  rw [hlength, String.ofList_toList] at hslice
  rw [← hafter] at htrivia
  have hhand : s.atHand = .ok (⟨t.kind, t.text, s.position,
      if t.kind = .rBrace then s.depth - 1 else s.depth⟩, xs.length + 1) := by
    rw [Scanner.atHand, htrivia, if_neg (by simp), hafter]
    simp only [hlexeme, Scanner.take, hslice]
    rw [if_neg fun hbad => absurd (hopen hbad.1) (by omega)]
    rfl
  refine ⟨⟨t.kind, t.text, s.position, if t.kind = .rBrace then s.depth - 1 else s.depth⟩,
    s.behind t.kind (xs.length + 1), ?_, rfl, rfl, ?_, Scanner.depth_afterBrace s t.kind⟩
  · rw [Scanner.read, Scanner.pastTrivia_of_absent htrivia, hhand]
  · have hsame : (s.behind t.kind (xs.length + 1)).rest = s.rest.drop (xs.length + 1) := by
      cases t.kind <;> rfl
    rw [hsame, hrest, charBytes_append, ← hlength, List.drop_left]

theorem LaidOut.tokens (h : LaidOut [] ts cs) (hs : s.AtBoundary) (hrest : s.rest = charBytes cs)
    (hline : '\n' ∉ cs) (hbraces : bracesPair s.depth ts = true) :
    s.tokens.1.map spelling = ts.map spelling ∧ ∃ t, s.tokens.2 = .ok t := by
  induction h generalizing s with
  | gap hgap =>
    have hend := Scanner.rest_pastTrivia_of_gap hgap hline hrest
    have hhand : s.pastTrivia.atHand =
        .ok (⟨.endOfText, "", s.pastTrivia.position, s.pastTrivia.depth⟩, 0) := by
      rw [Scanner.atHand, hend]
      rfl
    have hread : s.read = (.ok ⟨.endOfText, "", s.pastTrivia.position, s.pastTrivia.depth⟩,
        s.pastTrivia.behind .endOfText 0) := by
      rw [Scanner.read, hhand]
    rw [Scanner.tokens_of_read_end hread rfl]
    exact ⟨rfl, _, rfl⟩
  | @token spacing cs t ts hspacing ht hlaid ih =>
    obtain ⟨s₁, hrest₁, hdepth, hpast⟩ := Scanner.exists_behind_spacing hspacing hrest
    rw [bracesPair, Bool.and_eq_true, Bool.or_eq_true, decide_eq_true_eq] at hbraces
    obtain ⟨hopen, hbraces⟩ := hbraces
    rw [List.append_nil] at ht
    have habsent : s₁.pastTrivia = s₁ := by
      obtain ⟨b, xs, hbytes, htrivia, -⟩ := ht
      refine Scanner.pastTrivia_of_absent ?_
      rw [hrest₁, charBytes_append, hbytes]
      exact htrivia
    have hs₁ : s₁.AtBoundary := by
      rw [← habsent, ← hpast]
      exact hs.pastTrivia
    obtain ⟨u, s', hread, hkind, htext, hrest', hdepth'⟩ := ht.read hs₁ hrest₁ fun hclose => by
      rw [hdepth]
      exact hopen.resolve_left (by simp [hclose])
    have hread' : s.read = (.ok u, s') := by
      rw [Scanner.read, hpast]
      exact hread
    have hend : u.kind ≠ .endOfText := by
      obtain ⟨b, xs, -, -, hlexeme⟩ := ht
      rw [hkind]
      exact Lexeme.ne_end_of_ofBytes hlexeme
    obtain ⟨htokens, hok⟩ := ih (hs.of_read hread') hrest' (fun hmem => hline (by simp [hmem]))
      (by rw [hdepth', hdepth]; exact hbraces)
    rw [Scanner.tokens_of_read hread' hend, List.map_cons, List.map_cons, htokens, spelling, hkind,
      htext]
    exact ⟨rfl, hok⟩

/-- Whether only blanks and block comments stand in front of tokens, from an offset on. -/
def Spaced (text : String) (offset : Nat) : List Token → Prop
  | [] => True
  | t :: ts => (∃ spacing, slice? text offset t.offset = some spacing ∧ Spacing spacing.toList) ∧
    Spaced text t.stop ts

theorem Scanner.trivia_pastTrivia (s : Scanner text) (n : Nat) :
    Trivia.ofBytes s.pastTrivia.rest ≠ .bytes n := by
  fun_induction Scanner.pastTrivia s with
  | case1 s m hm ih => exact ih
  | case2 s hs => simp [hs]
  | case3 s hs => simp [hs]

theorem prefix_of_charBytes {ds ds' : List Char} (h : cs ++ cs' = ds ++ ds')
    (hle : (charBytes cs).length ≤ (charBytes ds).length) : ∃ rest, ds = cs ++ rest ∧ cs' = rest ++ ds' := by
  obtain ⟨rest, rfl⟩ := prefix_of_length_charBytes_le (List.prefix_append cs cs')
    (h ▸ List.prefix_append ds ds') hle
  rw [List.append_assoc, List.append_cancel_left_eq] at h
  exact ⟨rest, rfl, h⟩

/-- The next token is read in front of what follows it. -/
theorem Scanner.AtBoundary.readBefore (h : s.AtBoundary) (hread : s.read = (.ok t, s'))
    (hend : t.kind ≠ .endOfText) :
    ∃ gap behind, s.rest = charBytes (gap ++ (t.text.toList ++ behind)) ∧
      s'.rest = charBytes behind ∧ s.position + (charBytes gap).length = t.offset ∧
      t.offset + (charBytes t.text.toList).length = s'.position ∧ t.ReadBefore behind := by
  obtain ⟨gap, cs, hrest, hpast, -, hposition⟩ := h.exists_gap
  have hreads := Scanner.reads_of_read hread hend
  have hs' := h.of_read hread
  rcases Scanner.read_cases hread with ⟨-, -, rfl⟩ |
    ⟨b, bytes, n, hbytes, hlexeme, -, hslice, hoffset, -, -⟩
  · exact absurd rfl hend
  have hsize := size_of_slice? hslice
  have hstop : s'.position = t.offset + n := by
    have := hreads.position_eq
    rw [Token.stop] at this
    omega
  obtain ⟨word, behind, hword, hbehind, hlength⟩ := h.pastTrivia.exists_split hs' (by omega)
  have hn : (charBytes word).length = n := by omega
  -- The word between the two places is the text of the token.
  obtain rfl : t.text.toList = word := by
    have hcut := h.pastTrivia.slice?_of_rest hword
    rw [hn, hslice, Option.some.injEq] at hcut
    rw [hcut, String.toList_ofList]
  obtain rfl := charBytes_injective (hpast.symm.trans hword)
  refine ⟨gap, behind, hrest, hbehind, by omega, by omega, ?_⟩
  rw [hpast, charBytes_append] at hbytes
  have hpos := Lexeme.pos_of_ofBytes hlexeme
  obtain ⟨xs, hxs⟩ : ∃ xs, charBytes t.text.toList = b :: xs := by
    cases hchars : charBytes t.text.toList with
    | nil =>
      rw [hchars, List.length_nil] at hn
      omega
    | cons b' xs =>
      rw [hchars, List.cons_append, List.cons.injEq] at hbytes
      exact ⟨xs, by rw [hbytes.1]⟩
  rw [hxs, List.cons_append, List.cons.injEq] at hbytes
  have hlength : n = xs.length + 1 := by rw [← hn, hxs, List.length_cons]
  rw [← hbytes.2, hlength] at hlexeme
  refine ⟨b, xs, hxs, ?_, hlexeme⟩
  rw [← List.cons_append, ← hxs, ← charBytes_append, ← hpast]
  cases htrivia : Trivia.ofBytes s.pastTrivia.rest with
  | absent => rfl
  | bytes m => exact absurd htrivia (s.trivia_pastTrivia m)
  | unclosed =>
    rw [Scanner.read, Scanner.atHand, if_pos htrivia] at hread
    cases hread

/-- Between a boundary and the next token, or the end of the text, stands a gap. -/
theorem gap_of_tokens (h : s.AtBoundary) (htokens : s.tokens = (after, ending))
    (hrest : s.rest = charBytes (cs ++ tail)) (hstop : s.position + (charBytes cs).length = stop)
    (hedge : stop = s.position ∨ (∃ t ts, after = t :: ts ∧ t.offset = stop) ∨
      after = [] ∧ (∃ t, ending = .ok t) ∧ stop = text.utf8ByteSize) : Gap cs := by
  obtain ⟨gap, behind, hrest', hpast, hgap, hposition⟩ := h.exists_gap
  have hcs : s.pastTrivia.position = stop → Gap cs := by
    intro hpast
    have hsame := charBytes_injective (hrest.symm.trans hrest')
    have hfront := prefix_of_length_charBytes_le (List.prefix_append cs tail)
      (hsame ▸ List.prefix_append gap behind) (by omega)
    have hfront' := prefix_of_length_charBytes_le (hsame ▸ List.prefix_append gap behind)
      (List.prefix_append cs tail) (by omega)
    rw [hfront.eq_of_length_le hfront'.length_le]
    exact hgap
  rcases hedge with rfl | ⟨t, ts, rfl, rfl⟩ | ⟨rfl, ⟨t, rfl⟩, rfl⟩
  · have hfront := prefix_of_length_charBytes_le (List.prefix_refl cs) (List.nil_prefix (l := cs))
      (show (charBytes cs).length ≤ 0 by omega)
    rw [List.prefix_nil.1 hfront]
    exact Spacing.nil.gap
  · obtain ⟨s', hread, hend, -⟩ := Scanner.read_of_tokens htokens
    rcases Scanner.read_cases hread with ⟨-, -, rfl⟩ | ⟨b, bytes, n, -, -, -, -, hoffset, -⟩
    · exact absurd rfl hend
    · exact hcs hoffset.symm
  · have hread : s.read = (.ok t, s.read.2) :=
      Prod.ext (Scanner.read_of_tokens_nil htokens).1 rfl
    have hend := s.ending_eq h.le_size (t := t) (by rw [htokens])
    rcases Scanner.read_cases hread with ⟨-, -, heq⟩ | ⟨b, bytes, n, -, hlexeme, -⟩
    · rw [hend, Token.mk.injEq] at heq
      exact hcs heq.2.2.1.symm
    · rw [hend] at hlexeme
      exact absurd rfl (Lexeme.ne_end_of_ofBytes hlexeme)

theorem laidOut_of_tokens (h : s.AtBoundary) (htokens : s.tokens = (us ++ after, ending))
    (hrest : s.rest = charBytes (cs ++ tail)) (hstop : s.position + (charBytes cs).length = stop)
    (hus : ∀ t ∈ us, t.stop ≤ stop) (hspaced : Spaced text s.position us)
    (hedge : stop = (us.map (·.stop)).getLastD s.position ∨
      (∃ t ts, after = t :: ts ∧ t.offset = stop) ∨
      after = [] ∧ (∃ t, ending = .ok t) ∧ stop = text.utf8ByteSize) :
    LaidOut tail us cs := by
  induction us generalizing s cs with
  | nil => exact .gap (gap_of_tokens h htokens hrest hstop hedge)
  | cons t us ih =>
    obtain ⟨s', hread, hend, htokens'⟩ := Scanner.read_of_tokens htokens
    obtain ⟨gap, behind, hrest', hbehind, hoffset, hposition, hbefore⟩ := h.readBefore hread hend
    obtain ⟨⟨spacing, hslice, hspacing⟩, hspaced'⟩ := hspaced
    have hreads := Scanner.reads_of_read hread hend
    have hs' := h.of_read hread
    have hsame := charBytes_injective (hrest'.symm.trans hrest)
    have hle := hus t List.mem_cons_self
    obtain ⟨cs₁, rfl, hcs₁⟩ := prefix_of_charBytes hsame (by have := hreads.position_eq; omega)
    rw [charBytes_append, List.length_append] at hstop
    obtain ⟨cs₂, rfl, hcs₂⟩ := prefix_of_charBytes hcs₁ (by have := hreads.position_eq; omega)
    rw [charBytes_append, List.length_append] at hstop
    obtain rfl : spacing.toList = gap := by
      have hcut := h.slice?_of_rest hrest'
      rw [hoffset, hslice, Option.some.injEq] at hcut
      rw [hcut, String.toList_ofList]
    rw [hcs₂] at hbefore hbehind
    refine .token hspacing hbefore (ih hs' htokens' hbehind (by omega)
      (fun u hu => hus u (List.mem_cons_of_mem t hu)) ?_ ?_)
    · rw [hreads.position_eq]
      exact hspaced'
    · rw [hreads.position_eq]
      rwa [List.map_cons, List.getLastD_cons] at hedge

/-- Whether collapsing a span of the text leaves its tokens: blanks and block comments stand between
them, no run of blanks stands in one, and its braces close each other. -/
structure CollapsesWell (text : String) (start stop : Nat) : Prop where
  spaced : Spaced text start (tokensBetween text start stop)
  words : ∀ t ∈ tokensBetween text start stop, collapse t.text = t.text
  braces : bracesPair 0 (tokensBetween text start stop) = true

@[simp] theorem Scanner.tokens_pastTrivia (s : Scanner text) : s.pastTrivia.tokens = s.tokens := by
  have hpast := s.read_pastTrivia
  rcases hread : s.read with ⟨answer, s'⟩
  rw [hread] at hpast
  cases answer with
  | error e => rw [Scanner.tokens_of_read_error hread, Scanner.tokens_of_read_error hpast]
  | ok t =>
    by_cases hend : t.kind = .endOfText
    · rw [Scanner.tokens_of_read_end hread hend, Scanner.tokens_of_read_end hpast hend]
    · rw [Scanner.tokens_of_read hread hend, Scanner.tokens_of_read hpast hend]

/-- A token that begins where the tokens from a place on begin is the first of them. -/
theorem head_of_mem (hproper : ∀ t ∈ ts, t.offset < t.stop)
    (hpair : ts.Pairwise fun t u => t.stop ≤ u.offset) (hfrom : ∀ t ∈ ts, offset ≤ t.offset)
    (ht : t ∈ ts) (hoffset : t.offset = offset) : ∃ us, ts = t :: us := by
  cases ts with
  | nil => cases ht
  | cons u us =>
    rcases List.mem_cons.1 ht with rfl | ht
    · exact ⟨us, rfl⟩
    · have := (List.pairwise_cons.1 hpair).1 t ht
      have := hproper u List.mem_cons_self
      have := hfrom u List.mem_cons_self
      omega

theorem stop_of_isEdge {before : List Token} (hstop : IsEdge text stop) (hle : start ≤ stop)
    (hsplit : (tokensOf text).1 = before ++ (us ++ after))
    (hbefore : ∀ t ∈ before, t.stop ≤ start) (hus : ∀ t ∈ us, start ≤ t.offset ∧ t.stop ≤ stop)
    (hafter : ∀ t ∈ after, stop ≤ t.offset) :
    stop = (us.map (·.stop)).getLastD start ∨ (∃ t ts, after = t :: ts ∧ t.offset = stop) ∨
      after = [] ∧ (∃ t, (tokensOf text).2 = .ok t) ∧ stop = text.utf8ByteSize := by
  have hproper : ∀ t ∈ (tokensOf text).1, t.offset < t.stop := fun t ht =>
    (standsIn_of_mem_tokensOf ht).offset_lt_stop
  have hpair := pairwise_tokensOf text
  rw [hsplit, List.pairwise_append, List.pairwise_append] at hpair
  have hmem : ∀ {t}, t ∈ (tokensOf text).1 ↔ t ∈ before ∨ t ∈ us ∨ t ∈ after := by
    simp [hsplit]
  rcases hstop with ⟨t, ht, hoffset⟩ | ⟨t, ht, hend⟩ | ⟨hok, hsize⟩
  · have hin : t ∈ after := by
      have := hproper t ht
      rcases hmem.1 ht with ht | ht | ht
      · have := hbefore t ht
        omega
      · have := (hus t ht).2
        omega
      · exact ht
    obtain ⟨ts, hts⟩ := head_of_mem (fun u hu => hproper u (hmem.2 (.inr (.inr hu)))) hpair.2.1.2.1 hafter
      hin hoffset
    exact .inr (.inl ⟨t, ts, hts, hoffset⟩)
  · left
    have := hproper t ht
    rcases hmem.1 ht with hin | hin | hin
    · have := hbefore t hin
      cases us with
      | nil =>
        rw [List.map_nil, List.getLastD_nil]
        omega
      | cons u us =>
        have := hus u List.mem_cons_self
        have := hproper u (hmem.2 (.inr (.inl List.mem_cons_self)))
        omega
    · obtain ⟨vs, u, hvs⟩ := List.eq_nil_or_concat us |>.resolve_left (List.ne_nil_of_mem hin)
      rw [hvs, List.concat_eq_append] at hin hus hpair ⊢
      have hlast := hus u (by simp)
      rw [List.map_append, List.map_singleton, List.getLastD_concat]
      rcases List.mem_append.1 hin with hin | hin
      · have := (List.pairwise_append.1 hpair.2.1.1).2.2 t hin u (by simp)
        have := hproper u (hmem.2 (.inr (.inl (by simp [hvs]))))
        omega
      · rw [← List.mem_singleton.1 hin, hend]
    · have := hafter t hin
      omega
  · refine .inr (.inr ⟨List.eq_nil_iff_forall_not_mem.2 fun t ht => ?_, hok, hsize⟩)
    have hin := hmem.2 (.inr (.inr ht))
    have := hproper t hin
    have := (standsIn_of_mem_tokensOf hin).stop_le
    have := hafter t ht
    omega

/-- The scanner comes to the first token of a span, and reads the tokens of the span next. -/
theorem exists_scanner_at (hstart : BeginsToken text start) (hstop : IsEdge text stop)
    (hle : start ≤ stop) :
    ∃ (s : Scanner text) (after : List Token), s.AtBoundary ∧ s.position = start ∧
      s.tokens = (tokensBetween text start stop ++ after, (tokensOf text).2) ∧
      (stop = ((tokensBetween text start stop).map (·.stop)).getLastD start ∨
        (∃ t ts, after = t :: ts ∧ t.offset = stop) ∨
        after = [] ∧ (∃ t, (tokensOf text).2 = .ok t) ∧ stop = text.utf8ByteSize) := by
  obtain ⟨before, after, hsplit, hbefore, hafter⟩ := exists_append_tokensBetween hstart.isEdge hstop
  have hspan : ∀ t ∈ tokensBetween text start stop, start ≤ t.offset ∧ t.stop ≤ stop := fun t ht =>
    (mem_tokensBetween.1 ht).2
  have hnew : (Scanner.new text).tokens =
      (before ++ (tokensBetween text start stop ++ after), (tokensOf text).2) := Prod.ext hsplit rfl
  obtain ⟨s, hs, htokens, -⟩ := (Scanner.atBoundary_new text).exists_behind hnew
  refine ⟨s.pastTrivia, after, hs.pastTrivia, ?_, s.tokens_pastTrivia.trans htokens,
    stop_of_isEdge hstop hle hsplit hbefore hspan hafter⟩
  -- The first token from here on is the one that begins at the start.
  obtain ⟨t, ht, hoffset⟩ := hstart
  have hproper : ∀ t ∈ (tokensOf text).1, t.offset < t.stop := fun t ht =>
    (standsIn_of_mem_tokensOf ht).offset_lt_stop
  have hin : t ∈ tokensBetween text start stop ++ after := by
    rw [hsplit, List.mem_append] at ht
    refine ht.resolve_left fun hbad => ?_
    have := hbefore t hbad
    have := hproper t (hsplit ▸ List.mem_append_left _ hbad)
    omega
  have hpair := pairwise_tokensOf text
  rw [hsplit, List.pairwise_append] at hpair
  obtain ⟨us, hus⟩ := head_of_mem (fun u hu => hproper u (hsplit ▸ List.mem_append_right _ hu)) hpair.2.1
    (fun u hu => (List.mem_append.1 hu).elim (fun hu => (hspan u hu).1)
      fun hu => Nat.le_trans hle (hafter u hu)) hin hoffset
  rw [hus] at htokens
  obtain ⟨s', hread, hend, -⟩ := Scanner.read_of_tokens htokens
  rcases Scanner.read_cases hread with ⟨-, -, rfl⟩ | ⟨b, bytes, n, -, -, -, -, hposition, -⟩
  · exact absurd rfl hend
  · rw [← hposition, hoffset]

theorem Scanner.AtBoundary.rest_of_slice? {piece : String} (h : s.AtBoundary)
    (hpiece : slice? text s.position stop = some piece) :
    (∃ tail, s.rest = charBytes (piece.toList ++ tail)) ∧
      s.position + (charBytes piece.toList).length = stop := by
  obtain ⟨hle, -, hstop, -⟩ := slice?_eq_some_iff.1 hpiece
  have hskip : (s.skip (stop - s.position)).AtBoundary := by
    change IsBoundary text (s.position + (stop - s.position))
    rwa [Nat.add_sub_cancel' hle]
  obtain ⟨cs, tail, hrest, -, hposition⟩ := h.exists_split hskip (Nat.le_add_right _ _)
  have hposition' : s.position + (charBytes cs).length = stop := by
    rw [← hposition]
    exact Nat.add_sub_cancel' hle
  have hcut := h.slice?_of_rest hrest
  rw [hposition', hpiece, Option.some.injEq] at hcut
  rw [hcut, String.toList_ofList]
  exact ⟨⟨tail, hrest⟩, hposition'⟩

/-- The collapsed text of a span is scanned as the tokens of the span. -/
theorem tokensOf_collapse {piece : String} (h : CollapsesWell text start stop)
    (hstart : BeginsToken text start) (hstop : IsEdge text stop)
    (hpiece : slice? text start stop = some piece) :
    (tokensOf (collapse piece)).1.map spelling = (tokensBetween text start stop).map spelling ∧
      ∃ t, (tokensOf (collapse piece)).2 = .ok t := by
  obtain ⟨hle, -⟩ := slice?_eq_some_iff.1 hpiece
  obtain ⟨s, after, hs, hposition, htokens, hedge⟩ := exists_scanner_at hstart hstop hle
  subst hposition
  obtain ⟨⟨tail, hrest⟩, hlength⟩ := hs.rest_of_slice? hpiece
  have hlaid := laidOut_of_tokens hs htokens hrest hlength
    (fun t ht => (mem_tokensBetween.1 ht).2.2) h.spaced hedge
  have hcollapse : (collapse piece).toList = squeeze false piece.toList := by
    cases hchars : piece.toList with
    | nil =>
      rw [collapse, hchars, words_nil]
      rfl
    | cons c cs =>
      have hlt : s.position < stop := by
        rw [hchars, charBytes_cons, List.length_append, String.length_utf8EncodeChar] at hlength
        have := c.utf8Size_pos
        omega
      obtain ⟨d, ds, hword, hblank⟩ := hstart.exists_word hlt hpiece
      rw [hchars] at hword
      cases hword
      exact toList_collapse hchars hblank
  have hline : '\n' ∉ squeeze false piece.toList := by
    intro hmem
    have := eq_space_of_mem_squeeze hmem rfl
    cases this
  exact (hlaid.squeeze h.words false).tokens (s := .new (collapse piece))
    (Scanner.atBoundary_new _) (by rw [← hcollapse, ← bytesOf_eq]; rfl) hline h.braces

end ReflectionTables.Scanning

namespace ReflectionTables.Parsing

open Text Scanning Reflected Parsing.Parser

variable {text shown : String} {start stop : Nat} {α σ : Type}

def Parser.log (m : Machine σ) : Parser α → σ → List Request
  | done _, _ => []
  | ask request next, s =>
    request :: match m request s with
      | .ok (answer, s') => (next answer).log m s'
      | .error _ => []

theorem Parser.Reaches.of_log {m : Machine σ} {p p' : Parser α} {s s' : σ}
    {history before after : List Request} {request : Request} (h : Reaches m p s history p' s')
    (hlog : p'.log m s' = before ++ request :: after) :
    ∃ history next s'', Reaches m p s history (ask request next) s'' := by
  induction p' generalizing history s' before with
  | done a => simp [log] at hlog
  | ask first next ih =>
    rw [log] at hlog
    cases before with
    | nil =>
      obtain rfl := (List.cons.inj hlog).1
      exact ⟨history, next, s', h⟩
    | cons r before =>
      have hlog := (List.cons.inj hlog).2
      split at hlog
      · rename_i answer s'' hanswer
        exact ih answer (h.step hanswer) hlog
      · simp at hlog

/-- Whether an implementation file announces the text between two offsets, with its blanks
collapsed. -/
def AnnouncesSpan (text : String) (start stop : Nat) (shown : String) : Prop :=
  [.cut .span start stop, .role, .note (.announced shown)] <:+:
      fileItems.log ParserState.machine (.new .source text) ∧
    (slice? text start stop).map collapse = some shown

instance (text : String) (start stop : Nat) (shown : String) :
    Decidable (AnnouncesSpan text start stop shown) :=
  inferInstanceAs (Decidable (_ ∧ _))

/-- A declaration that is announced as one span of the text is scanned as the tokens of the span, if
collapsing leaves them. -/
theorem tokensOf_announced (h : AnnouncesSpan text start stop shown)
    (hwell : CollapsesWell text start stop) :
    (tokensOf shown).1.map spelling = (tokensBetween text start stop).map spelling ∧
      ∃ t, (tokensOf shown).2 = .ok t := by
  obtain ⟨⟨before, after, hlog⟩, hshown⟩ := h
  have hlog : fileItems.log ParserState.machine (.new .source text) =
      before ++ .cut .span start stop :: (.role :: .note (.announced shown) :: after) := by
    simpa using hlog.symm
  obtain ⟨_, _, _, hreaches⟩ := Reaches.start.of_log hlog
  obtain ⟨c, -, hobeys, -⟩ := exists_reading hreaches
  have hlegal : BeginsToken text start ∧ IsEdge text stop := (obeys_ask.1 hobeys).1
  obtain ⟨piece, hpiece, rfl⟩ := Option.map_eq_some_iff.1 hshown
  exact tokensOf_collapse hwell hlegal.1 hlegal.2 hpiece

/-- A block comment stays a comment, whatever it says. -/
theorem tokensOf_announced_commented :
    (tokensOf "int /* // */ f( void)").1.map spelling =
        (tokensBetween "int  /* // */ f(\n void)  ;" 0 23).map spelling ∧
      ∃ t, (tokensOf "int /* // */ f( void)").2 = .ok t := by
  refine tokensOf_announced (by decide +kernel) ⟨?_, by decide +kernel, by decide +kernel⟩
  have htokens : tokensBetween "int  /* // */ f(\n void)  ;" 0 23 =
      [⟨.ident, "int", 0, 0⟩, ⟨.ident, "f", 14, 0⟩, ⟨.lParen, "(", 15, 0⟩, ⟨.ident, "void", 18, 0⟩,
        ⟨.rParen, ")", 22, 0⟩] := by decide +kernel
  have hcomment : Spacing "  /* // */ ".toList :=
    .blank (by decide) rfl <| .blank (by decide) rfl <|
      @Spacing.comment " // ".toList [' '] (by decide) (.blank (by decide) rfl .nil)
  rw [htokens]
  exact ⟨⟨"", by decide +kernel, .nil⟩, ⟨_, by decide +kernel, hcomment⟩, ⟨"", by decide +kernel, .nil⟩,
    ⟨"\n ", by decide +kernel, .blank (by decide) rfl (.blank (by decide) rfl .nil)⟩,
    ⟨"", by decide +kernel, .nil⟩, trivial⟩

/-- A comment that a line feed ended swallows what follows it. -/
example : AnnouncesSpan "int // n\n x;" 0 11 "int // n x" ∧
    (tokensOf "int // n x").1.map spelling = [(.ident, "int")] := by
  decide +kernel

end ReflectionTables.Parsing
