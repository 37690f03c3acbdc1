import ReflectionTables.Proofs.PlacedRecords
import ReflectionTables.Proofs.SpacedTokens
/-!
# Pieces of a text are scanned as the text is

A piece of a text that begins with a token and ends with one is scanned as it was in the text. What
is skipped in front of a token is skipped in the piece, and the token is read in front of what is
left of the piece. Only the braces around the piece are missing, so each brace that closes in the
piece has to be opened in it.
-/

namespace ReflectionTables.ByteSearch

variable {xs ys : List UInt8} {start stop : Nat}

/-- A line that ends inside the first part of the bytes ends there without the second one. -/
theorem lineEnd_of_append (h : lineEnd (xs ++ ys) start ≤ xs.length) :
    lineEnd xs start = lineEnd (xs ++ ys) start := by
  fun_induction lineEnd (xs ++ ys) start with
  | case1 start hnone =>
    have hys : ys = [] := by
      rw [List.length_append] at h
      exact List.length_eq_zero_iff.1 (by omega)
    rw [hys, List.append_nil] at hnone ⊢
    rw [lineEnd]
    split
    · rfl
    · simp_all
  | case2 start i hi hescaped ih =>
    have hle : i + 1 ≤ lineEnd (xs ++ ys) (i + 1) := le_lineEnd (findByte_bounds hi).2
    rw [lineFeedEscaped_append (by omega)] at hescaped
    rw [lineEnd_of_some (findByte_of_append hi (by omega)), if_pos hescaped]
    exact ih h
  | case3 start i hi hescaped =>
    rw [lineFeedEscaped_append (by omega)] at hescaped
    rw [lineEnd_of_some (findByte_of_append hi (by omega)), if_neg hescaped]

theorem commentEnd_of_append (h : commentEnd (xs ++ ys) start = some stop) (hstop : stop ≤ xs.length) :
    commentEnd xs start = some stop := by
  fun_induction commentEnd (xs ++ ys) start with
  | case1 => cases h
  | case2 start i hi hslash =>
    cases h
    rw [List.getElem?_append_left (by omega)] at hslash
    rw [commentEnd_of_some (findByte_of_append hi (by omega)), if_pos hslash]
  | case3 start i hi hslash ih =>
    have hlt := commentEnd_lt h
    rw [List.getElem?_append_left (by omega)] at hslash
    rw [commentEnd_of_some (findByte_of_append hi (by omega)), if_neg hslash]
    exact ih h

end ReflectionTables.ByteSearch

namespace ReflectionTables.Scanning

open Text ByteSearch Parsing

section Bytes

variable {xs ys : List UInt8} {b : UInt8} {kind : TokenKind} {n : Nat}

theorem thins_append_left (xs ys : List UInt8) : Thins xs (xs ++ ys) :=
  ⟨xs, ys, [], rfl, (List.append_nil xs).symm, .inl rfl⟩

theorem Trivia.ofBytes_of_append (h : Trivia.ofBytes (xs ++ ys) = .bytes n) (hn : n ≤ xs.length) :
    Trivia.ofBytes xs = .bytes n := by
  cases xs with
  | nil => exact absurd hn (Nat.not_le.2 (Trivia.pos_of_ofBytes h).1)
  | cons b after =>
    simp only [List.cons_append, Trivia.ofBytes] at h
    simp only [Trivia.ofBytes]
    -- A mark of two bytes stands in the first part with what it begins.
    have hhead : 2 ≤ n → (after ++ ys).head? = after.head? := by
      intro htwo
      cases after with
      | nil => exact absurd (Nat.le_trans htwo hn) (by simp)
      | cons => rfl
    have hmark : ∀ {c : UInt8}, ¬(b == slash && (after ++ ys).head? == some c) = true →
        ¬(b == slash && after.head? == some c) = true := by
      intro c hnot
      cases after with
      | nil => simp
      | cons => exact hnot
    split at h
    · rw [if_pos ‹_›, h]
    rw [if_neg ‹_›]
    split at h
    · rename_i hslash
      cases h
      have htwo : 2 ≤ lineEnd (b :: (after ++ ys)) 2 := by
        refine le_lineEnd ?_
        cases hall : after ++ ys with
        | nil => simp [hall] at hslash
        | cons => simp
      rw [hhead htwo] at hslash
      rw [if_pos hslash]
      exact congrArg _ (lineEnd_of_append hn)
    rw [if_neg (hmark ‹_›)]
    split at h
    · rename_i hstar
      split at h
      · rename_i stop hstop
        cases h
        rw [hhead (Nat.le_of_lt (commentEnd_lt hstop))] at hstar
        rw [if_pos hstar, commentEnd_of_append hstop hn]
      · cases h
    rw [if_neg (hmark ‹_›)]
    split at h
    · cases h
      rw [if_pos ‹_›]
      exact congrArg _ (lineEnd_of_append hn)
    · cases h

theorem Trivia.absent_of_append (h : Trivia.ofBytes (xs ++ ys) = .absent) :
    Trivia.ofBytes xs = .absent := by
  cases xs with
  | nil => rfl
  | cons b after =>
    have hthins : Trivia.ofBytes (b :: ([] ++ after)) = .absent :=
      Trivia.ofBytes_of_thins (thins_append_left after ys) h
    exact hthins

theorem Lexeme.ofBytes_of_append (h : Lexeme.ofBytes b (xs ++ ys) = .token kind n)
    (hn : n ≤ xs.length + 1) : Lexeme.ofBytes b xs = .token kind n := by
  obtain ⟨m, rfl⟩ := Nat.exists_eq_add_of_lt (Lexeme.pos_of_ofBytes h)
  obtain ⟨front, behind, rfl, rfl⟩ : ∃ front behind, xs = front ++ behind ∧ front.length = m :=
    ⟨xs.take m, xs.drop m, (List.take_append_drop m xs).symm, List.length_take_of_le (by omega)⟩
  rw [Nat.zero_add] at h ⊢
  rw [List.append_assoc] at h
  exact Lexeme.ofBytes_of_thins (thins_append_left behind ys) h

end Bytes

section Piece

variable {a b c : String} {outer : Nat} {ending : Except ScanError Token}

/-- Whether the scanner of a text stands at the same place of a piece of it, which stands in so many
braces. -/
structure Scanner.Within (outer : Nat) (s : Scanner b) (s' : Scanner (a ++ (b ++ c))) : Prop where
  position_eq : s'.position = s.position + a.utf8ByteSize
  depth_eq : s'.depth = s.depth + outer

def EndsWithin (a b : String) (offset : Nat) : Prop := offset ≤ b.utf8ByteSize + a.utf8ByteSize

namespace Scanner.Within

variable {s : Scanner b} {s' u' : Scanner (a ++ (b ++ c))} {t : Token} {ts us : List Token}

theorem rest_eq (h : s.Within outer s') (hend : EndsWithin a b s'.position) :
    s'.rest = s.rest ++ bytesOf c := by
  have hle : s.position ≤ (bytesOf b).length := by
    rw [EndsWithin, h.position_eq] at hend
    rw [length_bytesOf]
    omega
  rw [s'.rest_eq, s.rest_eq, h.position_eq, bytesOf_append, bytesOf_append, Nat.add_comm,
    ← length_bytesOf a, List.drop_length_add_append, List.drop_append_of_le_length hle]

theorem length_rest (h : s.Within outer s') :
    s.rest.length = b.utf8ByteSize + a.utf8ByteSize - s'.position := by
  rw [s.rest_eq, List.length_drop, length_bytesOf, h.position_eq]
  omega

theorem skip (h : s.Within outer s') (n : Nat) : (s.skip n).Within outer (s'.skip n) := by
  refine ⟨?_, h.depth_eq⟩
  simp only [Scanner.skip, h.position_eq]
  omega

theorem behind {kind : TokenKind} (h : s.Within outer s') (hopen : kind = .rBrace → 0 < s.depth) (n : Nat) :
    (s.behind kind n).Within outer (s'.behind kind n) := by
  refine skip ⟨?_, ?_⟩ n
  · cases kind <;> exact h.position_eq
  · rw [Scanner.depth_afterBrace, Scanner.depth_afterBrace, h.depth_eq]
    cases kind with
    | lBrace =>
      simp only [TokenKind.depthAfter]
      omega
    | rBrace =>
      have := hopen rfl
      simp only [TokenKind.depthAfter]
      omega
    | _ => rfl

theorem pastTrivia (h : s.Within outer s') (hend : EndsWithin a b s'.pastTrivia.position)
    (habsent : Trivia.ofBytes s'.pastTrivia.rest = .absent) :
    s.pastTrivia.Within outer s'.pastTrivia ∧ Trivia.ofBytes s.pastTrivia.rest = .absent := by
  have hstart : EndsWithin a b s'.position := Nat.le_trans s'.position_pastTrivia_le hend
  fun_induction Scanner.pastTrivia s' generalizing s with
  | case1 s' n hn ih =>
    have hbehind : s'.position + n ≤ (s'.skip n).pastTrivia.position := (s'.skip n).position_pastTrivia_le
    have hlength := h.length_rest
    rw [h.rest_eq hstart] at hn
    rw [EndsWithin] at hend
    rw [pastTrivia_of_bytes (Trivia.ofBytes_of_append hn (by omega))]
    exact ih (h.skip n) hend habsent (Nat.le_trans hbehind hend)
  | case2 s' hs =>
    rw [h.rest_eq hstart] at hs
    have hs := Trivia.absent_of_append hs
    rw [pastTrivia_of_absent hs]
    exact ⟨h, hs⟩
  | case3 s' hs =>
    rw [hs] at habsent
    cases habsent

theorem atHand {n : Nat} (h : s.Within outer s') (hhand : s'.atHand = .ok (t, n))
    (hend : t.kind ≠ .endOfText) (hstop : EndsWithin a b t.stop)
    (habsent : Trivia.ofBytes s.rest = .absent) (hopen : t.kind = .rBrace → 0 < s.depth) :
    ∃ t₀ : Token, s.atHand = .ok (t₀, n) ∧ t = t₀.within a outer := by
  rcases Scanner.atHand_cases hhand with ⟨-, rfl, -⟩ |
    ⟨byte, after, hrest, hlexeme, -, hslice, hoffset, hdepth⟩
  · exact absurd rfl hend
  have hpos := Lexeme.pos_of_ofBytes hlexeme
  have hlength := h.length_rest
  rw [EndsWithin, Token.stop, size_of_slice? hslice, hoffset] at hstop
  have hboth : s'.rest = s.rest ++ bytesOf c := h.rest_eq (by rw [EndsWithin]; omega)
  obtain ⟨xs, hxs, rfl⟩ : ∃ xs, s.rest = byte :: xs ∧ after = xs ++ bytesOf c := by
    rw [hrest] at hboth
    cases hs : s.rest with
    | nil =>
      rw [hs, List.length_nil] at hlength
      omega
    | cons x xs =>
      rw [hs, List.cons_append] at hboth
      obtain ⟨rfl, rfl⟩ := List.cons.inj hboth
      exact ⟨xs, rfl, rfl⟩
  rw [hxs, List.length_cons] at hlength
  have hlexeme' : Lexeme.ofBytes byte xs = .token t.kind n :=
    Lexeme.ofBytes_of_append hlexeme (by omega)
  have hslice' : slice? b s.position (s.position + n) = some t.text := by
    rw [h.position_eq, Nat.add_comm s.position, Nat.add_assoc, slice?_append_right,
      slice?_append_left (by have := h.position_eq; omega)] at hslice
    exact hslice
  refine ⟨⟨t.kind, t.text, s.position, if t.kind = .rBrace then s.depth - 1 else s.depth⟩, ?_, ?_⟩
  · rw [Scanner.atHand, habsent, if_neg (by simp), hxs]
    simp only [hlexeme', Scanner.take, hslice']
    rw [if_neg fun hbad => absurd (hopen hbad.1) (by omega)]
    rfl
  · have hown : t.depth = (if t.kind = .rBrace then s.depth - 1 else s.depth) + outer := by
      rw [hdepth, h.depth_eq]
      split
      · have := hopen ‹_›
        omega
      · rfl
    rw [Token.within, Token.behind, Token.mk.injEq]
    exact ⟨rfl, rfl, hoffset.trans h.position_eq, hown⟩

theorem read (h : s.Within outer s') (hread : s'.read = (.ok t, u')) (hend : t.kind ≠ .endOfText)
    (hstop : EndsWithin a b t.stop) (hopen : t.kind = .rBrace → 0 < s.depth) :
    ∃ (t₀ : Token) (u : Scanner b), s.read = (.ok t₀, u) ∧ t = t₀.within a outer ∧ u.Within outer u' := by
  rw [Scanner.read] at hread
  split at hread
  case h_2 => cases hread
  rename_i t n hhand
  cases hread
  have habsent : Trivia.ofBytes s'.pastTrivia.rest = .absent := by
    cases htrivia : Trivia.ofBytes s'.pastTrivia.rest with
    | absent => rfl
    | bytes n => exact absurd htrivia (s'.trivia_pastTrivia n)
    | unclosed =>
      rw [Scanner.atHand, if_pos htrivia] at hhand
      cases hhand
  have hoffset : t.offset = s'.pastTrivia.position := by
    rcases Scanner.atHand_cases hhand with ⟨-, rfl, -⟩ | ⟨_, _, -, -, -, -, hoffset, -⟩
    · rfl
    · exact hoffset
  have hpastEnd : EndsWithin a b s'.pastTrivia.position := by
    rw [← hoffset]
    exact Nat.le_trans (Nat.le_add_right _ _) hstop
  obtain ⟨hpast, habsent⟩ := h.pastTrivia hpastEnd habsent
  rw [← s.depth_pastTrivia] at hopen
  obtain ⟨t₀, hhand₀, rfl⟩ := hpast.atHand hhand hend hstop habsent hopen
  refine ⟨t₀, s.pastTrivia.behind t₀.kind n, ?_, rfl, hpast.behind hopen n⟩
  rw [Scanner.read, hhand₀]

/-- Tokens that fill the piece up to its end are the tokens of it, if their braces close each other. -/
theorem tokens (h : s.Within outer s') (htokens : s'.tokens = (ts ++ us, ending))
    (hends : ∀ t ∈ ts, EndsWithin a b t.stop)
    (hlast : (ts.map (·.stop)).getLastD s'.position = b.utf8ByteSize + a.utf8ByteSize)
    (hpair : bracesPair s.depth ts = true) :
    ts = placed a outer s.tokens.1 ∧ ∃ t, s.tokens.2 = .ok t := by
  induction ts generalizing s s' with
  | nil =>
    have hrest : s.rest = [] := by
      have hlength := h.length_rest
      rw [List.map_nil, List.getLastD_nil] at hlast
      exact List.length_eq_zero_iff.1 (by omega)
    rw [Scanner.tokens_of_rest_nil hrest]
    exact ⟨rfl, _, rfl⟩
  | cons t ts ih =>
    obtain ⟨u', hread, hend, htokens'⟩ := Scanner.read_of_tokens htokens
    have hreads := Scanner.reads_of_read hread hend
    rw [bracesPair, Bool.and_eq_true, Bool.or_eq_true, decide_eq_true_eq] at hpair
    have hopen : t.kind = .rBrace → 0 < s.depth := fun hkind => hpair.1.resolve_left (by simp [hkind])
    obtain ⟨hstop, hbehind⟩ := List.forall_mem_cons.1 hends
    obtain ⟨t₀, u, hread₀, rfl, hu⟩ := h.read hread hend hstop hopen
    have hdepth : u.depth = t₀.kind.depthAfter s.depth :=
      (Scanner.reads_of_read hread₀ hend).depth_behind
    rw [List.map_cons, List.getLastD_cons, ← hreads.position_eq] at hlast
    have hrest : bracesPair u.depth ts = true := hdepth ▸ hpair.2
    obtain ⟨rfl, hending⟩ := ih hu htokens' hbehind hlast hrest
    rw [Scanner.tokens_of_read hread₀ hend]
    exact ⟨rfl, hending⟩

end Scanner.Within

end Piece

section Between

variable {text piece : String} {start stop : Nat} {t : Token}

/-- The last one of the tokens up to the end of a token ends there. -/
theorem stop_of_tokensBetween (ht : t ∈ tokensBetween text start stop) (hstop : t.stop = stop) :
    ((tokensBetween text start stop).map (·.stop)).getLastD start = stop := by
  obtain ⟨ts, us, hsplit⟩ := List.append_of_mem ht
  cases us with
  | nil => rw [hsplit, List.map_append, List.map_singleton, List.getLastD_concat, hstop]
  | cons u us =>
    have hu : u ∈ tokensBetween text start stop := by simp [hsplit]
    obtain ⟨hmem, -, hle⟩ := mem_tokensBetween.1 hu
    have hpair : (tokensBetween text start stop).Pairwise fun t u => t.stop ≤ u.offset :=
      (pairwise_tokensOf text).filter _
    rw [hsplit, List.pairwise_append, List.pairwise_cons] at hpair
    have := hpair.2.1.1 u List.mem_cons_self
    have := (standsIn_of_mem_tokensOf hmem).offset_lt_stop
    omega

/-- What stands between two tokens, with both of them and without. -/
theorem tokensBetween_of_tokens {before front after : List Token} {opening closing : Token}
    (hsplit : (tokensOf text).1 = before ++ opening :: (front ++ closing :: after)) :
    tokensBetween text opening.offset closing.stop = opening :: (front ++ [closing]) ∧
      tokensBetween text opening.stop (closing.stop - 1) = front := by
  have hproper : ∀ t ∈ before ++ opening :: (front ++ closing :: after), t.offset < t.stop := by
    intro t ht
    exact (standsIn_of_mem_tokensOf (hsplit ▸ ht)).offset_lt_stop
  have hpair := pairwise_tokensOf text
  rw [hsplit, List.pairwise_append, List.pairwise_cons, List.pairwise_append, List.pairwise_cons] at hpair
  obtain ⟨-, ⟨hopening, -, ⟨hclosing, -⟩, hfront⟩, hbefore⟩ := hpair
  have hfirst := hproper opening (by simp)
  have hlast := hproper closing (by simp)
  have hle := hopening closing (by simp)
  have hearly : ∀ t ∈ before, t.offset < opening.offset := fun t ht =>
    Nat.lt_of_lt_of_le (hproper t (List.mem_append_left _ ht)) (hbefore t ht opening List.mem_cons_self)
  have hlate : ∀ t ∈ after, closing.stop < t.stop := fun t ht =>
    Nat.lt_of_le_of_lt (hclosing t ht) (hproper t (by simp [ht]))
  have hinside : ∀ t ∈ front, opening.stop ≤ t.offset ∧ t.stop ≤ closing.stop - 1 := by
    intro t ht
    have := hopening t (List.mem_append_left _ ht)
    have := hfront t ht closing List.mem_cons_self
    omega
  have houter : (tokensOf text).1 = before ++ ((opening :: (front ++ [closing])) ++ after) := by
    rw [hsplit, List.cons_append, List.append_assoc, List.singleton_append]
  have hinner : (tokensOf text).1 = (before ++ [opening]) ++ (front ++ closing :: after) := by
    rw [hsplit, List.append_assoc, List.singleton_append]
  refine ⟨tokensBetween_of_split houter hearly (fun t ht => ?_) hlate,
    tokensBetween_of_split hinner (fun t ht => ?_) hinside (fun t ht => ?_)⟩
  · rcases List.mem_cons.1 ht with rfl | ht
    · omega
    rcases List.mem_append.1 ht with ht | ht
    · have := hinside t ht
      omega
    · rw [List.mem_singleton.1 ht]
      omega
  · rcases List.mem_append.1 ht with ht | ht
    · exact Nat.lt_trans (hearly t ht) hfirst
    · rwa [List.mem_singleton.1 ht]
  · rcases List.mem_cons.1 ht with rfl | ht
    · omega
    · have := hlate t ht
      omega

/-- A piece of a text from the beginning of a token to the end of one is scanned as the tokens between,
if their braces close each other. -/
theorem tokensOf_piece (hstart : BeginsToken text start) (ht : t ∈ tokensBetween text start stop)
    (hstop : t.stop = stop) (hpiece : slice? text start stop = some piece)
    (hpair : bracesPair 0 (tokensBetween text start stop) = true) :
    ∃ before lift, before.utf8ByteSize = start ∧
      tokensBetween text start stop = placed before lift (tokensOf piece).1 ∧
      ∃ ending, (tokensOf piece).2 = .ok ending := by
  have hsize := size_of_slice? hpiece
  have hle := (slice?_eq_some_iff.1 hpiece).1
  have hedge : IsEdge text stop := .inr (.inl ⟨t, (mem_tokensBetween.1 ht).1, hstop⟩)
  obtain ⟨s, after, -, hposition, htokens, -⟩ := exists_scanner_at hstart hedge hle
  obtain ⟨a, c, rfl, rfl⟩ := exists_append_of_slice? hpiece
  have hnew : (Scanner.new piece).Within s.depth s :=
    ⟨hposition.trans (Nat.zero_add _).symm, (Nat.zero_add _).symm⟩
  refine ⟨a, s.depth, rfl, hnew.tokens htokens (fun u hu => ?_) ?_ hpair⟩
  · have := (mem_tokensBetween.1 hu).2.2
    rw [EndsWithin]
    omega
  · rw [hposition, stop_of_tokensBetween ht hstop]
    omega

end Between

end ReflectionTables.Scanning
