import ReflectionTables.Proofs.TextCuts
import ReflectionTables.TokenScanner
/-!
# What the tokens of a text look like

Each is a cut of the text, they follow one another without overlap, and their depths are those of
their braces. The scanner moves on by whole tokens, so all this holds of the tokens from any state
of the scanner on.
-/

namespace ReflectionTables.Scanning

open Text ByteSearch

variable {text : String}

structure Token.StandsIn (t : Token) (text : String) : Prop where
  isCut : slice? text t.offset t.stop = some t.text
  /-- The bytes at its offset are read as this token. -/
  isLexeme : ∃ b after, (bytesOf text).drop t.offset = b :: after ∧
    Lexeme.ofBytes b after = .token t.kind t.text.utf8ByteSize

theorem Token.StandsIn.stop_le {t : Token} (h : t.StandsIn text) : t.stop ≤ text.utf8ByteSize :=
  (slice?_eq_some_iff.1 h.isCut).2.2.1.le_size

def TokenKind.depthAfter (kind : TokenKind) (depth : Nat) : Nat :=
  match kind with
  | .lBrace => depth + 1
  | .rBrace => depth - 1
  | _ => depth

/-- The depth that a token carries: both braces of a pair carry the depth around the pair. -/
def TokenKind.ownDepth (kind : TokenKind) (depth : Nat) : Nat :=
  if kind = .rBrace then depth - 1 else depth

/-- Whether tokens carry the depths of their braces, from a number of open braces on, and no
brace closes that was not opened. -/
def Nested (depth : Nat) : List Token → Prop
  | [] => True
  | t :: ts =>
    (t.kind = .rBrace → 0 < depth) ∧ t.depth = t.kind.ownDepth depth ∧
      Nested (t.kind.depthAfter depth) ts

/-- The number of open braces behind a list of tokens. -/
def depthBehind (depth : Nat) (ts : List Token) : Nat :=
  ts.foldl (fun depth t => t.kind.depthAfter depth) depth

def TokenKind.isBrace (kind : TokenKind) : Bool := kind == .lBrace || kind == .rBrace

theorem TokenKind.isBrace_eq_false {kind : TokenKind} (hopen : kind ≠ .lBrace)
    (hclose : kind ≠ .rBrace) : kind.isBrace = false := by
  simp [isBrace, hopen, hclose]

/-- A token that is no brace opens and closes nothing. -/
theorem TokenKind.depthAfter_of_isBrace {kind : TokenKind} (h : kind.isBrace = false) (depth : Nat) :
    kind.depthAfter depth = depth := by
  cases kind <;> first | rfl | cases h

@[simp] theorem depthBehind_append (depth : Nat) (ts us : List Token) :
    depthBehind depth (ts ++ us) = depthBehind (depthBehind depth ts) us :=
  List.foldl_append

theorem nested_append (depth : Nat) (ts us : List Token) :
    Nested depth (ts ++ us) ↔ Nested depth ts ∧ Nested (depthBehind depth ts) us := by
  induction ts generalizing depth with
  | nil => simp [Nested, depthBehind]
  | cons t ts ih => simp only [List.cons_append, Nested, ih, depthBehind, List.foldl_cons, and_assoc]

/-- How an operator is spelled: one character, the character twice, or with `=`. -/
theorem Lexeme.operator_cases {c : Char} {next : Option Char} {kind : TokenKind} {n : Nat}
    (h : Lexeme.operator c next = .token kind n) :
    (TokenKind.single? c = some kind ∧ n = 1) ∨
      (TokenKind.doubled? c = some kind ∧ next = some c ∧ n = 2) ∨
      (TokenKind.withEquals? c = some kind ∧ next = some '=' ∧ n = 2) := by
  simp only [Lexeme.operator] at h
  repeat' split at h
  all_goals cases h
  all_goals simp_all

theorem TokenKind.mem_of_single? {c : Char} {kind : TokenKind} (h : single? c = some kind) :
    kind ∈ [.semicolon, .comma, .dot, .question, .tilde, .plus, .minus, .star, .slash, .percent,
      .caret, .amp, .pipe, .bang, .eq, .lt, .gt, .colon, .rParen, .rBracket] := by
  unfold single? at h
  split at h <;> cases h <;> simp

theorem TokenKind.mem_of_doubled? {c : Char} {kind : TokenKind} (h : doubled? c = some kind) :
    kind ∈ [.minusMinus, .colonColon, .ampAmp, .pipePipe, .plusPlus, .eqEq, .ltLt, .gtGt] := by
  unfold doubled? at h
  split at h <;> cases h <;> simp

theorem TokenKind.mem_of_withEquals? {c : Char} {kind : TokenKind} (h : withEquals? c = some kind) :
    kind ∈ [.percentEq, .caretEq, .starEq, .slashEq, .bangEq, .minusEq, .colonEq, .ampEq, .pipeEq,
      .plusEq, .ltEq, .gtEq] := by
  unfold withEquals? at h
  split at h <;> cases h <;> simp

theorem Lexeme.operator_ne {c : Char} {next : Option Char} {kind : TokenKind} {n : Nat}
    (hkind : kind = .ident ∨ kind = .rBrace ∨ kind = .endOfText) :
    Lexeme.operator c next ≠ .token kind n := by
  intro h
  rcases Lexeme.operator_cases h with ⟨hc, -⟩ | ⟨hc, -⟩ | ⟨hc, -⟩
  · have hmem := TokenKind.mem_of_single? hc
    rcases hkind with rfl | rfl | rfl <;> simp at hmem
  · have hmem := TokenKind.mem_of_doubled? hc
    rcases hkind with rfl | rfl | rfl <;> simp at hmem
  · have hmem := TokenKind.mem_of_withEquals? hc
    rcases hkind with rfl | rfl | rfl <;> simp at hmem

theorem Lexeme.operator_ne_failed {c : Char} {next : Option Char} {fault : ScanFault} :
    Lexeme.operator c next ≠ .failed fault := by
  intro h
  simp only [Lexeme.operator] at h
  repeat' split at h
  all_goals cases h

theorem Lexeme.ne_end_of_ofBytes {b : UInt8} {after : List UInt8} {kind : TokenKind} {n : Nat}
    (h : Lexeme.ofBytes b after = .token kind n) : kind ≠ .endOfText := by
  rintro rfl
  simp only [Lexeme.ofBytes, Lexeme.quoted] at h
  repeat' split at h
  all_goals first
    | exact Lexeme.operator_ne (.inr (.inr rfl)) h
    | cases h

theorem Token.StandsIn.kind_ne_end {t : Token} (h : t.StandsIn text) : t.kind ≠ .endOfText := by
  obtain ⟨b, after, -, hlexeme⟩ := h.isLexeme
  exact Lexeme.ne_end_of_ofBytes hlexeme

theorem Token.StandsIn.offset_lt_stop {t : Token} (h : t.StandsIn text) : t.offset < t.stop := by
  obtain ⟨b, after, -, hlexeme⟩ := h.isLexeme
  have := Lexeme.pos_of_ofBytes hlexeme
  rw [Token.stop]
  omega

section Spelling

variable {b : UInt8} {after : List UInt8} {kind : TokenKind} {n : Nat}

theorem Lexeme.ofBytes_cases (h : Lexeme.ofBytes b after = .token kind n) :
    kind ∈ [.lBrace, .rBrace, .lParen, .emptyParens, .lBracket, .emptyBrackets, .emptyStr, .str,
        .char, .number] ∨ kind = .ident ∧ isNameStart b = true ∨
      Lexeme.operator (Char.ofNat b.toNat) (after.head?.map fun n => Char.ofNat n.toNat) =
        .token kind n := by
  simp only [Lexeme.ofBytes, Lexeme.quoted] at h
  repeat' split at h
  all_goals first
    | exact .inr (.inr h)
    | cases h
  all_goals simp_all

theorem toNat_of_charOfNat {c : Char} (h : Char.ofNat b.toNat = c) : b.toNat = c.toNat := by
  have hlt := b.toNat_lt
  have hvalid : b.toNat.isValidChar := .inl (by omega)
  rw [← h, Char.ofNat, dif_pos hvalid]
  rfl

/-- A semicolon and an angle bracket are spelled in one way only. -/
theorem Lexeme.single_of_ofBytes (h : Lexeme.ofBytes b after = .token kind n)
    (hkind : kind = .semicolon ∨ kind = .lt ∨ kind = .gt) :
    n = 1 ∧ b.toNat = if kind = .semicolon then 59 else if kind = .lt then 60 else 62 := by
  have hop : Lexeme.operator (Char.ofNat b.toNat) (after.head?.map fun n => Char.ofNat n.toNat) =
      .token kind n := by
    rcases Lexeme.ofBytes_cases h with h | h | h
    · rcases hkind with rfl | rfl | rfl <;> simp at h
    · rcases hkind with rfl | rfl | rfl <;> simp at h
    · exact h
  rcases Lexeme.operator_cases hop with ⟨hc, hn⟩ | ⟨hc, -⟩ | ⟨hc, -⟩
  · refine ⟨hn, ?_⟩
    unfold TokenKind.single? at hc
    split at hc <;> rcases hkind with rfl | rfl | rfl <;> simp at hc
    all_goals exact toNat_of_charOfNat ‹_›
  · have hmem := TokenKind.mem_of_doubled? hc
    rcases hkind with rfl | rfl | rfl <;> simp at hmem
  · have hmem := TokenKind.mem_of_withEquals? hc
    rcases hkind with rfl | rfl | rfl <;> simp at hmem

theorem Lexeme.rBrace_of_ofBytes (h : Lexeme.ofBytes b after = .token .rBrace n) :
    n = 1 ∧ b.toNat = 125 := by
  simp only [Lexeme.ofBytes, Lexeme.quoted] at h
  repeat' split at h
  all_goals first
    | exact absurd h (Lexeme.operator_ne (.inr (.inl rfl)))
    | cases h
  exact ⟨rfl, toNat_of_charOfNat ‹_›⟩

theorem Lexeme.isNameStart_of_ident (h : Lexeme.ofBytes b after = .token .ident n) :
    isNameStart b = true := by
  rcases Lexeme.ofBytes_cases h with h | h | hop
  · simp at h
  · exact h.2
  · exact absurd hop (Lexeme.operator_ne (.inl rfl))

private theorem not_isDigit_of_isAlpha {c : Char} (h : c.isAlpha = true) : c.isDigit = false := by
  rw [Bool.eq_false_iff]
  intro hdigit
  change (decide (c.val ≥ 'A'.val ∧ c.val ≤ 'Z'.val) ||
    (decide (c.val ≥ 'a'.val) && decide (c.val ≤ 'z'.val))) = true at h
  change (decide (c.val ≥ '0'.val) && decide (c.val ≤ '9'.val)) = true at hdigit
  simp only [Bool.or_eq_true, Bool.and_eq_true, decide_eq_true_eq, ge_iff_le,
    UInt32.le_iff_toNat_le] at h hdigit
  have : 'A'.val.toNat = 65 := rfl
  have : 'a'.val.toNat = 97 := rfl
  have : '9'.val.toNat = 57 := rfl
  omega

/-- A letter begins a name and nothing else. -/
theorem Lexeme.kind_of_isNameStart (h : Lexeme.ofBytes b after = .token kind n)
    (hb : isNameStart b = true) : kind = .ident := by
  have hletter : (Char.ofNat b.toNat).isAlpha = true ∨ b = 95 := by
    simpa [isNameStart] using hb
  have hdigit : (Char.ofNat b.toNat).isDigit = false := by
    rcases hletter with hletter | rfl
    · exact not_isDigit_of_isAlpha hletter
    · rfl
  have hne : ∀ c : Char, c.isAlpha = false → c ≠ '_' → Char.ofNat b.toNat ≠ c := by
    rintro c halpha hunderscore rfl
    rcases hletter with hletter | rfl
    · rw [halpha] at hletter
      cases hletter
    · exact hunderscore rfl
  simp only [Lexeme.ofBytes, hne '{' rfl (by decide), hne '}' rfl (by decide),
    hne '(' rfl (by decide), hne '[' rfl (by decide), hne '"' rfl (by decide),
    hne '\'' rfl (by decide), hdigit, hb, if_true, if_false, Bool.false_eq_true] at h
  cases h
  rfl

theorem Lexeme.bytes_of_gtGt (h : Lexeme.ofBytes b after = .token .gtGt n) :
    n = 2 ∧ b.toNat = 62 ∧ ∃ b', after.head? = some b' ∧ b'.toNat = 62 := by
  have hop := ((Lexeme.ofBytes_cases h).resolve_left (by simp)).resolve_left (by simp)
  rcases Lexeme.operator_cases hop with ⟨hc, -⟩ | ⟨hc, hnext, hn⟩ | ⟨hc, -⟩
  · exact absurd (TokenKind.mem_of_single? hc) (by simp)
  · unfold TokenKind.doubled? at hc
    split at hc <;> simp at hc
    obtain ⟨b', hb', hchar⟩ := Option.map_eq_some_iff.1 hnext
    have hgt : Char.ofNat b.toNat = '>' := ‹_›
    exact ⟨hn, toNat_of_charOfNat hgt, b', hb', toNat_of_charOfNat (hchar.trans hgt)⟩
  · exact absurd (TokenKind.mem_of_withEquals? hc) (by simp)

end Spelling

section StandsIn

variable {t u : Token}

theorem Token.StandsIn.bytes_eq (h : t.StandsIn text) :
    bytesOf t.text = ((bytesOf text).drop t.offset).take t.text.utf8ByteSize := by
  rw [(slice?_eq_some_iff.1 h.isCut).2.2.2, Token.stop, List.drop_take]
  congr
  omega

/-- What is spelled like a name is a name. -/
theorem Token.StandsIn.kind_of_text_eq (ht : t.StandsIn text) (hu : u.StandsIn text)
    (hident : t.kind = .ident) (heq : u.text = t.text) : u.kind = .ident := by
  obtain ⟨b, after, hdrop, hlexeme⟩ := ht.isLexeme
  obtain ⟨b', after', hdrop', hlexeme'⟩ := hu.isLexeme
  rw [hident] at hlexeme
  have hpos := Lexeme.pos_of_ofBytes hlexeme
  obtain ⟨n, hn⟩ : ∃ n, t.text.utf8ByteSize = n + 1 := ⟨_, (Nat.succ_pred_eq_of_pos hpos).symm⟩
  have hbytes := ht.bytes_eq
  rw [← heq, hu.bytes_eq, hdrop, hdrop', heq, hn, List.take_succ_cons, List.take_succ_cons,
    List.cons.injEq] at hbytes
  refine Lexeme.kind_of_isNameStart hlexeme' ?_
  rw [hbytes.1]
  exact Lexeme.isNameStart_of_ident hlexeme

theorem Token.StandsIn.stop_of_gt (h : t.StandsIn text) (hkind : t.kind = .gt) :
    t.stop = t.offset + 1 := by
  obtain ⟨b, after, -, hlexeme⟩ := h.isLexeme
  rw [Token.stop, (Lexeme.single_of_ofBytes hlexeme (.inr (.inr hkind))).1]

/-- The two brackets of `>>` can be cut apart. -/
theorem Token.StandsIn.isBoundary_of_gtGt (h : t.StandsIn text) (hkind : t.kind = .gtGt) :
    t.stop = t.offset + 2 ∧ IsBoundary text (t.offset + 1) := by
  obtain ⟨b, after, hdrop, hlexeme⟩ := h.isLexeme
  rw [hkind] at hlexeme
  obtain ⟨hn, hb, b', hafter, hb'⟩ := Lexeme.bytes_of_gtGt hlexeme
  refine ⟨by rw [Token.stop, hn], ?_⟩
  have hbytes := h.bytes_eq
  have htwo : t.text = ">" ++ ">" := by
    apply bytesOf_injective
    rw [hbytes, hdrop, hn]
    cases after with
    | nil => cases hafter
    | cons _ after =>
      cases hafter
      have hb : b = 62 := UInt8.toNat_inj.1 hb
      have hb' : b' = 62 := UInt8.toNat_inj.1 hb'
      rw [hb, hb']
      rfl
  obtain ⟨pre, rest, htext, hpre⟩ := exists_append_of_slice? h.isCut
  rw [htext, ← hpre, isBoundary_append_right, htwo, isBoundary_append_left (by decide)]
  exact (isBoundary_append_left (by decide)).2 (isBoundary_size ">")

end StandsIn

/-- Everything that a read can deliver: the end of the text, or the token at hand. -/
theorem Scanner.read_cases {s s' : Scanner text} {t : Token} (h : s.read = (.ok t, s')) :
    (s.pastTrivia.rest = [] ∧ s' = s.pastTrivia ∧
        t = ⟨.endOfText, "", s.pastTrivia.position, s.pastTrivia.depth⟩) ∨
      ∃ b after n, s.pastTrivia.rest = b :: after ∧ Lexeme.ofBytes b after = .token t.kind n ∧
        (t.kind = .rBrace → 0 < s.pastTrivia.depth) ∧
        slice? text s.pastTrivia.position (s.pastTrivia.position + n) = some t.text ∧
        t.offset = s.pastTrivia.position ∧ t.depth = t.kind.ownDepth s.pastTrivia.depth ∧
        s' = s.pastTrivia.behind t.kind n := by
  rw [Scanner.read] at h
  generalize s.pastTrivia = p at h ⊢
  split at h
  · rename_i t' n hhand
    cases h
    rcases Scanner.atHand_cases hhand with ⟨hrest, rfl, rfl⟩ | ⟨b, after, hrest, hlexeme, hcut⟩
    · exact .inl ⟨hrest, rfl, rfl⟩
    · obtain ⟨hopen, hslice, hoffset, hdepth⟩ := hcut
      exact .inr ⟨b, after, n, hrest, hlexeme, hopen, hslice, hoffset, hdepth, rfl⟩
  · cases h

theorem Scanner.pastTrivia_of_bytes {s : Scanner text} {n : Nat}
    (h : Trivia.ofBytes s.rest = .bytes n) : s.pastTrivia = (s.skip n).pastTrivia := by
  rw [Scanner.pastTrivia]
  split <;> simp_all

theorem Scanner.pastTrivia_of_absent {s : Scanner text} (h : Trivia.ofBytes s.rest = .absent) :
    s.pastTrivia = s := by
  rw [Scanner.pastTrivia]
  split <;> simp_all

theorem Scanner.pastTrivia_of_unclosed {s : Scanner text} (h : Trivia.ofBytes s.rest = .unclosed) :
    s.pastTrivia = s := by
  rw [Scanner.pastTrivia]
  split <;> simp_all

theorem Scanner.position_pastTrivia_le (s : Scanner text) :
    s.position ≤ s.pastTrivia.position := by
  fun_induction Scanner.pastTrivia s with
  | case1 s n _ ih => exact Nat.le_trans (Nat.le_add_right _ _) ih
  | case2 => exact Nat.le_refl _
  | case3 => exact Nat.le_refl _

theorem Scanner.pastTrivia_le_size {s : Scanner text} (h : s.position ≤ text.utf8ByteSize) :
    s.pastTrivia.position ≤ text.utf8ByteSize := by
  fun_induction Scanner.pastTrivia s with
  | case1 s n hn ih =>
    refine ih ?_
    have hle := Trivia.le_length_of_ofBytes hn
    rw [s.rest_eq, List.length_drop, length_bytesOf] at hle
    simp only [Scanner.skip]
    omega
  | case2 => exact h
  | case3 => exact h

@[simp] theorem Scanner.depth_pastTrivia (s : Scanner text) : s.pastTrivia.depth = s.depth := by
  fun_induction Scanner.pastTrivia s with
  | case1 s n _ ih => exact ih
  | case2 => rfl
  | case3 => rfl

@[simp] theorem Scanner.scopes_pastTrivia (s : Scanner text) : s.pastTrivia.scopes = s.scopes := by
  fun_induction Scanner.pastTrivia s with
  | case1 s n _ ih => exact ih
  | case2 => rfl
  | case3 => rfl

@[simp] theorem Scanner.depth_afterBrace (s : Scanner text) (kind : TokenKind) :
    (s.afterBrace kind).depth = kind.depthAfter s.depth := by
  cases kind <;> rfl

def scopesBehind (t : Token) (scopes : List Scope) : List Scope :=
  if t.kind = .rBrace then scopes.dropWhile (·.depth == t.depth) else scopes

theorem nest_scopesBehind {depth : Nat} {scopes : List Scope} {t : Token}
    (hopen : t.kind = .rBrace → 0 < depth) (hdepth : t.depth = t.kind.ownDepth depth)
    (h : (depth :: scopes.map (·.depth)).Pairwise (· > ·)) :
    (t.kind.depthAfter depth :: (scopesBehind t scopes).map (·.depth)).Pairwise (· > ·) := by
  rw [List.pairwise_cons] at h ⊢
  by_cases hkind : t.kind = .rBrace
  · have hpos := hopen hkind
    simp only [TokenKind.ownDepth, hkind, if_true] at hdepth
    simp only [scopesBehind, hkind, if_true, TokenKind.depthAfter, hdepth]
    refine ⟨?_, h.2.sublist ((List.dropWhile_sublist _).map _)⟩
    cases scopes with
    | nil => simp
    | cons s scopes =>
      have hs : depth > s.depth := h.1 _ (by simp)
      have hbelow : ∀ d ∈ scopes.map (·.depth), s.depth > d := by
        simpa using (List.pairwise_cons.1 h.2).1
      intro d hd
      by_cases htop : s.depth = depth - 1
      · rw [List.dropWhile_cons_of_pos (by simpa using htop)] at hd
        have := hbelow d (((List.dropWhile_sublist _).map _).subset hd)
        omega
      · rw [List.dropWhile_cons_of_neg (by simpa using htop), List.map_cons,
          List.mem_cons] at hd
        rcases hd with rfl | hd
        · omega
        · have := hbelow d hd
          omega
  · simp only [scopesBehind, hkind, if_false]
    refine ⟨fun d hd => ?_, h.2⟩
    have := h.1 d hd
    cases hk : t.kind <;> simp_all [TokenKind.depthAfter]
    omega

structure Scanner.Reads (s : Scanner text) (t : Token) (s' : Scanner text) : Prop where
  standsIn : t.StandsIn text
  position_le : s.position ≤ t.offset
  position_eq : s'.position = t.stop
  opened : t.kind = .rBrace → 0 < s.depth
  depth_eq : t.depth = t.kind.ownDepth s.depth
  depth_behind : s'.depth = t.kind.depthAfter s.depth
  scopes_behind : s'.scopes = scopesBehind t s.scopes

theorem Scanner.reads_of_read {s s' : Scanner text} {t : Token} (h : s.read = (.ok t, s'))
    (hend : t.kind ≠ .endOfText) : s.Reads t s' := by
  rcases Scanner.read_cases h with ⟨-, -, rfl⟩ |
    ⟨b, after, n, hrest, hlexeme, hopen, hpiece, hoffset, hdepth, rfl⟩
  · exact absurd rfl hend
  have hsize := size_of_slice? hpiece
  have hstop : t.stop = s.pastTrivia.position + n := by
    rw [Token.stop, hoffset, hsize]
    omega
  have hpos := Lexeme.pos_of_ofBytes hlexeme
  rw [s.depth_pastTrivia] at hopen hdepth
  constructor
  · refine ⟨by rw [hoffset, hstop]; exact hpiece, b, after, ?_, ?_⟩
    · rw [hoffset, ← hrest, Scanner.rest_eq]
    · rw [hlexeme]
      congr
      omega
  · rw [hoffset]
    exact s.position_pastTrivia_le
  · rw [hstop]
    generalize s.pastTrivia = p
    cases t.kind <;> rfl
  · exact hopen
  · exact hdepth
  · simp only [Scanner.behind, Scanner.skip, Scanner.depth_afterBrace, s.depth_pastTrivia]
  · simp only [scopesBehind, ← s.scopes_pastTrivia]
    split
    · rename_i hkind
      simp [Scanner.behind, Scanner.skip, Scanner.afterBrace, hkind, hdepth, TokenKind.ownDepth]
    · rename_i hkind
      generalize s.pastTrivia = p
      simp only [Scanner.behind, Scanner.skip]
      cases hk : t.kind <;> first | rfl | exact absurd hk hkind

section Tokens

variable {s s' : Scanner text} {t : Token}

theorem Scanner.tokens_of_read (h : s.read = (.ok t, s')) (hend : t.kind ≠ .endOfText) :
    s.tokens = (t :: s'.tokens.1, s'.tokens.2) := by
  rw [Scanner.tokens]
  split
  · rename_i heq
    rw [h] at heq
    cases heq
  · rename_i heq
    rw [h] at heq
    cases heq
    rw [dif_neg hend]

theorem Scanner.tokens_of_read_end (h : s.read = (.ok t, s')) (hend : t.kind = .endOfText) :
    s.tokens = ([], .ok t) := by
  rw [Scanner.tokens]
  split
  · rename_i heq
    rw [h] at heq
    cases heq
  · rename_i heq
    rw [h] at heq
    cases heq
    rw [dif_pos hend]

theorem Scanner.tokens_of_read_error {e : ScanError} (h : s.read = (.error e, s')) :
    s.tokens = ([], .error e) := by
  rw [Scanner.tokens]
  split
  · rename_i heq
    rw [h] at heq
    cases heq
    rfl
  · rename_i heq
    rw [h] at heq
    cases heq

theorem Scanner.read_of_tokens {ts : List Token} {ending : Except ScanError Token}
    (h : s.tokens = (t :: ts, ending)) :
    ∃ s', s.read = (.ok t, s') ∧ t.kind ≠ .endOfText ∧ s'.tokens = (ts, ending) := by
  rcases hread : s.read with ⟨answer, s'⟩
  cases answer with
  | error e =>
    rw [Scanner.tokens_of_read_error hread] at h
    cases h
  | ok u =>
    by_cases hend : u.kind = .endOfText
    · rw [Scanner.tokens_of_read_end hread hend] at h
      cases h
    · rw [Scanner.tokens_of_read hread hend] at h
      cases h
      exact ⟨s', rfl, hend, rfl⟩

theorem Scanner.read_of_tokens_nil {ending : Except ScanError Token}
    (h : s.tokens = ([], ending)) : s.read.1 = ending ∧ ∀ t, ending = .ok t → t.kind = .endOfText ∧
      s.read.2 = s.pastTrivia := by
  rcases hread : s.read with ⟨answer, s'⟩
  cases answer with
  | error e =>
    rw [Scanner.tokens_of_read_error hread] at h
    cases h
    exact ⟨rfl, by simp⟩
  | ok u =>
    by_cases hend : u.kind = .endOfText
    · rw [Scanner.tokens_of_read_end hread hend] at h
      cases h
      refine ⟨rfl, fun t ht => ?_⟩
      cases ht
      rcases Scanner.read_cases hread with ⟨-, hs, -⟩ | ⟨_, _, _, -, hlexeme, -⟩
      · exact ⟨hend, hs⟩
      · exact absurd hend (Lexeme.ne_end_of_ofBytes hlexeme)
    · rw [Scanner.tokens_of_read hread hend] at h
      cases h

theorem Scanner.tokens_induction {motive : Scanner text → Prop}
    (stop : ∀ s ending, s.tokens = ([], ending) → motive s)
    (step : ∀ s t s', s.read = (.ok t, s') → t.kind ≠ .endOfText →
      s.tokens = (t :: s'.tokens.1, s'.tokens.2) → motive s' → motive s)
    (s : Scanner text) : motive s := by
  fun_induction Scanner.tokens s with
  | case1 s e s' hread => exact stop s _ (Scanner.tokens_of_read_error hread)
  | case2 s t s' hread hend => exact stop s _ (Scanner.tokens_of_read_end hread hend)
  | case3 s t s' hread hend tokens ending htokens ih =>
    exact step s t s' hread hend (Scanner.tokens_of_read hread hend) ih

theorem Scanner.standsIn_of_mem (s : Scanner text) :
    ∀ t ∈ s.tokens.1, t.StandsIn text ∧ s.position ≤ t.offset := by
  induction s using Scanner.tokens_induction with
  | stop s ending h => simp [h]
  | step s t s' hread hend h ih =>
    have hreads := Scanner.reads_of_read hread hend
    rw [h]
    intro u hu
    rcases List.mem_cons.1 hu with rfl | hu
    · exact ⟨hreads.standsIn, hreads.position_le⟩
    · obtain ⟨hin, hle⟩ := ih u hu
      have := hreads.standsIn.offset_lt_stop
      have := hreads.position_le
      have := hreads.position_eq
      exact ⟨hin, by omega⟩

theorem Scanner.pairwise_tokens (s : Scanner text) :
    s.tokens.1.Pairwise fun t u => t.stop ≤ u.offset := by
  induction s using Scanner.tokens_induction with
  | stop s ending h => simp [h]
  | step s t s' hread hend h ih =>
    rw [h, List.pairwise_cons]
    refine ⟨fun u hu => ?_, ih⟩
    rw [← (Scanner.reads_of_read hread hend).position_eq]
    exact (s'.standsIn_of_mem u hu).2

theorem Scanner.nested_tokens (s : Scanner text) : Nested s.depth s.tokens.1 := by
  induction s using Scanner.tokens_induction with
  | stop s ending h => simp [h, Nested]
  | step s t s' hread hend h ih =>
    have hreads := Scanner.reads_of_read hread hend
    rw [h]
    rw [hreads.depth_behind] at ih
    exact ⟨hreads.opened, hreads.depth_eq, ih⟩

/-- The mark of the end stands at the end of the text and carries the number of open braces. -/
theorem Scanner.ending_eq (s : Scanner text) (hs : s.position ≤ text.utf8ByteSize) {t : Token}
    (ht : s.tokens.2 = .ok t) :
    t = ⟨.endOfText, "", text.utf8ByteSize, depthBehind s.depth s.tokens.1⟩ := by
  induction s using Scanner.tokens_induction with
  | stop s ending h =>
    rw [h] at ht
    subst ht
    have hread := (Scanner.read_of_tokens_nil h).1
    have hkind := ((Scanner.read_of_tokens_nil h).2 t rfl).1
    have hread' : s.read = (.ok t, s.read.2) := Prod.ext hread rfl
    rcases Scanner.read_cases hread' with
      ⟨hrest, -, rfl⟩ | ⟨_, _, _, -, hlexeme, -⟩
    · have hsize : text.utf8ByteSize ≤ s.pastTrivia.position := by
        rw [s.pastTrivia.rest_eq, List.drop_eq_nil_iff, length_bytesOf] at hrest
        exact hrest
      have := Scanner.pastTrivia_le_size hs
      rw [h, s.depth_pastTrivia]
      congr
      omega
    · exact absurd hkind (Lexeme.ne_end_of_ofBytes hlexeme)
  | step s u s' hread hend h ih =>
    have hreads := Scanner.reads_of_read hread hend
    rw [h] at ht ⊢
    rw [ih (by rw [hreads.position_eq]; exact hreads.standsIn.stop_le) ht, hreads.depth_behind]
    rfl

theorem Scanner.exists_offset_of_error (s : Scanner text) {e : ScanError}
    (he : s.tokens.2 = .error e) : ∃ offset, e.location = .ofOffset text offset := by
  induction s using Scanner.tokens_induction with
  | stop s ending h =>
    have hread := (Scanner.read_of_tokens_nil h).1
    rw [h] at he
    subst he
    refine ⟨s.pastTrivia.position, ?_⟩
    rw [Scanner.read] at hread
    generalize s.pastTrivia = p at hread ⊢
    split at hread
    · cases hread
    · rename_i hhand
      cases hread
      simp only [Scanner.atHand, Scanner.take] at hhand
      repeat' split at hhand
      all_goals cases hhand
      all_goals rfl
  | step s t s' _ _ h ih =>
    rw [h] at he
    exact ih he

end Tokens

section WholeText

variable {t : Token}

theorem standsIn_of_mem_tokensOf (h : t ∈ (tokensOf text).1) : t.StandsIn text :=
  ((Scanner.new text).standsIn_of_mem t h).1

theorem pairwise_tokensOf (text : String) :
    (tokensOf text).1.Pairwise fun t u => t.stop ≤ u.offset :=
  (Scanner.new text).pairwise_tokens

theorem nested_tokensOf (text : String) : Nested 0 (tokensOf text).1 :=
  (Scanner.new text).nested_tokens

theorem ending_tokensOf (h : (tokensOf text).2 = .ok t) :
    t = ⟨.endOfText, "", text.utf8ByteSize, depthBehind 0 (tokensOf text).1⟩ :=
  (Scanner.new text).ending_eq (Nat.zero_le _) h

def BeginsToken (text : String) (offset : Nat) : Prop := ∃ t ∈ (tokensOf text).1, t.offset = offset

/-- Whether a token begins or ends at an offset, or all tokens were read and the text ends there. -/
def IsEdge (text : String) (offset : Nat) : Prop :=
  BeginsToken text offset ∨ (∃ t ∈ (tokensOf text).1, t.stop = offset) ∨
    ((∃ t, (tokensOf text).2 = .ok t) ∧ offset = text.utf8ByteSize)

theorem BeginsToken.isEdge {offset : Nat} (h : BeginsToken text offset) : IsEdge text offset := .inl h

theorem BeginsToken.isBoundary {offset : Nat} (h : BeginsToken text offset) :
    IsBoundary text offset := by
  obtain ⟨t, ht, rfl⟩ := h
  exact (slice?_eq_some_iff.1 (standsIn_of_mem_tokensOf ht).isCut).2.1

theorem IsEdge.isBoundary {offset : Nat} (h : IsEdge text offset) : IsBoundary text offset := by
  rcases h with h | ⟨t, ht, rfl⟩ | ⟨-, rfl⟩
  · exact h.isBoundary
  · exact (slice?_eq_some_iff.1 (standsIn_of_mem_tokensOf ht).isCut).2.2.1
  · exact isBoundary_size text

theorem length_tokensOf_le (text : String) : (tokensOf text).1.length ≤ text.utf8ByteSize := by
  have hlength : ∀ (ts : List Token) (start : Nat), start ≤ text.utf8ByteSize →
      (∀ t ∈ ts, t.StandsIn text ∧ start ≤ t.offset) →
      ts.Pairwise (fun t u => t.stop ≤ u.offset) → start + ts.length ≤ text.utf8ByteSize := by
    intro ts
    induction ts with
    | nil => simp
    | cons t ts ih =>
      intro start _ hin hpair
      rw [List.pairwise_cons] at hpair
      obtain ⟨ht, hstart⟩ := hin t (by simp)
      have := ht.offset_lt_stop
      have := ih t.stop ht.stop_le
        (fun u hu => ⟨(hin u (by simp [hu])).1, hpair.1 u hu⟩) hpair.2
      simp only [List.length_cons]
      omega
  have := hlength (tokensOf text).1 0 (Nat.zero_le _)
    (fun t ht => ⟨standsIn_of_mem_tokensOf ht, Nat.zero_le _⟩) (pairwise_tokensOf text)
  omega

end WholeText

end ReflectionTables.Scanning
