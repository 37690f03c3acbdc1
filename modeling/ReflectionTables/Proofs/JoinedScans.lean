import ReflectionTables.Proofs.SearchWindows
import ReflectionTables.Proofs.ScannedTokens
/-!
# The tokens of a joined text

If the first part ends in a semicolon or a closing brace, nothing behind it changes how its bytes
are read: no search looks further, no name goes on and no operator grows. From there on the scanner
reads the second part as it would alone.
-/

namespace ReflectionTables.ByteSearch

variable {xs ys : List UInt8} {start i : Nat}

theorem findClass_append {p : UInt8 → Bool} (h : findClass xs start p = some i) :
    findClass (xs ++ ys) start p = some i := by
  have hle := findClass_bounds h
  rw [findClass_eq, Option.map_eq_some_iff] at h
  obtain ⟨j, hj, rfl⟩ := h
  rw [findClass_eq, List.drop_append_of_le_length (by omega), List.findIdx?_append, hj]
  rfl

theorem findByte_append {needle : UInt8} (h : findByte xs start needle = some i) :
    findByte (xs ++ ys) start needle = some i := by
  rw [findByte_eq, ← findClass_eq] at h ⊢
  exact findClass_append h

theorem backslashesBefore_append (h : i ≤ xs.length) :
    backslashesBefore (xs ++ ys) i = backslashesBefore xs i := by
  rw [backslashesBefore, backslashesBefore, List.take_append_of_le_length h]

theorem lineFeedEscaped_append (h : i ≤ xs.length) :
    lineFeedEscaped (xs ++ ys) i = lineFeedEscaped xs i := by
  by_cases hpos : 0 < i
  · have hget : (xs ++ ys)[i - 1]? = xs[i - 1]? := List.getElem?_append_left (by omega)
    simp only [lineFeedEscaped, hget]
    split <;> rw [backslashesBefore_append (by omega)]
  · have hzero : i = 0 := by omega
    subst hzero
    rfl

theorem findUnescaped_append {quote : UInt8} (h : findUnescaped xs start quote = some i) :
    findUnescaped (xs ++ ys) start quote = some i := by
  fun_induction findUnescaped xs start quote with
  | case1 => cases h
  | case2 start j hj heven =>
    have hle := Nat.le_of_lt (findByte_bounds hj).2
    rw [findUnescaped_of_some (findByte_append hj), backslashesBefore_append hle, if_pos heven, h]
  | case3 start j hj hodd ih =>
    have hle := Nat.le_of_lt (findByte_bounds hj).2
    rw [findUnescaped_of_some (findByte_append hj), backslashesBefore_append hle, if_neg hodd]
    exact ih h

/-- A line that ends inside the bytes ends there whatever comes behind them. -/
theorem lineEnd_append (h : lineEnd xs start < xs.length) :
    lineEnd (xs ++ ys) start = lineEnd xs start := by
  fun_induction lineEnd xs start with
  | case1 => omega
  | case2 start j hj hescaped ih =>
    have hle := Nat.le_of_lt (findByte_bounds hj).2
    rw [lineEnd_of_some (findByte_append hj), lineFeedEscaped_append hle, if_pos hescaped]
    exact ih h
  | case3 start j hj hescaped =>
    have hle := Nat.le_of_lt (findByte_bounds hj).2
    rw [lineEnd_of_some (findByte_append hj), lineFeedEscaped_append hle, if_neg hescaped]

theorem commentEnd_append {stop : Nat} (h : commentEnd xs start = some stop) :
    commentEnd (xs ++ ys) start = some stop := by
  fun_induction commentEnd xs start with
  | case1 => cases h
  | case2 start j hj hslash =>
    have hlt : j + 1 < xs.length := (List.getElem?_eq_some_iff.1 (eq_of_beq hslash)).1
    rw [commentEnd_of_some (findByte_append hj), List.getElem?_append_left hlt, if_pos hslash, h]
  | case3 start j hj hslash ih =>
    have hlt : j + 1 < xs.length := by
      have := commentEnd_lt h
      have := commentEnd_le_length h
      omega
    rw [commentEnd_of_some (findByte_append hj), List.getElem?_append_left hlt, if_neg hslash]
    exact ih h

def semicolon : UInt8 := 59

def closingBrace : UInt8 := 125

/-- Whether a byte is a token of its own, whatever stands beside it. -/
def StandsApart (b : UInt8) : Prop := b = semicolon ∨ b = closingBrace

def EndsApart (xs : List UInt8) : Prop := ∃ b, StandsApart b ∧ xs.getLast? = some b

theorem StandsApart.not_joined {b : UInt8} (h : StandsApart b) :
    (b == colon) = false ∧ isNameByte b = false := by
  rcases h with rfl | rfl <;> decide

theorem joinsAt_append (hlast : EndsApart xs) (h : i < xs.length) :
    joinsAt (xs ++ ys) i = joinsAt xs i := by
  obtain ⟨b, hb, hlast⟩ := hlast
  have hcolon := hb.not_joined.1
  rw [List.getLast?_eq_getElem?] at hlast
  have hget : (xs ++ ys)[i]? = xs[i]? := List.getElem?_append_left h
  by_cases hlt : i + 2 < xs.length
  · have hget₁ : (xs ++ ys)[i + 1]? = xs[i + 1]? := List.getElem?_append_left (by omega)
    have hget₂ : (xs ++ ys)[i + 2]? = xs[i + 2]? := List.getElem?_append_left hlt
    simp only [joinsAt, hget, hget₁, hget₂]
  · have hnone : xs[i + 2]? = none := List.getElem?_eq_none (by omega)
    by_cases hend : i = xs.length - 1
    · rw [← hend] at hlast
      simp [joinsAt, hget, hlast, hcolon]
    · have hend' : xs.length - 1 = i + 1 := by omega
      have hget₁ : (xs ++ ys)[i + 1]? = xs[i + 1]? := List.getElem?_append_left (by omega)
      rw [hend'] at hlast
      simp [joinsAt, hget₁, hlast, hcolon]

theorem nameEnd_append (hlast : EndsApart xs) (h : start < xs.length) :
    nameEnd (xs ++ ys) start = nameEnd xs start := by
  fun_induction nameEnd xs start with
  | case1 start hnone =>
    rw [findClass_eq, Option.map_eq_none_iff, List.findIdx?_eq_none_iff] at hnone
    obtain ⟨b, hb, hlast⟩ := hlast
    have hmem : b ∈ xs.drop start := by
      refine List.mem_of_getLast? ?_
      rw [List.getLast?_drop, if_neg (by omega), hlast]
    have hjoined := hnone b hmem
    rw [hb.not_joined.2] at hjoined
    cases hjoined
  | case2 start j hj hjoins ih =>
    have hle := (findClass_bounds hj).2
    rw [nameEnd_of_some (findClass_append hj), joinsAt_append hlast hle, if_pos hjoins]
    refine ih ?_
    simp only [joinsAt, Bool.and_eq_true] at hjoins
    cases hb : xs[j + 2]? with
    | none => simp [hb] at hjoins
    | some b => exact (List.getElem?_eq_some_iff.1 hb).1
  | case3 start j hj hjoins =>
    have hle := (findClass_bounds hj).2
    rw [nameEnd_of_some (findClass_append hj), joinsAt_append hlast hle, if_neg hjoins]

end ReflectionTables.ByteSearch

namespace ReflectionTables.Scanning

open Text ByteSearch

section Bytes

variable {xs ys : List UInt8} {n : Nat}

/-- What stands behind the first byte is known, unless that byte is the last one. -/
theorem head?_append_of_endsApart {b : UInt8} {after : List UInt8} (ys : List UInt8)
    (hlast : EndsApart (b :: after)) (hb : ¬StandsApart b) :
    (after ++ ys).head? = after.head? ∧ after ≠ [] := by
  cases after with
  | nil =>
    obtain ⟨c, hc, hlast⟩ := hlast
    cases hlast
    exact absurd hc hb
  | cons a after => exact ⟨rfl, by simp⟩

theorem Trivia.ofBytes_standsApart {b : UInt8} (hb : StandsApart b) (after : List UInt8) :
    Trivia.ofBytes (b :: after) = .absent := by
  rcases hb with rfl | rfl <;>
    simp [Trivia.ofBytes, isBlankByte, semicolon, closingBrace, slash]

/-- Trivia that ends inside the bytes is the same whatever comes behind them. -/
theorem Trivia.ofBytes_append (hlast : EndsApart xs)
    (hclosed : Trivia.ofBytes xs ≠ .unclosed)
    (hinside : ∀ n, Trivia.ofBytes xs = .bytes n → n < xs.length) :
    Trivia.ofBytes (xs ++ ys) = Trivia.ofBytes xs := by
  cases xs with
  | nil =>
    obtain ⟨_, -, hlast⟩ := hlast
    cases hlast
  | cons b after =>
    by_cases hb : StandsApart b
    · rw [List.cons_append, Trivia.ofBytes_standsApart hb, Trivia.ofBytes_standsApart hb]
    have hhead := (head?_append_of_endsApart ys hlast hb).1
    generalize htrivia : Trivia.ofBytes (b :: after) = trivia at hclosed hinside ⊢
    simp only [Trivia.ofBytes] at htrivia
    simp only [List.cons_append, Trivia.ofBytes, hhead]
    rw [← List.cons_append]
    split at htrivia
    · rw [if_pos ‹_›, htrivia]
    rw [if_neg ‹_›]
    split at htrivia
    · rw [if_pos ‹_›, lineEnd_append (hinside _ htrivia.symm), htrivia]
    rw [if_neg ‹_›]
    split at htrivia
    · rw [if_pos ‹_›]
      split at htrivia
      · rename_i hstop
        rw [commentEnd_append hstop]
        exact htrivia
      · exact absurd htrivia.symm hclosed
    rw [if_neg ‹_›]
    split at htrivia
    · rw [if_pos ‹_›, lineEnd_append (hinside _ htrivia.symm), htrivia]
    · rw [if_neg ‹_›, htrivia]

theorem Lexeme.quoted_append {quote : UInt8} {kind k : TokenKind} {fault : ScanFault}
    (h : Lexeme.quoted xs quote kind fault = .token k n) :
    Lexeme.quoted (xs ++ ys) quote kind fault = .token k n := by
  simp only [Lexeme.quoted] at h ⊢
  split at h
  · rename_i hstop
    rw [findUnescaped_append hstop]
    exact h
  · cases h

theorem Lexeme.ofBytes_standsApart {b : UInt8} (hb : StandsApart b) (after after' : List UInt8) :
    Lexeme.ofBytes b after = Lexeme.ofBytes b after' := by
  rcases hb with rfl | rfl
  · have hnone : TokenKind.doubled? ';' = none := rfl
    have hnone' : TokenKind.withEquals? ';' = none := rfl
    change Lexeme.operator ';' _ = Lexeme.operator ';' _
    simp [Lexeme.operator, hnone, hnone']
  · rfl

/-- A token of bytes whose last one stands apart is the same whatever comes behind them. -/
theorem Lexeme.ofBytes_append {b : UInt8} {after : List UInt8} {kind : TokenKind}
    (hlast : EndsApart (b :: after)) (h : Lexeme.ofBytes b after = .token kind n) :
    Lexeme.ofBytes b (after ++ ys) = .token kind n := by
  by_cases hb : StandsApart b
  · rw [← h]
    exact Lexeme.ofBytes_standsApart hb _ _
  obtain ⟨hhead, hne⟩ := head?_append_of_endsApart ys hlast hb
  have hname : nameEnd (b :: (after ++ ys)) 1 = nameEnd (b :: after) 1 := by
    rw [← List.cons_append]
    refine nameEnd_append hlast ?_
    have := List.length_pos_iff.2 hne
    simpa using this
  have hnumber : (after ++ ys).takeWhile (fun d =>
      (Char.ofNat d.toNat).isDigit || Char.ofNat d.toNat == '.') = after.takeWhile (fun d =>
      (Char.ofNat d.toNat).isDigit || Char.ofNat d.toNat == '.') := by
    obtain ⟨c, hc, hlast⟩ := hlast
    have hmem : c ∈ after := by
      refine List.mem_of_getLast? ?_
      rwa [List.getLast?_cons_of_ne_nil hne] at hlast
    rw [List.takeWhile_append, if_neg]
    intro heq
    have hall := (List.takeWhile_prefix _).eq_of_length heq
    have hall' := List.all_eq_true.1 (hall ▸ List.all_takeWhile) c hmem
    rcases hc with rfl | rfl <;> revert hall' <;> decide
  have hquoted {quote : UInt8} {kind k : TokenKind} {fault : ScanFault}
      (h : Lexeme.quoted (b :: after) quote kind fault = .token k n) :
      Lexeme.quoted (b :: (after ++ ys)) quote kind fault = .token k n := Lexeme.quoted_append h
  simp only [Lexeme.ofBytes] at h
  simp only [Lexeme.ofBytes, hhead, hname, hnumber]
  repeat' split at h
  all_goals simp only [*, if_true, if_false, Bool.false_eq_true, Char.reduceEq, Option.some.injEq]
  all_goals exact hquoted h
end Bytes

variable {text : String} {n : Nat}

section First

variable {a b : String}

def Token.behind (t : Token) (before : String) : Token :=
  { t with offset := t.offset + before.utf8ByteSize }

@[simp] theorem Token.stop_behind (t : Token) (before : String) :
    (t.behind before).stop = t.stop + before.utf8ByteSize := by
  simp only [Token.behind, Token.stop]
  omega

def ScanError.behind (e : ScanError) (before : String) : ScanError :=
  ⟨e.fault, e.location.behind before⟩

/-- Whether the last byte of a text is a semicolon and a token. -/
def EndsInSemicolon (text : String) : Prop :=
  ∃ t ∈ (tokensOf text).1, t.kind = .semicolon ∧ t.stop = text.utf8ByteSize

/-- Whether the scanner of a joined text stands at the same place of its first part. -/
structure Scanner.Precedes (s : Scanner a) (s' : Scanner (a ++ b)) : Prop where
  position_eq : s'.position = s.position
  depth_eq : s'.depth = s.depth

theorem Scanner.endsApart_rest {s : Scanner text} (h : EndsApart (bytesOf text))
    (hs : s.rest ≠ []) : EndsApart s.rest := by
  have hlt : s.position < (bytesOf text).length := by
    rw [s.rest_eq, ne_eq, List.drop_eq_nil_iff] at hs
    omega
  obtain ⟨b, hb, hlast⟩ := h
  exact ⟨b, hb, by rw [s.rest_eq, List.getLast?_drop, if_neg (by omega), hlast]⟩

namespace Scanner.Precedes

variable {s : Scanner a} {s' : Scanner (a ++ b)}

theorem rest_eq (h : s.Precedes s') (hs : s.rest ≠ []) : s'.rest = s.rest ++ bytesOf b := by
  have hlt : s.position < (bytesOf a).length := by
    rw [s.rest_eq, ne_eq, List.drop_eq_nil_iff] at hs
    omega
  rw [s'.rest_eq, s.rest_eq, h.position_eq, bytesOf_append,
    List.drop_append_of_le_length (by omega)]

theorem skip (h : s.Precedes s') (n : Nat) : (s.skip n).Precedes (s'.skip n) :=
  ⟨congrArg (· + n) h.position_eq, h.depth_eq⟩

theorem behind (h : s.Precedes s') (kind : TokenKind) (n : Nat) :
    (s.behind kind n).Precedes (s'.behind kind n) := by
  refine skip ?_ n
  cases kind <;> exact ⟨h.position_eq, by simp [Scanner.afterBrace, h.depth_eq]⟩

/-- Trivia is skipped alike in front of a token. -/
theorem pastTrivia (h : s.Precedes s') (hlast : EndsApart (bytesOf a))
    (hrest : s.pastTrivia.rest ≠ []) (hclosed : Trivia.ofBytes s.pastTrivia.rest ≠ .unclosed) :
    s.pastTrivia.Precedes s'.pastTrivia ∧
      Trivia.ofBytes s'.pastTrivia.rest ≠ .unclosed := by
  fun_induction Scanner.pastTrivia s generalizing s' with
  | case1 s n hn ih =>
    have hlength := (s.skip n).length_pastTrivia_le
    have hpos := List.length_pos_iff.2 hrest
    have hskip : (s.skip n).rest.length = s.rest.length - n := List.length_drop
    have hs := (Trivia.pos_of_ofBytes hn).2
    have hn' : Trivia.ofBytes s'.rest = .bytes n := by
      rw [h.rest_eq hs, Trivia.ofBytes_append (endsApart_rest hlast hs) (by simp [hn]), hn]
      intro m hm
      rw [hn] at hm
      cases hm
      omega
    rw [pastTrivia_of_bytes hn']
    exact ih (h.skip n) hrest hclosed
  | case2 s hs =>
    have hs' : Trivia.ofBytes s'.rest = .absent := by
      rw [h.rest_eq hrest, Trivia.ofBytes_append (endsApart_rest hlast hrest) (by simp [hs]), hs]
      simp [hs]
    rw [pastTrivia_of_absent hs']
    exact ⟨h, by simp [hs']⟩
  | case3 s hs => exact absurd hs hclosed

theorem read {u : Scanner a} {t : Token} (h : s.Precedes s')
    (hlast : EndsApart (bytesOf a)) (hread : s.read = (.ok t, u))
    (hend : t.kind ≠ .endOfText) : ∃ u', s'.read = (.ok t, u') ∧ u.Precedes u' := by
  rw [Scanner.read] at hread
  split at hread
  case h_2 => cases hread
  rename_i t n hhand
  cases hread
  rcases Scanner.atHand_cases hhand with ⟨-, rfl, -⟩ |
    ⟨c, after, hrest, hlexeme, hopen, hslice, hoffset, hdepth⟩
  · exact absurd rfl hend
  have hne : s.pastTrivia.rest ≠ [] := by simp [hrest]
  have hclosed : Trivia.ofBytes s.pastTrivia.rest ≠ .unclosed := by
    intro heq
    rw [Scanner.atHand, if_pos heq] at hhand
    cases hhand
  obtain ⟨hpast, hclosed'⟩ := h.pastTrivia hlast hne hclosed
  have hlexeme' : Lexeme.ofBytes c (after ++ bytesOf b) = .token t.kind n :=
    Lexeme.ofBytes_append (hrest ▸ endsApart_rest hlast hne) hlexeme
  have hslice' : slice? (a ++ b) s.pastTrivia.position (s.pastTrivia.position + n) = some t.text := by
    rw [slice?_append_left (slice?_eq_some_iff.1 hslice).2.2.1.le_size, hslice]
  have hhand' : s'.pastTrivia.atHand = .ok (t, n) := by
    rw [Scanner.atHand, if_neg hclosed', hpast.rest_eq hne, hrest, List.cons_append]
    simp only [hlexeme', Scanner.take, hpast.position_eq, hpast.depth_eq, hslice', ← hdepth]
    rw [if_neg fun hbad => absurd (hopen hbad.1) (by omega), ← hoffset]
    rfl
  refine ⟨_, ?_, hpast.behind t.kind n⟩
  rw [Scanner.read, hhand']

theorem tokens (h : s.Precedes s') (hlast : EndsApart (bytesOf a))
    (hstop : s.tokens.1 = [] → s.position = a.utf8ByteSize)
    (hstop' : ∀ t, s.tokens.1.getLast? = some t → t.stop = a.utf8ByteSize) :
    ∃ u' : Scanner (a ++ b), u'.position = a.utf8ByteSize ∧
      u'.depth = depthBehind s.depth s.tokens.1 ∧
      s'.tokens = (s.tokens.1 ++ u'.tokens.1, u'.tokens.2) := by
  induction s using Scanner.tokens_induction generalizing s' with
  | stop s ending hs =>
    refine ⟨s', h.position_eq.trans (hstop (by rw [hs])), h.depth_eq.trans ?_, by simp [hs]⟩
    rw [hs]
    rfl
  | step s t u hread hend hs ih =>
    obtain ⟨u', hread', hu⟩ := h.read hlast hread hend
    have hreads := Scanner.reads_of_read hread hend
    rw [hs] at hstop' ⊢
    obtain ⟨v', hposition, hdepth, htokens⟩ := ih hu
      (fun hnil => by rw [hreads.position_eq]; exact hstop' t (by simp [hnil]))
      (fun w hw => hstop' w (by rw [List.getLast?_cons, hw]; rfl))
    refine ⟨v', hposition, ?_, ?_⟩
    · rw [hdepth, hreads.depth_behind]
      rfl
    · rw [Scanner.tokens_of_read hread' hend, htokens]
      rfl

end Scanner.Precedes

end First

section Second

variable {a b : String}

/-- Whether the scanner of a joined text stands at the same place of its second part. -/
structure Scanner.Follows (s : Scanner b) (s' : Scanner (a ++ b)) : Prop where
  position_eq : s'.position = s.position + a.utf8ByteSize
  depth_eq : s'.depth = s.depth

namespace Scanner.Follows

variable {s : Scanner b} {s' : Scanner (a ++ b)}

theorem rest_eq (h : s.Follows s') : s'.rest = s.rest := by
  rw [s'.rest_eq, s.rest_eq, h.position_eq, bytesOf_append, Nat.add_comm, ← length_bytesOf a,
    List.drop_length_add_append]

theorem skip (h : s.Follows s') (n : Nat) : (s.skip n).Follows (s'.skip n) := by
  refine ⟨?_, h.depth_eq⟩
  simp only [Scanner.skip, h.position_eq]
  omega

theorem behind (h : s.Follows s') (kind : TokenKind) (n : Nat) :
    (s.behind kind n).Follows (s'.behind kind n) := by
  refine skip ?_ n
  cases kind <;> exact ⟨h.position_eq, by simp [Scanner.afterBrace, h.depth_eq]⟩

theorem pastTrivia (h : s.Follows s') : s.pastTrivia.Follows s'.pastTrivia := by
  fun_induction Scanner.pastTrivia s generalizing s' with
  | case1 s n hn ih =>
    have hn' : Trivia.ofBytes s'.rest = .bytes n := h.rest_eq ▸ hn
    rw [pastTrivia_of_bytes hn']
    exact ih (h.skip n)
  | case2 s hs =>
    rw [pastTrivia_of_absent (h.rest_eq ▸ hs)]
    exact h
  | case3 s hs =>
    rw [pastTrivia_of_unclosed (h.rest_eq ▸ hs)]
    exact h

theorem error_eq (h : s.Follows s') (fault : ScanFault) :
    s'.error fault = (s.error fault).behind a := by
  simp only [Scanner.error, ScanError.behind, h.position_eq, Location.ofOffset_append]

theorem atHand_eq (h : s.Follows s') :
    s'.atHand = (s.atHand.map fun hand => (hand.1.behind a, hand.2)).mapError (·.behind a) := by
  have hchar : charAt? (a ++ b) s'.position = charAt? b s.position := by
    rw [h.position_eq, Nat.add_comm, charAt?_append_right]
  have hslice (n : Nat) :
      slice? (a ++ b) s'.position (s'.position + n) = slice? b s.position (s.position + n) := by
    rw [h.position_eq, Nat.add_comm s.position, Nat.add_assoc, slice?_append_right]
  simp only [Scanner.atHand, Scanner.take, h.rest_eq, h.depth_eq, h.error_eq, hchar, hslice]
  rw [h.position_eq]
  repeat' split
  all_goals rfl

theorem read_eq (h : s.Follows s') :
    s'.read.1 = (s.read.1.map (·.behind a)).mapError (·.behind a) ∧ s.read.2.Follows s'.read.2 := by
  have hpast := h.pastTrivia
  have hhand := hpast.atHand_eq
  rw [Scanner.read, Scanner.read]
  generalize s.pastTrivia = p at hpast hhand
  generalize s'.pastTrivia = p' at hpast hhand
  cases hp : p.atHand with
  | error e =>
    rw [hp] at hhand
    simp only [hhand]
    exact ⟨rfl, hpast⟩
  | ok hand =>
    rw [hp] at hhand
    simp only [hhand]
    exact ⟨rfl, hpast.behind _ _⟩

theorem tokens_eq (h : s.Follows s') :
    s'.tokens = (s.tokens.1.map (·.behind a), (s.tokens.2.map (·.behind a)).mapError (·.behind a)) := by
  fun_induction Scanner.tokens s generalizing s' with
  | case1 s e u hread =>
    have hread' := h.read_eq.1
    rw [hread] at hread'
    exact Scanner.tokens_of_read_error (Prod.ext hread' rfl)
  | case2 s t u hread hend =>
    have hread' := h.read_eq.1
    rw [hread] at hread'
    exact Scanner.tokens_of_read_end (Prod.ext hread' rfl) hend
  | case3 s t u hread hend tokens ending htokens ih =>
    obtain ⟨hread', hu⟩ := h.read_eq
    rw [hread] at hread' hu
    rw [Scanner.tokens_of_read (Prod.ext hread' rfl) hend, ih hu, htokens]
    rfl

end Scanner.Follows

end Second

section Joined

variable {a : String}

def EndsInToken (text : String) : Prop :=
  ∃ t ∈ (tokensOf text).1, (t.kind = .semicolon ∨ t.kind = .rBrace) ∧ t.stop = text.utf8ByteSize

theorem getLast?_tokensOf {t : Token} (ht : t ∈ (tokensOf a).1) (hstop : t.stop = a.utf8ByteSize) :
    (tokensOf a).1.getLast? = some t := by
  obtain ⟨before, after, hsplit⟩ := List.append_of_mem ht
  cases after with
  | nil => simp [hsplit]
  | cons u after =>
    have hu : u ∈ (tokensOf a).1 := by simp [hsplit]
    have hpair := pairwise_tokensOf a
    rw [hsplit, List.pairwise_append, List.pairwise_cons] at hpair
    have hle := hpair.2.1.1 u List.mem_cons_self
    have := (standsIn_of_mem_tokensOf hu).offset_lt_stop
    have := (standsIn_of_mem_tokensOf hu).stop_le
    omega

theorem EndsInSemicolon.getLast? (h : EndsInSemicolon a) :
    ∃ t, (tokensOf a).1.getLast? = some t ∧ t.kind = .semicolon ∧ t.stop = a.utf8ByteSize := by
  obtain ⟨t, ht, hkind, hstop⟩ := h
  exact ⟨t, getLast?_tokensOf ht hstop, hkind, hstop⟩

theorem EndsInSemicolon.endsInToken (h : EndsInSemicolon a) : EndsInToken a := by
  obtain ⟨t, ht, hkind, hstop⟩ := h
  exact ⟨t, ht, .inl hkind, hstop⟩

theorem Lexeme.standsApart_of_ofBytes {b : UInt8} {after : List UInt8} {kind : TokenKind} {n : Nat}
    (h : Lexeme.ofBytes b after = .token kind n) (hkind : kind = .semicolon ∨ kind = .rBrace) :
    n = 1 ∧ StandsApart b := by
  rcases hkind with rfl | rfl
  · obtain ⟨hone, hb⟩ := Lexeme.single_of_ofBytes h (.inl rfl)
    exact ⟨hone, .inl (UInt8.toNat_inj.1 hb)⟩
  · obtain ⟨hone, hb⟩ := Lexeme.rBrace_of_ofBytes h
    exact ⟨hone, .inr (UInt8.toNat_inj.1 hb)⟩

theorem EndsInToken.endsApart (h : EndsInToken a) : EndsApart (bytesOf a) := by
  obtain ⟨t, ht, hkind, hstop⟩ := h
  obtain ⟨b, after, hdrop, hlexeme⟩ := (standsIn_of_mem_tokensOf ht).isLexeme
  obtain ⟨hone, hb⟩ := Lexeme.standsApart_of_ofBytes hlexeme hkind
  have hlength := congrArg List.length hdrop
  rw [List.length_drop, length_bytesOf, List.length_cons] at hlength
  rw [Token.stop, hone] at hstop
  have hafter : after = [] := List.length_eq_zero_iff.1 (by omega)
  rw [hafter] at hdrop
  have hlast : ((bytesOf a).drop t.offset).getLast? = some b := by
    rw [hdrop]
    rfl
  rw [List.getLast?_drop, if_neg (by rw [length_bytesOf]; omega)] at hlast
  exact ⟨b, hb, hlast⟩

/-- The tokens of a joined text are those of its parts, if the first part ends in a token that stands
apart and closes its braces. -/
theorem tokensOf_append (b : String) (h : EndsInToken a)
    (hclosed : depthBehind 0 (tokensOf a).1 = 0) :
    tokensOf (a ++ b) = ((tokensOf a).1 ++ (tokensOf b).1.map (·.behind a),
      ((tokensOf b).2.map (·.behind a)).mapError (·.behind a)) := by
  have hprecedes : (Scanner.new a).Precedes (Scanner.new (a ++ b)) := ⟨rfl, rfl⟩
  obtain ⟨t, hmem, -, hstop⟩ := id h
  have ht := getLast?_tokensOf hmem hstop
  obtain ⟨u, hposition, hdepth, htokens⟩ := hprecedes.tokens h.endsApart
    (fun hnil => by
      have hnil : (tokensOf a).1 = [] := hnil
      rw [hnil] at ht
      cases ht)
    (fun w hw => by
      have hw : (tokensOf a).1.getLast? = some w := hw
      rw [ht] at hw
      cases hw
      exact hstop)
  have hfollows : (Scanner.new b).Follows u :=
    ⟨hposition.trans (Nat.zero_add _).symm, hdepth.trans hclosed⟩
  rw [tokensOf, htokens, hfollows.tokens_eq]
  rfl

end Joined

end ReflectionTables.Scanning
