import ReflectionTables.Proofs.WholeCharacters
/-!
# Scanning loses no byte

Reads one after another deliver tokens that are cut out of the text, and what stands between two of
them is made of blanks, closed comments and logical lines. The last read finds the end of the text,
or fails at the byte where the tokens and what is between them end.
-/

namespace ReflectionTables.ByteSearch

variable {bytes before front : List UInt8} {start stop i j n : Nat} {needle : UInt8}

def EndsInOddRun (bytes : List UInt8) : Prop :=
  ∃ front n, bytes = front ++ List.replicate (2 * n + 1) backslash ∧ front.getLast? ≠ some backslash

/-- Whether a line feed behind the bytes is escaped: an odd run of backslashes ends them, perhaps with
a carriage return behind it. -/
def Escaping (before : List UInt8) : Prop :=
  EndsInOddRun before ∨ ∃ front, before = front ++ [carriageReturn] ∧ EndsInOddRun front

/-- A run at the end is as long as it is counted. -/
theorem length_takeWhile_run (h : front.getLast? ≠ some needle) (n : Nat) :
    ((front ++ List.replicate n needle).reverse.takeWhile (· == needle)).length = n := by
  have hrun : ∀ b ∈ List.replicate n needle, (b == needle) = true := fun b hb =>
    beq_iff_eq.2 (List.eq_of_mem_replicate hb)
  have hfront : front.reverse.takeWhile (· == needle) = [] := by
    rw [List.getLast?_eq_head?_reverse] at h
    cases hrev : front.reverse with
    | nil => rfl
    | cons b bs =>
      refine List.takeWhile_cons_of_neg fun hb => h ?_
      rw [hrev, List.head?_cons, eq_of_beq hb]
  rw [List.reverse_append, List.reverse_replicate, List.takeWhile_append_of_pos hrun, hfront,
    List.append_nil, List.length_replicate]

theorem exists_run (bytes : List UInt8) (needle : UInt8) : ∃ front,
    bytes = front ++ List.replicate (bytes.reverse.takeWhile (· == needle)).length needle ∧
      front.getLast? ≠ some needle := by
  refine ⟨(bytes.reverse.dropWhile (· == needle)).reverse, ?_, ?_⟩
  · have hrun : bytes.reverse.takeWhile (· == needle) =
        List.replicate (bytes.reverse.takeWhile (· == needle)).length needle :=
      List.eq_replicate_of_mem fun b hb => eq_of_beq (List.all_eq_true.1 List.all_takeWhile b hb)
    rw [← List.reverse_inj, List.reverse_append, List.reverse_replicate, ← hrun, List.reverse_reverse,
      List.takeWhile_append_dropWhile]
  · rw [List.getLast?_reverse]
    intro hhead
    have hnot := List.head?_dropWhile_not (· == needle) bytes.reverse
    rw [hhead] at hnot
    simp at hnot

theorem endsInOddRun_take_iff :
    EndsInOddRun (bytes.take i) ↔ backslashesBefore bytes i % 2 = 1 := by
  rw [backslashesBefore]
  constructor
  · rintro ⟨front, n, heq, hfront⟩
    rw [heq, length_takeWhile_run hfront]
    omega
  · intro hodd
    obtain ⟨front, heq, hfront⟩ := exists_run (bytes.take i) backslash
    generalize ((bytes.take i).reverse.takeWhile (· == backslash)).length = k at heq hodd
    refine ⟨front, k / 2, ?_, hfront⟩
    have hk : 2 * (k / 2) + 1 = k := by omega
    rw [hk]
    exact heq

theorem EndsInOddRun.getLast? (h : EndsInOddRun bytes) : bytes.getLast? = some backslash := by
  obtain ⟨front, n, rfl, -⟩ := h
  rw [List.replicate_succ', ← List.append_assoc, List.getLast?_concat]

theorem lineFeedEscaped_iff (h : i < bytes.length) :
    lineFeedEscaped bytes i = true ↔ Escaping (bytes.take i) := by
  rw [lineFeedEscaped, Escaping]
  by_cases hreturn : 0 < i ∧ bytes[i - 1]? = some carriageReturn
  · obtain ⟨hpos, hbyte⟩ := hreturn
    have htake : bytes.take i = bytes.take (i - 1) ++ [carriageReturn] := by
      have hsucc : i = i - 1 + 1 := by omega
      conv => lhs; rw [hsucc, List.take_add_one, hbyte]
      rfl
    rw [if_pos (by simp [hpos, hbyte]), beq_iff_eq, ← endsInOddRun_take_iff]
    constructor
    · exact fun hodd => .inr ⟨_, htake, hodd⟩
    · rintro (hodd | ⟨front, heq, hodd⟩)
      · have hlast := hodd.getLast?
        rw [htake, List.getLast?_concat] at hlast
        cases hlast
      · rw [htake] at heq
        rwa [List.append_cancel_right heq]
  · rw [if_neg (by simpa using hreturn), beq_iff_eq, ← endsInOddRun_take_iff]
    constructor
    · exact .inl
    · rintro (hodd | ⟨front, heq, -⟩)
      · exact hodd
      · have hlast : (bytes.take i).getLast? = some carriageReturn := by
          rw [heq, List.getLast?_concat]
        rw [List.getLast?_take] at hlast
        split at hlast
        · cases hlast
        · have hget : bytes[i - 1]? = some bytes[i - 1] := List.getElem?_eq_getElem (by omega)
          rw [hget, Option.some_or, ← hget] at hlast
          exact absurd ⟨by omega, hlast⟩ hreturn

theorem ne_of_findByte (h : findByte bytes start needle = some i) (hle : start ≤ j) (hj : j < i) :
    bytes[j]? ≠ some needle := by
  rw [findByte_eq, ← findClass_eq] at h
  obtain ⟨-, -, -, hbefore⟩ := getElem?_of_findClass h
  obtain ⟨b, hb, hne⟩ := hbefore j hle hj
  rw [hb]
  rintro ⟨rfl⟩
  simp at hne

theorem ne_of_findByte_none (h : findByte bytes start needle = none) (hle : start ≤ j) :
    bytes[j]? ≠ some needle := by
  rw [findByte_eq, Option.map_eq_none_iff, List.findIdx?_eq_none_iff] at h
  intro hj
  have hmem : needle ∈ bytes.drop start := by
    refine List.mem_of_getElem? (i := j - start) ?_
    rw [List.getElem?_drop, ← hj]
    congr 1
    omega
  simpa using h needle hmem

def Continued (bytes : List UInt8) (start stop : Nat) : Prop :=
  ∀ j, start ≤ j → j < stop → bytes[j]? = some lineFeed → Escaping (bytes.take j)

theorem lineEnd_cases (bytes : List UInt8) (start : Nat) :
    (lineEnd bytes start = bytes.length ∧ Continued bytes start bytes.length) ∨
      ∃ i, lineEnd bytes start = i + 1 ∧ start ≤ i ∧ bytes[i]? = some lineFeed ∧
        ¬Escaping (bytes.take i) ∧ Continued bytes start i := by
  fun_induction lineEnd bytes start with
  | case1 start hnone =>
    exact .inl ⟨rfl, fun j hle _ hj => absurd hj (ne_of_findByte_none hnone hle)⟩
  | case2 start i hi hescaped ih =>
    have hbounds := findByte_bounds hi
    have hcontinued {stop : Nat} (h : Continued bytes (i + 1) stop) : Continued bytes start stop := by
      intro j hle hj hfeed
      rcases Nat.lt_trichotomy j i with hlt | rfl | hgt
      · exact absurd hfeed (ne_of_findByte hi hle hlt)
      · exact (lineFeedEscaped_iff hbounds.2).1 hescaped
      · exact h j hgt hj hfeed
    rcases ih with ⟨heq, hrest⟩ | ⟨k, heq, hle, hfeed, hescaping, hrest⟩
    · exact .inl ⟨heq, hcontinued hrest⟩
    · exact .inr ⟨k, heq, by omega, hfeed, hescaping, hcontinued hrest⟩
  | case3 start i hi hescaped =>
    have hbounds := findByte_bounds hi
    refine .inr ⟨i, rfl, hbounds.1, getElem?_of_findByte hi, ?_, ?_⟩
    · rwa [← lineFeedEscaped_iff hbounds.2]
    · exact fun j hle hj hfeed => absurd hfeed (ne_of_findByte hi hle hj)

theorem commentEnd_cases (h : commentEnd bytes start = some stop) :
    ∃ i, stop = i + 2 ∧ start ≤ i ∧ bytes[i]? = some star ∧ bytes[i + 1]? = some slash ∧
      ∀ j, start ≤ j → j < i → bytes[j]? = some star → bytes[j + 1]? ≠ some slash := by
  fun_induction commentEnd bytes start with
  | case1 => cases h
  | case2 start i hi hslash =>
    refine ⟨i, (Option.some.inj h).symm, (findByte_bounds hi).1, getElem?_of_findByte hi,
      eq_of_beq hslash, fun j hle hj hstar => absurd hstar (ne_of_findByte hi hle hj)⟩
  | case3 start i hi hslash ih =>
    have hbounds := findByte_bounds hi
    obtain ⟨k, hstop, hle, hstar, hslash', hbefore⟩ := ih h
    refine ⟨k, hstop, by omega, hstar, hslash', fun j hstart hj hjstar => ?_⟩
    rcases Nat.lt_trichotomy j i with hlt | rfl | hgt
    · exact absurd hjstar (ne_of_findByte hi hstart hlt)
    · simpa using hslash
    · exact hbefore j hgt hj hjstar

end ReflectionTables.ByteSearch

namespace ReflectionTables.Scanning

open Text ByteSearch

variable {text : String} {bytes line behind gap : List UInt8} {b : UInt8} {s s' : Scanner text}
  {n start stop : Nat}

def numberSign : UInt8 := 35

/-- A line comment or a preprocessor line from its mark on: the line feeds in it are escaped. -/
structure LogicalLine (line : List UInt8) : Prop where
  marked : [slash, slash] <+: line ∨ [numberSign] <+: line
  continued : ∀ before after, line = before ++ lineFeed :: after → Escaping before

inductive TriviaPiece : List UInt8 → Prop
  | blank {b : UInt8} (h : isBlankByte b = true) : TriviaPiece [b]
  | comment {inner : List UInt8} (h : ¬[star, slash] <:+: inner) :
      TriviaPiece (slash :: star :: (inner ++ [star, slash]))
  | line {line : List UInt8} (h : LogicalLine line) (hend : ¬Escaping line) :
      TriviaPiece (line ++ [lineFeed])

/-- Bytes that are made of such pieces. A last line may go on to the end of the text. -/
inductive TriviaRun (behind : List UInt8) : List UInt8 → Prop
  | nil : TriviaRun behind []
  | piece {first rest : List UInt8} (hfirst : TriviaPiece first) (hrest : TriviaRun behind rest) :
      TriviaRun behind (first ++ rest)
  | lastLine {line : List UInt8} (h : LogicalLine line) (hend : behind = []) : TriviaRun behind line

section Pieces

variable {mark : List UInt8}

theorem logicalLine_take (hmark : mark = [slash, slash] ∨ mark = [numberSign]) (hfront : mark <+: bytes)
    (hle : mark.length ≤ stop) (h : Continued bytes mark.length stop) : LogicalLine (bytes.take stop) := by
  have hprefix : mark <+: bytes.take stop := List.prefix_take_iff.2 ⟨hfront, hle⟩
  constructor
  · rcases hmark with rfl | rfl
    · exact .inl hprefix
    · exact .inr hprefix
  · intro before after heq
    have hfeed : (bytes.take stop)[before.length]? = some lineFeed := by simp [heq]
    rw [List.getElem?_take] at hfeed
    split at hfeed
    case isFalse => cases hfeed
    rename_i hlt
    have hbefore : before = bytes.take before.length := by
      have htake := congrArg (List.take before.length) heq
      rwa [List.take_left, List.take_take, Nat.min_eq_left (Nat.le_of_lt hlt), eq_comm] at htake
    rw [hbefore]
    refine h _ (Nat.le_of_not_lt fun hinside => ?_) hlt hfeed
    -- The mark has no line feed in it.
    obtain ⟨rest, rfl⟩ := hfront
    rw [List.getElem?_append_left hinside] at hfeed
    have hmem := List.mem_of_getElem? hfeed
    rcases hmark with rfl | rfl <;> exact absurd hmem (by decide)

theorem piece_of_lineEnd (hmark : mark = [slash, slash] ∨ mark = [numberSign]) (hfront : mark <+: bytes) :
    TriviaPiece (bytes.take (lineEnd bytes mark.length)) ∨
      lineEnd bytes mark.length = bytes.length ∧ LogicalLine bytes := by
  rcases lineEnd_cases bytes mark.length with ⟨heq, hrest⟩ | ⟨i, heq, hle, hfeed, hescaping, hrest⟩
  · refine .inr ⟨heq, ?_⟩
    have hline := logicalLine_take hmark hfront hfront.length_le hrest
    rwa [List.take_length] at hline
  · rw [heq, List.take_add_one, hfeed]
    exact .inl (.line (logicalLine_take hmark hfront hle hrest) hescaping)

/-- What a comment takes goes up to the first star and slash behind its opening. -/
theorem piece_of_commentEnd {after : List UInt8} (h : commentEnd (slash :: star :: after) 2 = some stop) :
    TriviaPiece ((slash :: star :: after).take stop) := by
  obtain ⟨i, rfl, hle, hstar, hslash, hbefore⟩ := commentEnd_cases h
  obtain ⟨k, rfl⟩ := Nat.exists_eq_add_of_le' hle
  simp only [List.getElem?_cons_succ] at hstar
  have hslash : after[k + 1]? = some slash := hslash
  have htake : after.take (k + 2) = after.take k ++ [star, slash] := by
    rw [List.take_add_one, List.take_add_one, hstar, hslash, List.append_assoc]
    rfl
  rw [List.take_succ_cons, List.take_succ_cons, htake]
  refine .comment ?_
  rintro ⟨u, v, heq⟩
  have hlength := congrArg List.length heq
  simp only [List.length_append, List.length_cons, List.length_nil, List.length_take] at hlength
  have hget (j : Nat) (hj : j < k) : after[j]? = (u ++ [star, slash] ++ v)[j]? := by
    rw [heq, List.getElem?_take_of_lt hj]
  have hfirst : after[u.length]? = some star := by
    rw [hget _ (by omega)]
    simp
  have hsecond : after[u.length + 1]? = some slash := by
    rw [hget _ (by omega)]
    simp
  exact hbefore (u.length + 2) (by omega) (by omega) hfirst hsecond

end Pieces

/-- What is skipped at once is a piece, or a line to the end of the text. -/
theorem Trivia.piece_of_ofBytes (h : Trivia.ofBytes bytes = .bytes n) :
    TriviaPiece (bytes.take n) ∨ n = bytes.length ∧ LogicalLine bytes := by
  cases bytes with
  | nil => cases h
  | cons b after =>
    simp only [Trivia.ofBytes] at h
    split at h
    · rename_i hblank
      cases h
      exact .inl (.blank hblank)
    split at h
    · rename_i hmark
      cases h
      rw [Bool.and_eq_true, beq_iff_eq, beq_iff_eq, List.head?_eq_some_iff] at hmark
      obtain ⟨rfl, rest, rfl⟩ := hmark
      exact piece_of_lineEnd (.inl rfl) (List.prefix_append [slash, slash] rest)
    split at h
    · rename_i hmark
      split at h
      · rename_i stop hstop
        cases h
        rw [Bool.and_eq_true, beq_iff_eq, beq_iff_eq, List.head?_eq_some_iff] at hmark
        obtain ⟨rfl, rest, rfl⟩ := hmark
        exact .inl (piece_of_commentEnd hstop)
      · cases h
    split at h
    · rename_i hmark
      cases h
      rw [eq_of_beq hmark]
      exact piece_of_lineEnd (.inr rfl) (List.prefix_append [numberSign] after)
    · cases h

/-- Whether the bytes from one offset to another are made of pieces. -/
def IsGap (text : String) (start stop : Nat) : Prop :=
  start ≤ stop ∧ TriviaRun ((bytesOf text).drop stop) (((bytesOf text).take stop).drop start)

theorem Scanner.exists_run_pastTrivia (s : Scanner text) :
    ∃ run, s.rest = run ++ s.pastTrivia.rest ∧ s.pastTrivia.position = s.position + run.length ∧
      TriviaRun s.pastTrivia.rest run := by
  fun_induction Scanner.pastTrivia s with
  | case1 s n hn ih =>
    obtain ⟨run, hrest, hposition, hrun⟩ := ih
    have hskip : (s.skip n).rest = s.rest.drop n := rfl
    have hlength := Trivia.le_length_of_ofBytes hn
    refine ⟨s.rest.take n ++ run, ?_, ?_, ?_⟩
    · rw [List.append_assoc, ← hrest, hskip, List.take_append_drop]
    · rw [hposition, List.length_append, List.length_take_of_le hlength, ← Nat.add_assoc]
      rfl
    · rcases Trivia.piece_of_ofBytes hn with hpiece | ⟨heq, hline⟩
      · exact .piece hpiece hrun
      · -- Nothing comes behind a line that is not ended.
        rw [hskip, heq, List.drop_length, eq_comm, List.append_eq_nil_iff] at hrest
        rw [heq, List.take_length, hrest.1, List.append_nil]
        exact .lastLine hline hrest.2
  | case2 s => exact ⟨[], rfl, rfl, .nil⟩
  | case3 s => exact ⟨[], rfl, rfl, .nil⟩

theorem Scanner.isGap_pastTrivia (s : Scanner text) : IsGap text s.position s.pastTrivia.position := by
  obtain ⟨run, hrest, hposition, hrun⟩ := s.exists_run_pastTrivia
  refine ⟨s.position_pastTrivia_le, ?_⟩
  rw [← s.pastTrivia.rest_eq, hposition, List.drop_take, Nat.add_sub_cancel_left, ← s.rest_eq, hrest,
    List.take_left]
  exact hrun

def Scanner.readMany (s : Scanner text) : Nat → List (Except ScanError Token) × Scanner text
  | 0 => ([], s)
  | n + 1 =>
    let (answer, s') := s.read
    let (answers, s'') := s'.readMany n
    (answer :: answers, s'')

/-- Whether what stands before, between and behind tokens is made of pieces, from one offset to
another. -/
def GapsAround (text : String) : Nat → List Token → Nat → Prop
  | start, [], stop => IsGap text start stop
  | start, t :: ts, stop => IsGap text start t.offset ∧ GapsAround text t.stop ts stop

theorem Scanner.readMany_succ {answer : Except ScanError Token} (h : s.read = (answer, s')) (n : Nat) :
    s.readMany (n + 1) = (answer :: (s'.readMany n).1, (s'.readMany n).2) := by
  rw [Scanner.readMany, h]

/-- Reads keep the scanner between characters, and none of them fails because of one. -/
theorem Scanner.AtBoundary.readMany (h : s.AtBoundary) (n : Nat) : (s.readMany n).2.AtBoundary ∧
    ∀ e, .error e ∈ (s.readMany n).1 → e.fault ≠ .splitCharacter := by
  induction n generalizing s with
  | zero => exact ⟨h, by simp [Scanner.readMany]⟩
  | succ n ih =>
    obtain ⟨hboundary, hfault⟩ := h.read
    rw [Scanner.readMany_succ rfl]
    refine ⟨(ih hboundary).1, fun e he => ?_⟩
    rcases List.mem_cons.1 he with heq | hmem
    · exact hfault e heq.symm
    · exact (ih hboundary).2 e hmem

/-- A failed read leaves the scanner at the byte it fails at. -/
theorem Scanner.of_read_error {e : ScanError} (h : s.read = (.error e, s')) :
    s' = s.pastTrivia ∧ e.location = .ofOffset text s.pastTrivia.position := by
  rw [Scanner.read] at h
  generalize s.pastTrivia = p at h ⊢
  split at h
  · cases h
  · rename_i hhand
    cases h
    refine ⟨rfl, ?_⟩
    simp only [Scanner.atHand, Scanner.take] at hhand
    repeat' split at hhand
    all_goals cases hhand
    all_goals rfl

/-- One read more than there are tokens meets the end or the failure behind them. -/
theorem Scanner.readMany_tokens (s : Scanner text) :
    ∃ s', s.readMany (s.tokens.1.length + 1) = (s.tokens.1.map .ok ++ [s.tokens.2], s') ∧
      GapsAround text s.position s.tokens.1 s'.position ∧
      (∀ t, s.tokens.2 = .ok t → s'.position = t.offset) ∧
      ∀ e, s.tokens.2 = .error e → e.location = .ofOffset text s'.position := by
  induction s using Scanner.tokens_induction with
  | stop s ending h =>
    rcases hread : s.read with ⟨answer, s'⟩
    have hending := (Scanner.read_of_tokens_nil h).1
    rw [hread] at hending
    rw [h]
    refine ⟨s', by rw [← hending]; exact Scanner.readMany_succ hread 0, ?_⟩
    cases ending with
    | error e =>
      subst hending
      obtain ⟨rfl, hlocation⟩ := Scanner.of_read_error hread
      refine ⟨s.isGap_pastTrivia, by simp, fun e' he' => ?_⟩
      cases he'
      exact hlocation
    | ok t =>
      subst hending
      rcases Scanner.read_cases hread with ⟨-, rfl, rfl⟩ | ⟨_, _, _, -, hlexeme, -⟩
      · refine ⟨s.isGap_pastTrivia, fun t ht => ?_, by simp⟩
        cases ht
        rfl
      · exact absurd ((Scanner.read_of_tokens_nil h).2 t rfl).1 (Lexeme.ne_end_of_ofBytes hlexeme)
  | step s t s' hread hend h ih =>
    obtain ⟨s'', hmany, hgaps, hending⟩ := ih
    rw [h]
    refine ⟨s'', ?_, ⟨?_, ?_⟩, hending⟩
    · rw [List.length_cons, Scanner.readMany_succ hread, hmany]
      rfl
    · rcases Scanner.read_cases hread with ⟨-, -, rfl⟩ | ⟨_, _, _, -, -, -, -, hoffset, -⟩
      · exact absurd rfl hend
      · rw [hoffset]
        exact s.isGap_pastTrivia
    · rwa [← (Scanner.reads_of_read hread hend).position_eq]

/-- Reads of a whole text end after at most one more than the text has bytes. The tokens are cut out
of the text in their order, and what is not in a token is made of pieces, up to the end of the text or
to the byte where the last read fails. -/
theorem reads_account_for_bytes (text : String) :
    ∃ (ts : List Token) (ending : Except ScanError Token) (s : Scanner text),
      ts.length ≤ text.utf8ByteSize ∧
      (Scanner.new text).readMany (ts.length + 1) = (ts.map .ok ++ [ending], s) ∧
      (∀ t ∈ ts, t.kind ≠ .endOfText ∧ t.text ≠ "" ∧ slice? text t.offset t.stop = some t.text) ∧
      ts.Pairwise (fun t u => t.offset < u.offset ∧ t.stop ≤ u.offset) ∧
      GapsAround text 0 ts s.position ∧
      ((∃ t, ending = .ok t ∧ t.kind = .endOfText ∧ t.text = "" ∧ t.offset = text.utf8ByteSize ∧
          s.position = text.utf8ByteSize) ∨
        ∃ e, ending = .error e ∧ e.fault ≠ .splitCharacter ∧ s.position ≤ text.utf8ByteSize ∧
          e.location = .ofOffset text s.position) := by
  obtain ⟨s, hmany, hgaps, hend, hfail⟩ := (Scanner.new text).readMany_tokens
  obtain ⟨hboundary, hfault⟩ := (Scanner.atBoundary_new text).readMany ((tokensOf text).1.length + 1)
  rw [tokensOf, hmany] at hboundary hfault
  refine ⟨(tokensOf text).1, (tokensOf text).2, s, length_tokensOf_le text, hmany, fun t ht => ?_, ?_,
    hgaps, ?_⟩
  · have hin := standsIn_of_mem_tokensOf ht
    refine ⟨hin.kind_ne_end, ?_, hin.isCut⟩
    rintro hempty
    have hlt := hin.offset_lt_stop
    rw [Token.stop, hempty] at hlt
    exact absurd hlt (Nat.lt_irrefl _)
  · refine (pairwise_tokensOf text).imp_of_mem fun ht _ hle => ⟨?_, hle⟩
    exact Nat.lt_of_lt_of_le (standsIn_of_mem_tokensOf ht).offset_lt_stop hle
  · cases hending : (tokensOf text).2 with
    | ok t =>
      have ht := ending_tokensOf hending
      refine .inl ⟨t, rfl, by rw [ht], by rw [ht], by rw [ht], ?_⟩
      rw [hend t hending, ht]
    | error e =>
      exact .inr ⟨e, rfl, hfault e (List.mem_append_right _ (by simp [← hending, tokensOf])),
        hboundary.le_size, hfail e hending⟩

end ReflectionTables.Scanning
