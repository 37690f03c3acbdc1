import ReflectionTables.Proofs.SearchWindows
import ReflectionTables.Proofs.ScannedTokens
/-!
# The scanner never splits a character

Every search ends behind an ASCII byte or at the end of the text, and an ASCII byte is a character
of its own. So trivia and tokens are made of whole characters, whatever the text says, and the
scanner always stands between two of them.
-/

namespace ReflectionTables.Text

variable {text : String} {start : Nat} {b : UInt8}

theorem bytesOf_cons (c : Char) (cs : List Char) :
    bytesOf (.ofList (c :: cs)) = String.utf8EncodeChar c ++ bytesOf (.ofList cs) := by
  rw [String.ofList_cons, bytesOf_append, String.singleton_eq_ofList]
  simp [bytesOf, List.utf8Encode_singleton]

theorem isSome_charAt? (h : IsBoundary text start) (hlt : start < text.utf8ByteSize) :
    (charAt? text start).isSome = true := by
  obtain ⟨u, v, rfl, rfl⟩ := h.exists_append
  rw [charAt?_of_append, List.isSome_head?]
  intro hv
  rw [String.toList_eq_nil_iff.1 hv, String.append_empty] at hlt
  exact absurd hlt (Nat.lt_irrefl _)

theorem utf8Size_of_ascii {c : Char} {bytes : List UInt8}
    (h : String.utf8EncodeChar c = b :: bytes) (hb : b.toNat < 128) : c.utf8Size = 1 := by
  rw [Char.utf8Size_eq_one_iff, UInt32.le_iff_toNat_le]
  change c.val.toNat ≤ 127
  simp only [String.utf8EncodeChar] at h
  split at h
  · assumption
  -- The first byte of a longer character is at least 192.
  split at h
  · cases h
    simp at hb
    omega
  split at h
  · cases h
    simp at hb
    omega
  · cases h
    simp at hb
    omega

private theorem isUTF8FirstByte_of_ascii (hb : b.toNat < 128) : b.IsUTF8FirstByte := by
  have hand : ∀ n < 128, n &&& 128 = 0 := by decide
  left
  rw [← UInt8.toNat_inj, UInt8.toNat_and]
  exact hand _ hb

theorem isBoundary_of_ascii (h : (bytesOf text)[start]? = some b) (hb : b.toNat < 128) :
    IsBoundary text start ∧ IsBoundary text (start + 1) := by
  obtain ⟨hlt, hbyte⟩ := List.getElem?_eq_some_iff.1 h
  have hstart : IsBoundary text start := by
    refine String.Pos.Raw.isValid_iff_isUTF8FirstByte.2 (.inr ⟨hlt, ?_⟩)
    have hget : text.getUTF8Byte ⟨start⟩ hlt = b := hbyte
    rw [hget]
    exact isUTF8FirstByte_of_ascii hb
  refine ⟨hstart, ?_⟩
  obtain ⟨u, v, rfl, rfl⟩ := hstart.exists_append
  rw [bytesOf_append, ← length_bytesOf, List.getElem?_append_right (Nat.le_refl _), Nat.sub_self,
    ← String.ofList_toList (s := v)] at h
  rw [isBoundary_append_right]
  cases hv : v.toList with
  | nil =>
    rw [hv] at h
    cases h
  | cons c cs =>
    rw [hv, bytesOf_cons] at h
    have hsize : c.utf8Size = 1 := by
      cases hc : String.utf8EncodeChar c with
      | nil =>
        have := String.length_utf8EncodeChar c
        rw [hc, List.length_nil] at this
        exact absurd this.symm (Nat.ne_of_gt c.utf8Size_pos)
      | cons b' bytes =>
        rw [hc] at h
        cases h
        exact utf8Size_of_ascii hc hb
    rw [← String.ofList_toList (s := v), hv, String.ofList_cons]
    have hone : 1 = (String.singleton c).utf8ByteSize := by rw [String.utf8ByteSize_singleton, hsize]
    rw [hone]
    exact (isBoundary_append_left (Nat.le_refl _)).2 (isBoundary_size _)

end ReflectionTables.Text

namespace ReflectionTables.ByteSearch

def EndsWhole (bytes : List UInt8) (n : Nat) : Prop :=
  n = bytes.length ∨ ∃ k b, n = k + 1 ∧ bytes[k]? = some b ∧ b.toNat < 128

variable {bytes : List UInt8} {start i n : Nat} {b : UInt8}

theorem endsWhole_of_getElem? (h : bytes[i]? = some b) (hb : b.toNat < 128) :
    EndsWhole bytes (i + 1) :=
  .inr ⟨i, b, rfl, h, hb⟩

theorem endsWhole_one {after : List UInt8} (hb : b.toNat < 128) : EndsWhole (b :: after) 1 :=
  endsWhole_of_getElem? rfl hb

theorem endsWhole_two {after : List UInt8} {b' : UInt8} (h : after.head? = some b')
    (hb : b'.toNat < 128) : EndsWhole (b :: after) 2 := by
  refine endsWhole_of_getElem? (b := b') ?_ hb
  rw [List.getElem?_cons_succ, ← List.head?_eq_getElem?, h]

theorem EndsWhole.cons (h : EndsWhole bytes n) : EndsWhole (b :: bytes) (n + 1) := by
  rcases h with rfl | ⟨k, b', rfl, hb', hlt⟩
  · exact .inl rfl
  · exact .inr ⟨k + 1, b', rfl, hb', hlt⟩

theorem getElem?_of_findClass {p : UInt8 → Bool} (h : findClass bytes start p = some i) :
    ∃ b, bytes[i]? = some b ∧ p b = true ∧
      ∀ j, start ≤ j → j < i → ∃ b, bytes[j]? = some b ∧ p b = false := by
  rw [findClass_eq, Option.map_eq_some_iff] at h
  obtain ⟨k, hk, rfl⟩ := h
  obtain ⟨hlt, hp, hbefore⟩ := List.findIdx?_eq_some_iff_getElem.1 hk
  rw [List.length_drop] at hlt
  rw [List.getElem_drop] at hp
  have hbound : k + start < bytes.length := by omega
  refine ⟨bytes[k + start], List.getElem?_eq_getElem _, ?_, fun j hle hj => ?_⟩
  · rw [← hp]
    congr 2
    omega
  · have hj' := hbefore (j - start) (by omega)
    rw [List.getElem_drop] at hj'
    have hbound' : j < bytes.length := by omega
    refine ⟨bytes[j], List.getElem?_eq_getElem _, ?_⟩
    have hindex : start + (j - start) = j := by omega
    simpa only [hindex, Bool.not_eq_true] using hj'

theorem getElem?_of_findByte {needle : UInt8} (h : findByte bytes start needle = some i) :
    bytes[i]? = some needle := by
  rw [findByte_eq, ← findClass_eq] at h
  obtain ⟨b, hb, heq, -⟩ := getElem?_of_findClass h
  rw [hb, eq_of_beq heq]

theorem toNat_lt_of_isAlphanum (h : (Char.ofNat b.toNat).isAlphanum = true) : b.toNat < 128 := by
  have hall : ∀ n < 256, (Char.ofNat n).isAlphanum = true → n < 128 := by decide +kernel
  exact hall b.toNat b.toNat_lt h

theorem toNat_lt_of_isNameByte (h : isNameByte b = true) : b.toNat < 128 := by
  rw [isNameByte, Bool.or_eq_true] at h
  rcases h with h | h
  · exact toNat_lt_of_isAlphanum h
  · rw [eq_of_beq h]
    decide

theorem findUnescaped_endsWhole {quote : UInt8} (hquote : quote.toNat < 128)
    (h : findUnescaped bytes start quote = some i) : EndsWhole bytes (i + 1) := by
  fun_induction findUnescaped bytes start quote with
  | case1 => cases h
  | case2 start j hj =>
    cases h
    exact endsWhole_of_getElem? (getElem?_of_findByte hj) hquote
  | case3 start j hj hodd ih => exact ih h

theorem lineEnd_endsWhole (bytes : List UInt8) (start : Nat) :
    EndsWhole bytes (lineEnd bytes start) := by
  fun_induction lineEnd bytes start with
  | case1 => exact .inl rfl
  | case2 start j hj hescaped ih => exact ih
  | case3 start j hj => exact endsWhole_of_getElem? (getElem?_of_findByte hj) (by decide)

theorem commentEnd_endsWhole (h : commentEnd bytes start = some n) : EndsWhole bytes n := by
  fun_induction commentEnd bytes start with
  | case1 => cases h
  | case2 start j hj hslash =>
    cases h
    exact endsWhole_of_getElem? (eq_of_beq hslash) (by decide)
  | case3 start j hj hslash ih => exact ih h

/-- A name ends behind a letter, a digit or an underscore. -/
theorem nameEnd_endsWhole (h : bytes[start]? = some b) (hb : b.toNat < 128) :
    EndsWhole bytes (nameEnd bytes (start + 1)) := by
  generalize hbegin : start + 1 = begin
  fun_induction nameEnd bytes begin generalizing start b with
  | case1 => exact .inl rfl
  | case2 begin i hi hjoins ih =>
    have hcolon : bytes[i + 1]? = some colon := by
      simp only [joinsAt, Bool.and_eq_true, beq_iff_eq] at hjoins
      exact hjoins.1.2
    exact ih hcolon (by decide) rfl
  | case3 begin i hi =>
    obtain ⟨-, -, -, hbefore⟩ := getElem?_of_findClass hi
    have hle := findClass_bounds hi
    by_cases hfirst : i = begin
    · rw [hfirst, ← hbegin]
      exact endsWhole_of_getElem? h hb
    · obtain ⟨j, rfl⟩ : ∃ j, i = j + 1 := ⟨i - 1, by omega⟩
      obtain ⟨b', hb', hname⟩ := hbefore j (by omega) (by omega)
      exact endsWhole_of_getElem? hb' (toNat_lt_of_isNameByte (by simpa using hname))

end ReflectionTables.ByteSearch

namespace ReflectionTables.Scanning

open Text ByteSearch

variable {text : String} {bytes after : List UInt8} {n : Nat} {b : UInt8} {kind : TokenKind}

theorem toNat_lt_of_isBlankByte (h : isBlankByte b = true) : b.toNat < 128 := by
  simp only [isBlankByte, Bool.or_eq_true, Bool.and_eq_true, decide_eq_true_eq,
    UInt8.le_iff_toNat_le, beq_iff_eq] at h
  rcases h with ⟨-, hle⟩ | rfl
  · exact Nat.lt_of_le_of_lt hle (by decide)
  · decide

theorem Trivia.endsWhole (h : Trivia.ofBytes bytes = .bytes n) : EndsWhole bytes n := by
  cases bytes with
  | nil => cases h
  | cons b after =>
    simp only [Trivia.ofBytes] at h
    split at h
    · rename_i hblank
      cases h
      exact endsWhole_one (toNat_lt_of_isBlankByte hblank)
    split at h
    · cases h
      exact lineEnd_endsWhole _ _
    split at h
    · split at h
      · rename_i stop hstop
        cases h
        exact commentEnd_endsWhole hstop
      · cases h
    split at h
    · cases h
      exact lineEnd_endsWhole _ _
    · cases h

theorem TokenKind.toNat_lt_of_single? {c : Char} (h : single? c = some kind) : c.toNat < 128 := by
  unfold single? at h
  split at h <;> first | decide | cases h

theorem TokenKind.toNat_lt_of_doubled? {c : Char} (h : doubled? c = some kind) : c.toNat < 128 := by
  unfold doubled? at h
  split at h <;> first | decide | cases h

theorem Lexeme.quoted_endsWhole {quote : UInt8} {k : TokenKind} {fault : ScanFault}
    (hquote : quote.toNat < 128) (h : Lexeme.quoted bytes quote k fault = .token kind n) :
    EndsWhole bytes n := by
  simp only [Lexeme.quoted] at h
  split at h
  · rename_i i hi
    cases h
    exact findUnescaped_endsWhole hquote hi
  · cases h

theorem Lexeme.operator_endsWhole
    (h : Lexeme.operator (Char.ofNat b.toNat) (after.head?.map fun n => Char.ofNat n.toNat) =
      .token kind n) : EndsWhole (b :: after) n := by
  have hnext : ∀ c : Char, c.toNat < 128 →
      after.head?.map (fun n => Char.ofNat n.toNat) = some c → EndsWhole (b :: after) 2 := by
    intro c hc hhead
    obtain ⟨b', hb', rfl⟩ := Option.map_eq_some_iff.1 hhead
    exact endsWhole_two hb' (by rwa [toNat_of_charOfNat rfl])
  rcases Lexeme.operator_cases h with ⟨hc, rfl⟩ | ⟨hc, hhead, rfl⟩ | ⟨hc, hhead, rfl⟩
  · exact endsWhole_one (by
      rw [toNat_of_charOfNat rfl]
      exact TokenKind.toNat_lt_of_single? hc)
  · exact hnext _ (TokenKind.toNat_lt_of_doubled? hc) hhead
  · exact hnext _ (by decide) hhead

theorem endsWhole_number (hb : b.toNat < 128) : EndsWhole (b :: after) (1 + (after.takeWhile fun d =>
    (Char.ofNat d.toNat).isDigit || Char.ofNat d.toNat == '.').length) := by
  induction after generalizing b with
  | nil => exact endsWhole_one hb
  | cons d after ih =>
    rw [List.takeWhile_cons]
    split
    · rename_i hdigit
      rw [List.length_cons, ← Nat.add_assoc]
      refine (ih ?_).cons
      rw [Bool.or_eq_true] at hdigit
      rcases hdigit with hdigit | hdot
      · exact toNat_lt_of_isAlphanum (by rw [Char.isAlphanum, hdigit, Bool.or_true])
      · rw [toNat_of_charOfNat (eq_of_beq hdot)]
        decide
    · exact endsWhole_one hb

theorem Lexeme.endsWhole (h : Lexeme.ofBytes b after = .token kind n) :
    EndsWhole (b :: after) n := by
  have hone : ∀ c : Char, c.toNat < 128 → Char.ofNat b.toNat = c → EndsWhole (b :: after) 1 :=
    fun c hc hb => endsWhole_one (by rwa [toNat_of_charOfNat hb])
  have htwo : ∀ c : Char, c.toNat < 128 →
      after.head?.map (fun n => Char.ofNat n.toNat) = some c → EndsWhole (b :: after) 2 := by
    intro c hc hhead
    obtain ⟨b', hb', rfl⟩ := Option.map_eq_some_iff.1 hhead
    exact endsWhole_two hb' (by rwa [toNat_of_charOfNat rfl])
  have hquoted : ∀ (c : Char) (k : TokenKind) (fault : ScanFault), c.toNat < 128 →
      Char.ofNat b.toNat = c → Lexeme.quoted (b :: after) b k fault = .token kind n →
      EndsWhole (b :: after) n :=
    fun c k fault hc hb => quoted_endsWhole (by rwa [toNat_of_charOfNat hb])
  simp only [Lexeme.ofBytes] at h
  split at h
  · cases h
    exact hone '\x7b' (by decide) ‹_›
  split at h
  · cases h
    exact hone '\x7d' (by decide) ‹_›
  split at h
  · split at h <;> cases h
    · exact htwo ')' (by decide) ‹_›
    · exact hone '(' (by decide) ‹_›
  split at h
  · split at h <;> cases h
    · exact htwo ']' (by decide) ‹_›
    · exact hone '[' (by decide) ‹_›
  split at h
  · split at h
    · cases h
      exact htwo '"' (by decide) ‹_›
    · exact hquoted '"' _ _ (by decide) ‹_› h
  split at h
  · exact hquoted '\'' _ _ (by decide) ‹_› h
  split at h
  · rename_i hdigit
    cases h
    refine endsWhole_number (toNat_lt_of_isAlphanum ?_)
    rw [Char.isAlphanum, hdigit, Bool.or_true]
  split at h
  · rename_i hname
    cases h
    refine nameEnd_endsWhole rfl (toNat_lt_of_isNameByte ?_)
    rw [isNameStart, Bool.or_eq_true] at hname
    rw [isNameByte, Char.isAlphanum, Bool.or_eq_true, Bool.or_eq_true]
    exact hname.imp_left .inl
  · exact operator_endsWhole h

theorem Lexeme.ne_splitCharacter_of_failed {fault : ScanFault}
    (h : Lexeme.ofBytes b after = .failed fault) : fault ≠ .splitCharacter := by
  simp only [Lexeme.ofBytes, Lexeme.quoted] at h
  repeat' split at h
  all_goals first
    | exact absurd h Lexeme.operator_ne_failed
    | cases h
  all_goals simp

section Scanner

variable {s s' : Scanner text} {t : Token}

def Scanner.AtBoundary (s : Scanner text) : Prop := IsBoundary text s.position

theorem Scanner.atBoundary_new (text : String) : (Scanner.new text).AtBoundary :=
  String.Pos.Raw.isValid_zero

theorem Scanner.AtBoundary.skip (h : s.AtBoundary) (hn : EndsWhole s.rest n) :
    (s.skip n).AtBoundary := by
  rcases hn with rfl | ⟨k, b, rfl, hb, hlt⟩
  · have hlength := s.rest_eq
    have hle := h.le_size
    change IsBoundary text (s.position + s.rest.length)
    rw [s.rest_eq, List.length_drop, length_bytesOf, Nat.add_sub_cancel' hle]
    exact isBoundary_size text
  · rw [s.rest_eq, List.getElem?_drop] at hb
    exact (isBoundary_of_ascii hb hlt).2

theorem Scanner.AtBoundary.pastTrivia (h : s.AtBoundary) : s.pastTrivia.AtBoundary := by
  fun_induction Scanner.pastTrivia s with
  | case1 s n hn ih => exact ih (h.skip (Trivia.endsWhole hn))
  | case2 => exact h
  | case3 => exact h

theorem Scanner.AtBoundary.slice?_ne_none (h : s.AtBoundary) (hrest : s.rest = b :: after)
    (hlexeme : Lexeme.ofBytes b after = .token kind n) :
    slice? text s.position (s.position + n) ≠ none := by
  have hskip := h.skip (n := n) (by rw [hrest]; exact Lexeme.endsWhole hlexeme)
  exact slice?_ne_none_iff.2 ⟨Nat.le_add_right _ _, h, hskip⟩

theorem Scanner.AtBoundary.atHand_ne (h : s.AtBoundary) {e : ScanError}
    (he : s.atHand = .error e) : e.fault ≠ .splitCharacter := by
  rw [Scanner.atHand] at he
  split at he
  · cases he
    simp [Scanner.error]
  split at he
  · cases he
  rename_i b after hrest
  split at he
  · split at he
    · cases he
      simp [Scanner.error]
    · rename_i hnone
      have hlt : s.position < text.utf8ByteSize := by
        have hlength := congrArg List.length (hrest.symm.trans s.rest_eq)
        rw [List.length_cons, List.length_drop, length_bytesOf] at hlength
        omega
      have hsome := isSome_charAt? h hlt
      rw [hnone] at hsome
      cases hsome
  · rename_i fault hlexeme
    cases he
    exact Lexeme.ne_splitCharacter_of_failed hlexeme
  · rename_i kind length hlexeme
    split at he
    · cases he
      simp [Scanner.error]
    · rw [Scanner.take] at he
      split at he
      · cases he
      · rename_i hslice
        exact absurd hslice (h.slice?_ne_none hrest hlexeme)

theorem Scanner.AtBoundary.behind (h : s.AtBoundary) (hn : EndsWhole s.rest n) :
    (s.behind kind n).AtBoundary := by
  cases kind <;> exact h.skip hn

/-- A read keeps the scanner between characters, and never fails because of one. -/
theorem Scanner.AtBoundary.read (h : s.AtBoundary) :
    s.read.2.AtBoundary ∧ ∀ e, s.read.1 = .error e → e.fault ≠ .splitCharacter := by
  rw [Scanner.read]
  have hpast := h.pastTrivia
  generalize s.pastTrivia = p at hpast
  cases hhand : p.atHand with
  | error e =>
    refine ⟨hpast, fun e' he' => ?_⟩
    cases he'
    exact hpast.atHand_ne hhand
  | ok result =>
    obtain ⟨t, n⟩ := result
    refine ⟨?_, fun e' he' => by cases he'⟩
    refine hpast.behind ?_
    rcases Scanner.atHand_cases hhand with ⟨hrest, -, rfl⟩ | ⟨b, after, hrest, hlexeme, -⟩
    · exact .inl (by rw [hrest]; rfl)
    · rw [hrest]
      exact Lexeme.endsWhole hlexeme

end Scanner

end ReflectionTables.Scanning
