import ReflectionTables.Proofs.CollapsedTexts
import ReflectionTables.Proofs.JoinedScans
import ReflectionTables.Proofs.WholeCharacters
/-!
# What the scanner skips

What the scanner skips, on the characters of a text. The bytes that it looks for are ASCII, so they
stand for characters wherever they are found: between two tokens there are blanks, block comments,
and lines that carry no token.
-/

namespace ReflectionTables.Text

variable {c : Char} {cs cs' : List Char} {b : UInt8} {bytes : List UInt8}

def charBytes (cs : List Char) : List UInt8 := bytesOf (.ofList cs)

@[simp] theorem charBytes_nil : charBytes [] = [] := rfl

theorem bytesOf_eq (text : String) : bytesOf text = charBytes text.toList := by
  rw [charBytes, String.ofList_toList]

theorem charBytes_cons (c : Char) (cs : List Char) :
    charBytes (c :: cs) = String.utf8EncodeChar c ++ charBytes cs := bytesOf_cons c cs

@[simp] theorem charBytes_append (cs cs' : List Char) :
    charBytes (cs ++ cs') = charBytes cs ++ charBytes cs' := by
  rw [charBytes, String.ofList_append, bytesOf_append]
  rfl

theorem charBytes_injective (h : charBytes cs = charBytes cs') : cs = cs' := by
  have hlist := congrArg String.toList (bytesOf_injective h)
  rwa [String.toList_ofList, String.toList_ofList] at hlist

theorem prefix_of_length_charBytes_le {ds : List Char} (h : cs <+: ds) (h' : cs' <+: ds)
    (hle : (charBytes cs).length ≤ (charBytes cs').length) : cs <+: cs' := by
  rcases List.prefix_or_prefix_of_prefix h h' with hfront | ⟨rest, rfl⟩
  · exact hfront
  · cases rest with
    | nil => simp
    | cons c rest =>
      have := String.length_utf8EncodeChar c
      have := c.utf8Size_pos
      rw [charBytes_append, charBytes_cons, List.length_append, List.length_append] at hle
      omega

theorem utf8EncodeChar_of_ascii (h : c.toNat < 128) :
    String.utf8EncodeChar c = [UInt8.ofNat c.toNat] := by
  rw [String.utf8EncodeChar]
  exact if_pos (Nat.le_of_lt_succ h)

@[simp] theorem charBytes_ascii (h : c.toNat < 128) :
    charBytes (c :: cs) = UInt8.ofNat c.toNat :: charBytes cs := by
  rw [charBytes_cons, utf8EncodeChar_of_ascii h, List.singleton_append]

/-- All bytes of a character that is not ASCII are beyond ASCII. -/
theorem le_of_mem_utf8EncodeChar (h : 128 ≤ c.toNat) (hb : b ∈ String.utf8EncodeChar c) :
    128 ≤ b.toNat := by
  have hlt : 127 < c.val.toNat := h
  simp only [String.utf8EncodeChar, if_neg (Nat.not_le.2 hlt)] at hb
  split at hb
  · simp only [List.mem_cons, List.not_mem_nil, or_false] at hb
    rcases hb with rfl | rfl <;> simp only [UInt8.toNat_ofNat'] <;> omega
  split at hb
  · simp only [List.mem_cons, List.not_mem_nil, or_false] at hb
    rcases hb with rfl | rfl | rfl <;> simp only [UInt8.toNat_ofNat'] <;> omega
  · simp only [List.mem_cons, List.not_mem_nil, or_false] at hb
    rcases hb with rfl | rfl | rfl | rfl <;> simp only [UInt8.toNat_ofNat'] <;> omega

theorem exists_of_charBytes (h : charBytes cs = b :: bytes) (hb : b.toNat < 128) :
    ∃ c cs', cs = c :: cs' ∧ c.toNat = b.toNat ∧ bytes = charBytes cs' := by
  cases cs with
  | nil => cases h
  | cons c cs =>
    by_cases hascii : c.toNat < 128
    · rw [charBytes_ascii hascii, List.cons.injEq] at h
      refine ⟨c, cs, rfl, ?_, h.2.symm⟩
      rw [← h.1, UInt8.toNat_ofNat']
      omega
    · rw [charBytes_cons] at h
      cases hencode : String.utf8EncodeChar c with
      | nil =>
        have hlength := String.length_utf8EncodeChar c
        rw [hencode, List.length_nil] at hlength
        exact absurd hlength.symm (Nat.ne_of_gt c.utf8Size_pos)
      | cons b' bytes' =>
        rw [hencode, List.cons_append, List.cons.injEq] at h
        have := le_of_mem_utf8EncodeChar (Nat.le_of_not_lt hascii)
          (hencode ▸ List.mem_cons_self : b' ∈ _)
        rw [h.1] at this
        omega

theorem charAt?_of_ascii {text : String} {start : Nat} (h : (bytesOf text)[start]? = some b)
    (hb : b.toNat < 128) : charAt? text start = some (Char.ofNat b.toNat) := by
  obtain ⟨u, v, rfl, rfl⟩ := (isBoundary_of_ascii h hb).1.exists_append
  rw [bytesOf_append, ← length_bytesOf, List.getElem?_append_right (Nat.le_refl _), Nat.sub_self,
    bytesOf_eq v, ← List.head?_eq_getElem?, List.head?_eq_some_iff] at h
  obtain ⟨after, hafter⟩ := h
  obtain ⟨c, cs, hv, hc, -⟩ := exists_of_charBytes hafter hb
  rw [charAt?_of_append, hv, ← hc, Char.ofNat_toNat]
  rfl

theorem slice?_of_ascii {text : String} {start : Nat} (h : (bytesOf text)[start]? = some b)
    (hb : b.toNat < 128) :
    slice? text start (start + 1) = some (.singleton (Char.ofNat b.toNat)) := by
  obtain ⟨hstart, hstop⟩ := isBoundary_of_ascii h hb
  refine slice?_eq_some_iff.2 ⟨Nat.le_succ start, hstart, hstop, ?_⟩
  have hlt := (List.getElem?_eq_some_iff.1 h).1
  have hchar : (Char.ofNat b.toNat).toNat = b.toNat := (Scanning.toNat_of_charOfNat rfl).symm
  have hbyte : bytesOf (.singleton (Char.ofNat b.toNat)) = [b] := by
    rw [bytesOf_eq, String.toList_singleton, charBytes_ascii (by rwa [hchar]), hchar, UInt8.ofNat_toNat]
    rfl
  rw [hbyte, List.drop_take, Nat.add_sub_cancel_left, List.drop_eq_getElem_cons hlt,
    (List.getElem?_eq_some_iff.1 h).2]
  rfl

theorem exists_of_mem_charBytes (h : b ∈ charBytes cs) (hb : b.toNat < 128) :
    ∃ c ∈ cs, c.toNat = b.toNat := by
  induction cs with
  | nil => cases h
  | cons c cs ih =>
    by_cases hascii : c.toNat < 128
    · rw [charBytes_ascii hascii, List.mem_cons] at h
      rcases h with rfl | h
      · refine ⟨c, List.mem_cons_self, ?_⟩
        rw [UInt8.toNat_ofNat']
        omega
      · obtain ⟨d, hd, heq⟩ := ih h
        exact ⟨d, List.mem_cons_of_mem _ hd, heq⟩
    · rw [charBytes_cons, List.mem_append] at h
      rcases h with h | h
      · have := le_of_mem_utf8EncodeChar (Nat.le_of_not_lt hascii) h
        omega
      · obtain ⟨d, hd, heq⟩ := ih h
        exact ⟨d, List.mem_cons_of_mem _ hd, heq⟩

/-- The text of a block comment behind its opening, and what follows it. -/
def closeComment : List Char → Option (List Char × List Char)
  | '*' :: '/' :: cs => some ([], cs)
  | c :: cs => (closeComment cs).map fun r => (c :: r.1, r.2)
  | [] => none

theorem closeComment_next (h : ¬['*', '/'] <+: c :: cs) :
    closeComment (c :: cs) = (closeComment cs).map fun r => (c :: r.1, r.2) := by
  rw [closeComment]
  rintro ds rfl rfl
  exact h ⟨ds, rfl⟩

theorem closeComment_eq_some_iff {inner : List Char} :
    closeComment cs = some (inner, cs') ↔
      cs = inner ++ '*' :: '/' :: cs' ∧ ¬['*', '/'] <:+: inner := by
  induction cs generalizing inner cs' with
  | nil => simp [closeComment]
  | cons c cs ih =>
    by_cases hclose : ['*', '/'] <+: c :: cs
    · obtain ⟨rest, hrest⟩ := hclose
      obtain ⟨rfl, rfl⟩ : '*' = c ∧ '/' :: rest = cs := List.cons.inj hrest
      rw [closeComment, Option.some.injEq, Prod.mk.injEq]
      constructor
      · rintro ⟨rfl, rfl⟩
        exact ⟨rfl, by simp⟩
      · rintro ⟨heq, hinner⟩
        match inner, heq with
        | [], heq =>
          cases heq
          exact ⟨rfl, rfl⟩
        | [_], heq => simp at heq
        | _ :: _ :: inner, heq =>
          simp only [List.cons_append, List.cons.injEq] at heq
          obtain ⟨rfl, rfl, -⟩ := heq
          exact absurd ⟨[], inner, rfl⟩ hinner
    · rw [closeComment_next hclose, Option.map_eq_some_iff]
      constructor
      · rintro ⟨⟨inner', rest⟩, h, heq⟩
        obtain ⟨rfl, hinner⟩ := ih.1 h
        cases heq
        refine ⟨rfl, fun hinfix => ?_⟩
        rcases List.infix_cons_iff.1 hinfix with hfront | hinfix
        · exact hclose (hfront.trans ⟨_, rfl⟩)
        · exact hinner hinfix
      · rintro ⟨heq, hinner⟩
        cases inner with
        | nil =>
          cases heq
          exact absurd ⟨cs', rfl⟩ hclose
        | cons d inner =>
          cases heq
          exact ⟨(inner, cs'), ih.2 ⟨rfl, fun h => hinner (List.infix_cons h)⟩, rfl⟩

end ReflectionTables.Text

namespace ReflectionTables.ByteSearch

open Text

variable {bytes middle after : List UInt8} {start i : Nat} {b needle : UInt8}
  {p : UInt8 → Bool}

theorem findClass_here (h : bytes[start]? = some b) (hp : p b = true) :
    findClass bytes start p = some start := by
  rw [findClass_eq, List.drop_eq_getElem?_toList_append, h]
  simp [List.findIdx?_cons, hp]

theorem findClass_next (h : bytes[start]? = some b) (hp : p b = false) :
    findClass bytes start p = findClass bytes (start + 1) p := by
  rw [findClass_eq, findClass_eq, List.drop_eq_getElem?_toList_append, h]
  simp [List.findIdx?_cons, hp, Function.comp_def, Nat.add_comm, Nat.add_left_comm]

theorem findByte_eq_findClass : findByte bytes start needle = findClass bytes start (· == needle) := by
  rw [findByte_eq, findClass_eq]

theorem commentEnd_here (hstar : bytes[start]? = some star) (hslash : bytes[start + 1]? = some slash) :
    commentEnd bytes start = some (start + 2) := by
  have hfind : findByte bytes start star = some start := by
    rw [findByte_eq_findClass, findClass_here hstar (by rw [beq_self_eq_true])]
  rw [commentEnd_of_some hfind, hslash, if_pos (beq_self_eq_true _)]

theorem commentEnd_next (h : bytes[start]? = some b)
    (hopen : b ≠ star ∨ bytes[start + 1]? ≠ some slash) :
    commentEnd bytes start = commentEnd bytes (start + 1) := by
  by_cases hb : b = star
  · have hfind : findByte bytes start star = some start := by
      rw [findByte_eq_findClass, findClass_here h (by rw [hb, beq_self_eq_true])]
    rw [commentEnd_of_some hfind, if_neg (by simpa [hb] using hopen)]
  · have hfind : findByte bytes start star = findByte bytes (start + 1) star := by
      rw [findByte_eq_findClass, findByte_eq_findClass, findClass_next h (by simpa using hb)]
    cases hnext : findByte bytes (start + 1) star with
    | none =>
      rw [commentEnd, commentEnd]
      split <;> split <;> simp_all
    | some j => rw [commentEnd_of_some (hfind.trans hnext), commentEnd_of_some hnext]

theorem commentEnd_past (before : List UInt8) (h : ∀ b ∈ middle, b ≠ star) :
    commentEnd (before ++ (middle ++ after)) before.length =
      commentEnd (before ++ (middle ++ after)) (before.length + middle.length) := by
  induction middle generalizing before with
  | nil => rfl
  | cons b middle ih =>
    have hget : (before ++ (b :: middle ++ after))[before.length]? = some b := by simp
    rw [commentEnd_next hget (.inl (h b List.mem_cons_self))]
    have hmiddle := ih (before ++ [b]) fun d hd => h d (List.mem_cons_of_mem _ hd)
    simpa [Nat.add_assoc, Nat.add_comm 1] using hmiddle

theorem commentEnd_charBytes (before : List UInt8) (cs : List Char) :
    commentEnd (before ++ charBytes cs) before.length =
      (closeComment cs).map fun r => before.length + (charBytes r.1).length + 2 := by
  induction cs generalizing before with
  | nil =>
    rw [commentEnd]
    split
    · rfl
    · rename_i j hj
      have := findByte_bounds hj
      simp at this
      omega
  | cons c cs ih =>
    have hrest := ih (before ++ String.utf8EncodeChar c)
    rw [List.append_assoc, ← charBytes_cons, List.length_append] at hrest
    have hnext : ¬['*', '/'] <+: c :: cs → commentEnd (before ++ charBytes (c :: cs)) before.length =
        commentEnd (before ++ charBytes (c :: cs))
          (before.length + (String.utf8EncodeChar c).length) := by
      intro hclose
      by_cases hascii : c.toNat < 128
      · have hget : (before ++ charBytes (c :: cs))[before.length]? = some (UInt8.ofNat c.toNat) := by
          simp [hascii]
        have hget' : (before ++ charBytes (c :: cs))[before.length + 1]? = (charBytes cs).head? := by
          rw [charBytes_ascii hascii, List.getElem?_append_right (by omega), List.head?_eq_getElem?,
            Nat.add_sub_cancel_left, List.getElem?_cons_succ]
        rw [utf8EncodeChar_of_ascii hascii]
        refine commentEnd_next hget (Classical.or_iff_not_imp_left.2 fun hstar hslash => hclose ?_)
        have hstar : UInt8.ofNat c.toNat = star := Decidable.not_not.1 hstar
        obtain ⟨rest, hslash⟩ := List.head?_eq_some_iff.1 (hget'.symm.trans hslash)
        obtain ⟨d, ds, rfl, hd, -⟩ := exists_of_charBytes hslash (by decide)
        have hc : c.toNat = 42 := by
          have := congrArg UInt8.toNat hstar
          rw [UInt8.toNat_ofNat', Nat.mod_eq_of_lt (by omega)] at this
          exact this
        obtain rfl : c = '*' := Char.toNat_inj.1 hc
        obtain rfl : d = '/' := Char.toNat_inj.1 hd
        exact ⟨ds, rfl⟩
      · rw [charBytes_cons]
        refine commentEnd_past before fun b hb hstar => ?_
        have := le_of_mem_utf8EncodeChar (Nat.le_of_not_lt hascii) hb
        rw [hstar] at this
        exact absurd this (by decide)
    by_cases hclose : ['*', '/'] <+: c :: cs
    · obtain ⟨rest, hfront⟩ := hclose
      obtain ⟨rfl, rfl⟩ : '*' = c ∧ '/' :: rest = cs := List.cons.inj hfront
      have hstar : (before ++ charBytes ('*' :: '/' :: rest))[before.length]? = some star := by
        simp [star]
      have hslash : (before ++ charBytes ('*' :: '/' :: rest))[before.length + 1]? = some slash := by
        simp [slash]
      rw [commentEnd_here hstar hslash, closeComment]
      rfl
    · rw [hnext hclose, hrest, closeComment_next hclose, Option.map_map]
      congr 1
      funext r
      simp [charBytes_cons]
      omega

end ReflectionTables.ByteSearch

namespace ReflectionTables.Scanning

open Text ByteSearch

variable {text : String} {s s' : Scanner text} {c d : Char} {cs inner spacing gap : List Char} {n : Nat}
  {b b' : UInt8} {bytes : List UInt8}

theorem isBlankByte_ofNat (h : c.toNat < 128) : isBlankByte (UInt8.ofNat c.toNat) = isBlank c := by
  have hall : ∀ n < 128, isBlankByte (UInt8.ofNat n) = isBlank (Char.ofNat n) := by decide
  rw [hall _ h, Char.ofNat_toNat]

theorem Trivia.ofBytes_blank (hascii : c.toNat < 128) (hblank : isBlank c = true) :
    Trivia.ofBytes (charBytes (c :: cs)) = .bytes 1 := by
  rw [charBytes_ascii hascii, Trivia.ofBytes, isBlankByte_ofNat hascii, if_pos hblank]

@[simp] theorem charBytes_slash : charBytes ('/' :: cs) = slash :: charBytes cs :=
  charBytes_ascii (by decide)

@[simp] theorem charBytes_star : charBytes ('*' :: cs) = star :: charBytes cs := charBytes_ascii (by decide)

@[simp] theorem charBytes_hash : charBytes ('#' :: cs) = 35 :: charBytes cs := charBytes_ascii (by decide)

theorem Trivia.ofBytes_comment : Trivia.ofBytes (charBytes ('/' :: '*' :: cs)) =
    match closeComment cs with
    | some (inner, _) => .bytes ((charBytes inner).length + 4)
    | none => .unclosed := by
  have hend := commentEnd_charBytes [slash, star] cs
  rw [charBytes_slash, charBytes_star, Trivia.ofBytes]
  simp only [List.cons_append, List.nil_append, List.length_cons, List.length_nil] at hend
  simp only [hend, List.head?_cons]
  cases closeComment cs with
  | none => rfl
  | some r =>
    change Trivia.bytes (2 + (charBytes r.1).length + 2) = _
    congr 1
    omega

theorem Trivia.ofBytes_line : Trivia.ofBytes (charBytes ('/' :: '/' :: cs)) =
    .bytes (lineEnd (charBytes ('/' :: '/' :: cs)) 2) := by
  rw [charBytes_slash, charBytes_slash]
  rfl

theorem Trivia.ofBytes_directive : Trivia.ofBytes (charBytes ('#' :: cs)) =
    .bytes (lineEnd (charBytes ('#' :: cs)) 1) := by
  rw [charBytes_hash]
  rfl

theorem exists_cons_of_charBytes (h : charBytes cs = b :: bytes) (hb : b.toNat = c.toNat)
    (hascii : c.toNat < 128) :
    ∃ cs', cs = c :: cs' ∧ bytes = charBytes cs' := by
  obtain ⟨c', cs', rfl, hc', hbytes⟩ := exists_of_charBytes h (by omega)
  obtain rfl : c' = c := Char.toNat_inj.1 (hc'.trans hb)
  exact ⟨cs', rfl, hbytes⟩

/-- Two bytes tell the first two characters, if those are ASCII. -/
theorem exists_cons_cons_of_charBytes (h : charBytes cs = b :: bytes)
    (hbytes : bytes.head? = some b') (hb : b.toNat = c.toNat) (hb' : b'.toNat = d.toNat)
    (hc : c.toNat < 128) (hd : d.toNat < 128) : ∃ cs', cs = c :: d :: cs' := by
  obtain ⟨cs', rfl, rfl⟩ := exists_cons_of_charBytes h hb hc
  obtain ⟨bytes', hbytes'⟩ := List.head?_eq_some_iff.1 hbytes
  obtain ⟨cs'', rfl, -⟩ := exists_cons_of_charBytes hbytes' hb' hd
  exact ⟨cs'', rfl⟩

/-- What the scanner skips at once, in characters. -/
theorem Trivia.cases_charBytes (h : Trivia.ofBytes (charBytes cs) = .bytes n) :
    (∃ c cs', cs = c :: cs' ∧ c.toNat < 128 ∧ isBlank c = true ∧ n = 1) ∨
      (∃ inner cs', cs = '/' :: '*' :: (inner ++ '*' :: '/' :: cs') ∧ ¬['*', '/'] <:+: inner ∧
        n = (charBytes inner).length + 4) ∨
      (['/', '/'] <+: cs ∧ 2 ≤ n) ∨ (['#'] <+: cs ∧ 1 ≤ n) := by
  cases hbytes : charBytes cs with
  | nil =>
    rw [hbytes] at h
    cases h
  | cons b after =>
    have hofBytes := h
    rw [hbytes, Trivia.ofBytes] at h
    -- The byte that decides is ASCII, so it is the first character.
    split at h
    · rename_i hblank
      cases h
      have hascii := toNat_lt_of_isBlankByte hblank
      obtain ⟨c, cs', rfl, hc, -⟩ := exists_of_charBytes hbytes hascii
      refine .inl ⟨c, cs', rfl, by omega, ?_, rfl⟩
      rw [← isBlankByte_ofNat (by omega), hc, UInt8.ofNat_toNat]
      exact hblank
    split at h
    · rename_i hline
      obtain ⟨hb, hnext⟩ := Bool.and_eq_true_iff.1 hline
      obtain ⟨cs', rfl⟩ := exists_cons_cons_of_charBytes (c := '/') (d := '/') hbytes
        (eq_of_beq hnext) (by rw [eq_of_beq hb]; rfl) rfl (by decide) (by decide)
      cases h
      refine .inr (.inr (.inl ⟨⟨cs', rfl⟩, le_lineEnd ?_⟩))
      rw [← hbytes, charBytes_slash, charBytes_slash]
      simp
    split at h
    · rename_i hcomment
      obtain ⟨hb, hnext⟩ := Bool.and_eq_true_iff.1 hcomment
      obtain ⟨cs', rfl⟩ := exists_cons_cons_of_charBytes (c := '/') (d := '*') hbytes
        (eq_of_beq hnext) (by rw [eq_of_beq hb]; rfl) rfl (by decide) (by decide)
      rw [Trivia.ofBytes_comment] at hofBytes
      split at hofBytes
      · rename_i inner rest hclose
        obtain ⟨rfl, hinner⟩ := closeComment_eq_some_iff.1 hclose
        cases hofBytes
        exact .inr (.inl ⟨inner, rest, rfl, hinner, rfl⟩)
      · cases hofBytes
    split at h
    · rename_i hhash
      obtain ⟨cs', rfl, -⟩ := exists_cons_of_charBytes (c := '#') hbytes
        (by rw [eq_of_beq hhash]; rfl) (by decide)
      cases h
      exact .inr (.inr (.inr ⟨⟨cs', rfl⟩, le_lineEnd (by simp)⟩))
    · cases h

theorem Scanner.rest_skip_charBytes (h : s.rest = charBytes (cs ++ cs')) :
    (s.skip (charBytes cs).length).rest = charBytes cs' := by
  change s.rest.drop _ = _
  rw [h, charBytes_append, List.drop_left]

theorem Scanner.exists_behind_spacing (hspacing : Spacing spacing)
    (h : s.rest = charBytes (spacing ++ cs)) :
    ∃ s' : Scanner text, s'.rest = charBytes cs ∧ s'.depth = s.depth ∧
      s.pastTrivia = s'.pastTrivia := by
  induction hspacing generalizing s with
  | nil => exact ⟨s, h, rfl, rfl⟩
  | @blank c spacing hascii hblank _ ih =>
    have htrivia : Trivia.ofBytes s.rest = .bytes (charBytes [c]).length := by
      rw [h, List.cons_append, Trivia.ofBytes_blank hascii hblank, charBytes_ascii hascii]
      rfl
    obtain ⟨s', hrest, hdepth, hpast⟩ := ih (@Scanner.rest_skip_charBytes _ _ [c] _ h)
    exact ⟨s', hrest, hdepth, (Scanner.pastTrivia_of_bytes htrivia).trans hpast⟩
  | @comment inner spacing hinner _ ih =>
    have hsplit : '/' :: '*' :: (inner ++ '*' :: '/' :: spacing) ++ cs =
        ('/' :: '*' :: (inner ++ ['*', '/'])) ++ (spacing ++ cs) := by simp
    rw [hsplit] at h
    have hlength : (charBytes ('/' :: '*' :: (inner ++ ['*', '/']))).length =
        (charBytes inner).length + 4 := by
      rw [charBytes_slash, charBytes_star, charBytes_append, charBytes_star, charBytes_slash]
      simp
    have htrivia : Trivia.ofBytes s.rest =
        .bytes (charBytes ('/' :: '*' :: (inner ++ ['*', '/']))).length := by
      have hclose : closeComment (inner ++ '*' :: '/' :: (spacing ++ cs)) =
          some (inner, spacing ++ cs) := closeComment_eq_some_iff.2 ⟨rfl, hinner⟩
      rw [h, List.cons_append, List.cons_append, List.append_assoc, List.cons_append,
        List.cons_append, List.nil_append, Trivia.ofBytes_comment, hclose, hlength]
    obtain ⟨s', hrest, hdepth, hpast⟩ := ih (Scanner.rest_skip_charBytes h)
    exact ⟨s', hrest, hdepth, (Scanner.pastTrivia_of_bytes htrivia).trans hpast⟩

theorem lineEnd_of_not_mem {bytes : List UInt8} {start : Nat} (h : lineFeed ∉ bytes) :
    lineEnd bytes start = bytes.length := by
  rw [lineEnd]
  split
  · rfl
  · rename_i i hi
    exact absurd (List.mem_of_getElem? (getElem?_of_findByte hi)) h

theorem Scanner.rest_pastTrivia_of_gap (hgap : Gap gap) (hline : '\n' ∉ gap)
    (h : s.rest = charBytes gap) : s.pastTrivia.rest = [] := by
  obtain ⟨spacing, line, rfl, hspacing, hstarts⟩ := hgap
  obtain ⟨s', hrest, -, hpast⟩ := Scanner.exists_behind_spacing hspacing h
  rw [hpast]
  have hmem : lineFeed ∉ charBytes line := by
    intro hmem
    obtain ⟨c, hc, heq⟩ := exists_of_mem_charBytes hmem (by decide)
    obtain rfl : c = '\n' := Char.toNat_inj.1 heq
    exact hline (List.mem_append_right _ hc)
  have hskip : ∀ start, Trivia.ofBytes (charBytes line) = .bytes (lineEnd (charBytes line) start) →
      s'.pastTrivia.rest = [] := by
    intro start htrivia
    rw [lineEnd_of_not_mem hmem, ← hrest] at htrivia
    rw [Scanner.pastTrivia_of_bytes htrivia]
    have hle := Scanner.length_pastTrivia_le (s'.skip s'.rest.length)
    have hrest : (s'.skip s'.rest.length).rest = [] := List.drop_length
    rw [hrest, List.length_nil] at hle
    exact List.eq_nil_of_length_eq_zero (Nat.le_zero.1 hle)
  rcases hstarts with rfl | ⟨rest, rfl⟩ | ⟨rest, rfl⟩
  · rw [Scanner.pastTrivia_of_absent (by rw [hrest]; rfl), hrest]
    rfl
  · exact hskip 2 Trivia.ofBytes_line
  · exact hskip 1 Trivia.ofBytes_directive

theorem Scanner.AtBoundary.exists_split (h : s.AtBoundary) (h' : s'.AtBoundary)
    (hle : s.position ≤ s'.position) :
    ∃ cs cs', s.rest = charBytes (cs ++ cs') ∧ s'.rest = charBytes cs' ∧
      s'.position = s.position + (charBytes cs).length := by
  obtain ⟨u, v, rfl, hu⟩ := IsBoundary.exists_append h
  obtain ⟨offset, hoffset⟩ := Nat.exists_eq_add_of_le hle
  have hv : IsBoundary (u ++ v) (u.utf8ByteSize + offset) := by
    rw [hu, ← hoffset]
    exact h'
  obtain ⟨x, y, rfl, hx⟩ := (isBoundary_append_right.1 hv).exists_append
  refine ⟨x.toList, y.toList, ?_, ?_, ?_⟩
  · rw [s.rest_eq, ← hu, bytesOf_append, ← length_bytesOf, List.drop_left, charBytes_append,
      ← bytesOf_eq, ← bytesOf_eq, bytesOf_append]
  · rw [s'.rest_eq, hoffset, ← hu, bytesOf_append, ← length_bytesOf, List.drop_length_add_append,
      bytesOf_append, ← hx, ← length_bytesOf, List.drop_left, ← bytesOf_eq]
  · rw [hoffset, ← bytesOf_eq, length_bytesOf, hx]

theorem Scanner.AtBoundary.exists_gap (h : s.AtBoundary) :
    ∃ gap cs, s.rest = charBytes (gap ++ cs) ∧ s.pastTrivia.rest = charBytes cs ∧ Gap gap ∧
      s.pastTrivia.position = s.position + (charBytes gap).length := by
  have hnone : ∀ s : Scanner text, s.AtBoundary → ∃ gap cs, s.rest = charBytes (gap ++ cs) ∧
      s.rest = charBytes cs ∧ Gap gap ∧ s.position = s.position + (charBytes gap).length := by
    intro s h
    obtain ⟨cs, cs', hrest, -⟩ := h.exists_split h (Nat.le_refl _)
    exact ⟨[], cs ++ cs', hrest, hrest, Spacing.nil.gap, rfl⟩
  fun_induction Scanner.pastTrivia s with
  | case1 s n hn ih =>
    obtain ⟨before, after, hrest, hafter, hposition⟩ := h.exists_split
      (h.skip (Trivia.endsWhole hn)).pastTrivia
      (Nat.le_trans (Nat.le_add_right _ _) (s.skip n).position_pastTrivia_le)
    obtain ⟨gap, cs, hrest', hcs, hgap, hposition'⟩ := ih (h.skip (Trivia.endsWhole hn))
    obtain rfl := charBytes_injective (hafter.symm.trans hcs)
    refine ⟨before, after, hrest, hcs, ?_, hposition⟩
    -- Whatever is skipped first, the gap behind it follows.
    have hspacing : ∀ first, Spacing first → (charBytes first).length = n →
        first <+: before ++ after → Gap before := by
      rintro first hfirst rfl ⟨rest, hfront⟩
      rw [← hfront] at hrest
      have hskip := (Scanner.rest_skip_charBytes hrest).symm.trans hrest'
      rw [charBytes_injective hskip, ← List.append_assoc] at hfront
      rw [← List.append_cancel_right hfront]
      exact hgap.append_spacing hfirst
    have hline : ∀ first, first <+: before ++ after → (charBytes first).length ≤ n →
        first = ['/', '/'] ∨ first = ['#'] → Gap before := by
      intro first hfront hlength hfirst
      refine ⟨[], before, rfl, .nil, .inr ?_⟩
      have hpast := (s.skip n).position_pastTrivia_le
      have hskip : (s.skip n).position = s.position + n := rfl
      have hbefore := prefix_of_length_charBytes_le hfront (List.prefix_append before after)
        (by omega)
      rcases hfirst with rfl | rfl
      · exact .inl hbefore
      · exact .inr hbefore
    rw [hrest] at hn
    rcases Trivia.cases_charBytes hn with ⟨c, cs', heq, hascii, hblank, rfl⟩ |
      ⟨inner, cs', heq, hinner, rfl⟩ | ⟨hfront, hle⟩ | ⟨hfront, hle⟩
    · refine hspacing [c] (.blank hascii hblank .nil) ?_ ⟨cs', heq.symm⟩
      rw [charBytes_ascii hascii]
      rfl
    · refine hspacing _ (.comment hinner .nil) ?_ ⟨cs', by simp [heq]⟩
      rw [charBytes_slash, charBytes_star, charBytes_append, charBytes_star, charBytes_slash]
      simp
    · refine hline _ hfront ?_ (.inl rfl)
      exact hle
    · refine hline _ hfront ?_ (.inr rfl)
      exact hle
  | case2 s => exact hnone s h
  | case3 s => exact hnone s h

end ReflectionTables.Scanning
