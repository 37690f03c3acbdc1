import ReflectionTables.Proofs.CharacterScans
import ReflectionTables.ReflectedTypes
/-!
# Texts that are written within a line

Collapsing leaves a text as it is just if each blank in it is one space between two other
characters. What collapsing gives is such a text, two of them joined by a space are one again, and a
span that begins with a token has something to show.
-/

namespace ReflectionTables.Text

variable {a b text : String} {c : Char} {cs : List Char}

/-- Whether each blank of a text is one space between two other characters. -/
def SpacedOnce (text : String) : Prop :=
  ∀ before c behind, text.toList = before ++ c :: behind → isBlank c = true →
    c = ' ' ∧ (∃ earlier d, before = earlier ++ [d] ∧ isBlank d = false) ∧
      ∃ d later, behind = d :: later ∧ isBlank d = false

@[simp] theorem pendingBehind_concat (pending : Bool) (cs : List Char) (c : Char) :
    pendingBehind pending (cs ++ [c]) = isBlank c := by
  induction cs generalizing pending with
  | nil => rfl
  | cons d cs ih => exact ih (isBlank d)

theorem length_squeeze_lt (before behind : List Char) {d : Char} (hc : isBlank c = true)
    (hd : isBlank d = true) :
    (squeeze false (before ++ c :: d :: behind)).length < (before ++ c :: d :: behind).length := by
  have hbefore := length_squeeze_le false before
  have hbehind := length_squeeze_le true behind
  rw [squeeze_append, squeeze_blank hc, squeeze_blank hd, List.length_append, List.length_append]
  simp only [List.length_cons, Bool.toNat_false, Bool.toNat_true] at *
  omega

/-- In characters that squeezing leaves as they are, a blank is a space, and no blank is next to it. -/
theorem spaced_of_squeeze_eq_self {before behind : List Char} (h : squeeze false (before ++ c :: behind) =
    before ++ c :: behind) (hc : isBlank c = true) :
    c = ' ' ∧ (∀ earlier d, before = earlier ++ [d] → isBlank d = false) ∧
      ∀ d later, behind = d :: later → isBlank d = false := by
  refine ⟨?_, ?_, ?_⟩
  · have hmem : c ∈ squeeze false (before ++ c :: behind) := by
      rw [h]
      simp
    exact eq_space_of_mem_squeeze hmem hc
  · rintro earlier d rfl
    refine Bool.eq_false_iff.mpr fun hd => ?_
    have hlt := length_squeeze_lt earlier behind hd hc
    rw [← List.singleton_append, ← List.append_assoc, h] at hlt
    exact Nat.lt_irrefl _ hlt
  · rintro d later rfl
    refine Bool.eq_false_iff.mpr fun hd => ?_
    have hlt := length_squeeze_lt before later hc hd
    rw [h] at hlt
    exact Nat.lt_irrefl _ hlt

/-- Squeezing leaves characters as they are if each blank in them is a space before another character. -/
theorem squeeze_eq_self (h : ∀ before c behind, cs = before ++ c :: behind → isBlank c = true →
    c = ' ' ∧ ∃ d later, behind = d :: later ∧ isBlank d = false) : squeeze false cs = cs := by
  induction cs with
  | nil => rfl
  | cons c cs ih =>
    have hrest : squeeze false cs = cs := by
      apply ih
      intro before d behind hcs
      exact h (c :: before) d behind (by rw [hcs, List.cons_append])
    cases hc : isBlank c with
    | false => rw [squeeze_word hc, hrest]
    | true =>
      obtain ⟨rfl, d, later, rfl, hd⟩ := h [] c cs rfl hc
      rw [squeeze_word hd] at hrest
      rw [squeeze_blank hc, squeeze_pending hd, if_pos rfl, hrest, List.singleton_append]

/-- Collapsing leaves just those texts as they are. -/
theorem collapse_eq_self_iff : collapse text = text ↔ SpacedOnce text := by
  constructor
  · intro h before c behind htext hc
    obtain ⟨hself, hpending, hhead⟩ := collapse_eq_self h
    rw [htext] at hself hpending
    obtain ⟨hspace, hbefore, hbehind⟩ := spaced_of_squeeze_eq_self hself hc
    refine ⟨hspace, ?_, ?_⟩
    · obtain rfl | ⟨earlier, d, rfl⟩ := before.eq_nil_or_concat'
      · rw [hhead c behind htext] at hc
        cases hc
      · exact ⟨earlier, d, rfl, hbefore earlier d rfl⟩
    · cases behind with
      | nil =>
        rw [pendingBehind_concat, hc] at hpending
        cases hpending
      | cons d later => exact ⟨d, later, rfl, hbehind d later rfl⟩
  · intro h
    have hself : squeeze false text.toList = text.toList := by
      apply squeeze_eq_self
      intro before c behind htext hc
      exact ⟨(h before c behind htext hc).1, (h before c behind htext hc).2.2⟩
    cases htext : text.toList with
    | nil =>
      rw [collapse, htext, words_nil, String.toList_eq_nil_iff.mp htext]
      rfl
    | cons c cs =>
      have hc : isBlank c = false := by
        refine Bool.eq_false_iff.mpr fun hc => ?_
        obtain ⟨-, ⟨earlier, d, hempty, -⟩, -⟩ := h [] c cs htext hc
        exact List.cons_ne_nil _ _ (List.append_eq_nil_iff.mp hempty.symm).2
      apply String.toList_injective
      rw [toList_collapse htext hc, ← htext, hself]

theorem SpacedOnce.not_lineFeed (h : SpacedOnce text) : '\n' ∉ text.toList := by
  intro hmem
  obtain ⟨before, behind, htext⟩ := List.append_of_mem hmem
  have hspace := (h before '\n' behind htext rfl).1
  cases hspace

@[simp] theorem squeeze_squeeze (pending : Bool) (cs : List Char) :
    squeeze false (squeeze pending cs) = squeeze pending cs := by
  induction cs generalizing pending with
  | nil => rfl
  | cons c cs ih =>
    cases hc : isBlank c with
    | true =>
      rw [squeeze_blank hc]
      exact ih true
    | false =>
      cases pending with
      | false => rw [squeeze_word hc, squeeze_word hc, ih]
      | true => rw [squeeze_pending hc, if_pos rfl, List.singleton_append, squeeze_blank rfl,
          squeeze_pending hc, if_pos rfl, ih, List.singleton_append]

@[simp] theorem collapse_collapse (text : String) : collapse (collapse text) = collapse text := by
  apply collapse_congr
  have hwords := squeeze_eq_words text.toList
  rw [collapse, String.toList_ofList]
  split at hwords
  · rename_i hnone
    rw [hwords, hnone]
    rfl
  · -- The collapsed text stands behind the space that squeezing writes first.
    have htwice := squeeze_squeeze true text.toList
    rw [hwords, squeeze_blank rfl] at htwice
    rw [htwice, hwords]

/-- A word is left of a text that begins with one. -/
theorem collapse_ne_empty (h : text.toList = c :: cs) (hc : isBlank c = false) : collapse text ≠ "" := by
  intro hempty
  have hlist := toList_collapse h hc
  rw [hempty, squeeze_word hc] at hlist
  cases hlist

theorem collapse_join (ha : collapse a = a) (hb : collapse b = b) (ha' : a ≠ "") (hb' : b ≠ "") :
    collapse (a ++ " " ++ b) = a ++ " " ++ b := by
  obtain ⟨hself, hpending, hhead⟩ := collapse_eq_self ha
  obtain ⟨hself', -, hhead'⟩ := collapse_eq_self hb
  obtain ⟨c, cs, hac⟩ := List.exists_cons_of_ne_nil fun hnil => ha' (String.toList_eq_nil_iff.mp hnil)
  obtain ⟨d, ds, hbd⟩ := List.exists_cons_of_ne_nil fun hnil => hb' (String.toList_eq_nil_iff.mp hnil)
  have hlist : (a ++ " " ++ b).toList = a.toList ++ ' ' :: b.toList := by simp
  have hsqueeze : squeeze false (a.toList ++ ' ' :: b.toList) = a.toList ++ ' ' :: b.toList := by
    have hd := hhead' d ds hbd
    rw [hbd, squeeze_word hd] at hself'
    rw [squeeze_append, hself, hpending, squeeze_blank rfl, hbd, squeeze_pending hd, if_pos rfl, hself',
      List.singleton_append]
  apply String.toList_injective
  rw [hlist]
  rw [hac, List.cons_append] at hlist hsqueeze ⊢
  rw [toList_collapse hlist (hhead c cs hac), hsqueeze]

end ReflectionTables.Text

namespace ReflectionTables.Scanning

open Text ByteSearch

variable {text piece : String} {start stop : Nat} {b : UInt8} {after : List UInt8} {kind : TokenKind} {n : Nat}

private theorem unknown_bytes : ∀ n < 256, n ≤ 32 ∨ 127 ≤ n →
    Char.ofNat n ∉ ['{', '}', '(', '[', '"', '\''] ∧ (Char.ofNat n).isDigit = false ∧
      isNameStart (UInt8.ofNat n) = false ∧ TokenKind.single? (Char.ofNat n) = none ∧
      TokenKind.doubled? (Char.ofNat n) = none ∧ TokenKind.withEquals? (Char.ofNat n) = none := by
  decide +kernel

theorem Lexeme.printable_of_ofBytes (h : Lexeme.ofBytes b after = .token kind n) :
    32 < b.toNat ∧ b.toNat < 127 := by
  by_contra hrange
  obtain ⟨hchar, hdigit, hname, hsingle, hdoubled, hequals⟩ :=
    unknown_bytes b.toNat b.toNat_lt (by omega)
  rw [UInt8.ofNat_toNat] at hname
  simp only [List.mem_cons, List.not_mem_nil, or_false, not_or] at hchar
  simp [Lexeme.ofBytes, Lexeme.operator, hchar, hdigit, hname, hsingle, hdoubled, hequals] at h

theorem isBlank_of_printable {c : Char} (h : 32 < c.toNat ∧ c.toNat < 127) : isBlank c = false := by
  simp only [isBlank, Bool.or_eq_false_iff, Bool.and_eq_false_iff, decide_eq_false_iff_not, beq_eq_false_iff_ne]
  omega

theorem BeginsToken.exists_word (h : BeginsToken text start) (hlt : start < stop)
    (hpiece : slice? text start stop = some piece) :
    ∃ c cs, piece.toList = c :: cs ∧ isBlank c = false := by
  obtain ⟨t, ht, rfl⟩ := h
  obtain ⟨b, after, hdrop, hlexeme⟩ := (standsIn_of_mem_tokensOf ht).isLexeme
  have hprintable := Lexeme.printable_of_ofBytes hlexeme
  have hbytes : charBytes piece.toList = b :: after.take (stop - t.offset - 1) := by
    obtain ⟨-, -, -, hcut⟩ := slice?_eq_some_iff.mp hpiece
    obtain ⟨k, hk⟩ : ∃ k, stop - t.offset = k + 1 := ⟨stop - t.offset - 1, by omega⟩
    rw [← bytesOf_eq, hcut, List.drop_take, hdrop, hk, List.take_succ_cons, Nat.add_sub_cancel]
  obtain ⟨c, cs, hchars, hc, -⟩ := exists_of_charBytes hbytes (by omega)
  exact ⟨c, cs, hchars, isBlank_of_printable (by omega)⟩

end ReflectionTables.Scanning

namespace ReflectionTables.Reflected

open Text

/-- Whether the text that a finding shows is one line of words, which a declaration does not lack. -/
def Finding.Clean : Finding → Prop
  | .announced shown => collapse shown = shown ∧ shown ≠ ""
  | .remark (.unparsed shown) => collapse shown = shown
  | _ => True

theorem Finding.clean_notReflected (name : String) : (Finding.remark (.notReflected name)).Clean := trivial

/-- A declarator is written behind the type words that it shares with others. -/
theorem Finding.Clean.join {a b : String} (ha : (Finding.announced a).Clean)
    (hb : (Finding.announced b).Clean) : (Finding.announced s!"{a} {b}").Clean := by
  refine ⟨collapse_join ha.1 hb.1 ha.2 hb.2, fun hempty => ha.2 ?_⟩
  exact (String.append_eq_empty_iff.mp (String.append_eq_empty_iff.mp hempty).1).1

/-- Whether all that was found so far is clean. -/
structure Findings.Clean (f : Findings) : Prop where
  externs : ∀ shown ∈ f.externs, (Finding.announced shown).Clean
  remarks : ∀ r ∈ f.remarks, (Finding.remark r).Clean

theorem Findings.clean_nothing : ({} : Findings).Clean := ⟨by simp, by simp⟩

theorem Findings.Clean.add {f : Findings} {finding : Finding} (h : f.Clean) (hf : finding.Clean) :
    (f.add finding).Clean := by
  cases finding with
  | type type => exact ⟨h.externs, h.remarks⟩
  | declaration declaration => exact ⟨h.externs, h.remarks⟩
  | announced shown =>
    refine ⟨?_, h.remarks⟩
    rw [Findings.add, List.forall_mem_append, List.forall_mem_singleton]
    exact ⟨h.externs, hf⟩
  | remark r =>
    refine ⟨h.externs, ?_⟩
    rw [Findings.add, List.forall_mem_append, List.forall_mem_singleton]
    exact ⟨h.remarks, hf⟩

end ReflectionTables.Reflected
