import ReflectionTables.Proofs.JoinedScans
import ReflectionTables.Proofs.WholeCharacters
/-!
# A token ends before the first space behind it

A token depends on the bytes behind it at most up to the first space. Where those bytes are cut off,
or changed from a space on, the bytes of the token are still read as the same token.
-/

namespace ReflectionTables.ByteSearch

variable {xs ys after after' : List UInt8} {start i : Nat}

/-- Whether bytes agree with others up to a space or to their own end. -/
def Thins (after' after : List UInt8) : Prop :=
  ∃ same rest more, after = same ++ rest ∧ after' = same ++ more ∧
    (more = [] ∨ more.head? = some 32)

/-- Bytes are the same up to an index, unless they end or a space comes before it. -/
theorem Thins.getElem?_cases (h : Thins after' after) (i : Nat) :
    (∀ j ≤ i, after'[j]? = after[j]?) ∨
      ∃ j ≤ i, after'[j]? = none ∨ after'[j]? = some 32 := by
  obtain ⟨same, rest, more, rfl, rfl, hmore⟩ := h
  by_cases hi : i < same.length
  · left
    intro j hj
    rw [List.getElem?_append_left (by omega), List.getElem?_append_left (by omega)]
  · refine .inr ⟨same.length, by omega, ?_⟩
    rw [List.getElem?_append_right (Nat.le_refl _), Nat.sub_self, ← List.head?_eq_getElem?]
    exact hmore.imp_left fun h => by rw [h]; rfl

theorem Thins.head?_cases (h : Thins after' after) :
    after'.head? = after.head? ∨ after'.head? = none ∨ after'.head? = some 32 := by
  simp only [List.head?_eq_getElem?]
  rcases h.getElem?_cases 0 with h | ⟨j, hj, h⟩
  · exact .inl (h 0 (Nat.le_refl _))
  · rw [Nat.le_zero.1 hj] at h
    exact .inr h

/-- What stands behind the first byte of a token is the same, unless the token ends there. -/
theorem Thins.head?_append (h : Thins after' after) (xs : List UInt8) :
    (xs ++ after').head? = (xs ++ after).head? ∨
      xs = [] ∧ (after'.head? = none ∨ after'.head? = some 32) := by
  cases xs with
  | nil => exact h.head?_cases.imp_right fun h => ⟨rfl, h⟩
  | cons x xs => exact .inl rfl

theorem findClass_of_append {p : UInt8 → Bool} (h : findClass (xs ++ ys) start p = some i)
    (hi : i < xs.length) : findClass xs start p = some i := by
  have hle := (findClass_bounds h).1
  rw [findClass_eq, List.drop_append_of_le_length (by omega), List.findIdx?_append,
    Option.map_eq_some_iff] at h
  obtain ⟨j, hj, rfl⟩ := h
  rw [findClass_eq]
  cases hfound : (xs.drop start).findIdx? p with
  | some k =>
    rw [hfound] at hj
    exact congrArg (Option.map (· + start)) hj
  | none =>
    rw [hfound, Option.none_or, Option.map_eq_some_iff] at hj
    obtain ⟨k, -, rfl⟩ := hj
    rw [List.length_drop] at hi
    omega

theorem le_of_findUnescaped {quote : UInt8} (h : findUnescaped xs start quote = some i) :
    start ≤ i := by
  fun_induction findUnescaped xs start quote with
  | case1 => cases h
  | case2 start j hj heven =>
    cases h
    exact (findByte_bounds hj).1
  | case3 start j hj hodd ih =>
    have := (findByte_bounds hj).1
    have := ih h
    omega

theorem findByte_of_append {needle : UInt8} (h : findByte (xs ++ ys) start needle = some i)
    (hi : i < xs.length) : findByte xs start needle = some i := by
  rw [findByte_eq, ← findClass_eq] at h ⊢
  exact findClass_of_append h hi

theorem findUnescaped_of_append {quote : UInt8}
    (h : findUnescaped (xs ++ ys) start quote = some i) (hi : i < xs.length) :
    findUnescaped xs start quote = some i := by
  fun_induction findUnescaped (xs ++ ys) start quote with
  | case1 => cases h
  | case2 start j hj heven =>
    cases h
    rw [backslashesBefore_append (Nat.le_of_lt hi)] at heven
    rw [findUnescaped_of_some (findByte_of_append hj hi), if_pos heven]
  | case3 start j hj hodd ih =>
    have hlt := le_of_findUnescaped h
    rw [backslashesBefore_append (by omega)] at hodd
    rw [findUnescaped_of_some (findByte_of_append hj (by omega)), if_neg hodd]
    exact ih h

theorem findClass_eq_length {p : UInt8 → Bool} (hstart : start ≤ xs.length)
    (hnone : ∀ x ∈ xs.drop start, p x = false) {y : UInt8} (hhead : after.head? = some y)
    (hy : p y = true) : findClass (xs ++ after) start p = some xs.length := by
  obtain ⟨rest, rfl⟩ := List.head?_eq_some_iff.1 hhead
  rw [findClass_eq, List.drop_append_of_le_length hstart, List.findIdx?_append,
    List.findIdx?_eq_none_iff.2 hnone, Option.none_or, List.findIdx?_cons, if_pos hy]
  simp
  omega

theorem joinsAt_length (xs ys : List UInt8) : joinsAt (xs ++ ys) xs.length =
    (ys[0]? == some colon && ys[1]? == some colon && ys[2]?.any isNameStart) := by
  have hget : ∀ j, (xs ++ ys)[xs.length + j]? = ys[j]? := fun j => by
    rw [List.getElem?_append_right (Nat.le_add_right _ _), Nat.add_sub_cancel_left]
  have hget₀ : (xs ++ ys)[xs.length]? = ys[0]? := hget 0
  rw [joinsAt, hget₀, hget, hget]

/-- A name goes on only where it went on. -/
theorem joinsAt_of_thins (h : Thins after' after) (hjoins : joinsAt (xs ++ after') xs.length = true) :
    joinsAt (xs ++ after) xs.length = true := by
  rw [joinsAt_length, Bool.and_eq_true, Bool.and_eq_true] at hjoins
  obtain ⟨⟨hcolon, hcolon'⟩, hname⟩ := hjoins
  rcases h.getElem?_cases 2 with hsame | ⟨j, hj, hspace⟩
  · rw [joinsAt_length, ← hsame 0 (by omega), ← hsame 1 (by omega), ← hsame 2 (by omega), hcolon,
      hcolon', hname]
    rfl
  · have hj : j = 0 ∨ j = 1 ∨ j = 2 := by omega
    rcases hj with rfl | rfl | rfl
    · rw [eq_of_beq hcolon] at hspace
      simp [colon] at hspace
    · rw [eq_of_beq hcolon'] at hspace
      simp [colon] at hspace
    · rcases hspace with hspace | hspace <;> rw [hspace] at hname <;> cases hname

theorem lt_nameEnd {b : UInt8} (h : xs[start]? = some b) (hb : isNameByte b = true) :
    start < nameEnd xs start := by
  rw [nameEnd]
  split
  · exact (List.getElem?_eq_some_iff.1 h).1
  · rename_i j hj
    obtain ⟨b', hb', hname, -⟩ := getElem?_of_findClass hj
    have hne : start ≠ j := by
      rintro rfl
      rw [h] at hb'
      cases hb'
      rw [hb] at hname
      cases hname
    have := (findClass_bounds hj).1
    split
    · rename_i hjoins
      have hlt : j + 2 < xs.length := by
        simp only [joinsAt, Bool.and_eq_true] at hjoins
        obtain ⟨c, hc, -⟩ := (Option.any_eq_true ..).1 hjoins.2
        exact (List.getElem?_eq_some_iff.1 hc).1
      have := le_nameEnd (Nat.le_of_lt hlt)
      omega
    · omega

theorem isNameByte_of_isNameStart {b : UInt8} (h : isNameStart b = true) : isNameByte b = true := by
  rw [isNameStart, Bool.or_eq_true] at h
  rw [isNameByte, Char.isAlphanum, Bool.or_eq_true, Bool.or_eq_true]
  exact h.imp_left .inl

theorem joinsAt_append_of_lt (h : i + 2 < xs.length) : joinsAt (xs ++ ys) i = joinsAt xs i := by
  rw [joinsAt, joinsAt, List.getElem?_append_left (by omega), List.getElem?_append_left (by omega),
    List.getElem?_append_left h]

/-- Where only bytes of a name are left in front, the name ends behind them. -/
theorem nameEnd_of_names (h : Thins after' after) (hstart : start ≤ xs.length)
    (hnames : ∀ x ∈ xs.drop start, (!isNameByte x) = false)
    (hhead : ∀ y, after.head? = some y → (!isNameByte y) = true)
    (hjoins : joinsAt (xs ++ after) xs.length ≠ true) :
    nameEnd (xs ++ after') start = xs.length := by
  cases hafter : after'.head? with
  | none =>
    rw [List.head?_eq_none_iff.1 hafter, List.append_nil, nameEnd]
    split
    · rfl
    · rename_i j hj
      rw [findClass_eq, List.findIdx?_eq_none_iff.2 hnames] at hj
      cases hj
  | some y =>
    have hy : (!isNameByte y) = true := by
      rcases h.head?_cases with hsame | hnone | hspace
      · exact hhead y (hsame.symm.trans hafter)
      · rw [hafter] at hnone
        cases hnone
      · rw [hafter] at hspace
        cases hspace
        rfl
    rw [nameEnd_of_some (findClass_eq_length hstart hnames hafter hy),
      if_neg fun hjoins' => hjoins (joinsAt_of_thins h hjoins')]

theorem nameEnd_of_thins (h : Thins after' after) (hstart : start ≤ xs.length)
    (hend : nameEnd (xs ++ after) start = xs.length) : nameEnd (xs ++ after') start = xs.length := by
  generalize hbytes : xs ++ after = bytes at hend
  fun_induction nameEnd bytes start with
  | case1 start hnone =>
    rw [findClass_eq, Option.map_eq_none_iff, List.findIdx?_eq_none_iff] at hnone
    rw [← hbytes, List.length_append] at hend
    have hafter : after = [] := List.length_eq_zero_iff.1 (by omega)
    rw [hafter, List.append_nil] at hbytes
    refine nameEnd_of_names h hstart (fun x hx => hnone x (hbytes ▸ hx)) (by simp [hafter]) ?_
    rw [joinsAt_length, hafter]
    simp
  | case2 start j hj hjoins ih =>
    have hname : bytes[j + 2]?.any isNameStart = true := by
      simp only [joinsAt, Bool.and_eq_true] at hjoins
      exact hjoins.2
    obtain ⟨b, hb, hb'⟩ := (Option.any_eq_true ..).1 hname
    have hlt := lt_nameEnd hb (isNameByte_of_isNameStart hb')
    rw [hend] at hlt
    rw [← hbytes] at hj hjoins
    rw [joinsAt_append_of_lt hlt] at hjoins
    rw [nameEnd_of_some (findClass_append (findClass_of_append hj (by omega))),
      joinsAt_append_of_lt hlt, if_pos hjoins]
    exact ih (by omega) hend
  | case3 start j hj hjoins =>
    obtain ⟨b, hb, hname, hbefore⟩ := getElem?_of_findClass hj
    rw [← hbytes, hend] at hjoins hb
    refine nameEnd_of_names h hstart (fun x hx => ?_) (fun y hy => ?_) hjoins
    · obtain ⟨k, hk, rfl⟩ := List.mem_iff_getElem.1 hx
      rw [List.length_drop] at hk
      obtain ⟨b', hb', hname'⟩ := hbefore (start + k) (by omega) (by omega)
      rw [← hbytes, List.getElem?_append_left (by omega),
        List.getElem?_eq_getElem (by omega : start + k < xs.length)] at hb'
      rw [List.getElem_drop, Option.some.inj hb', hname']
    · rw [List.getElem?_append_right (Nat.le_refl _), Nat.sub_self, ← List.head?_eq_getElem?, hy] at hb
      cases hb
      exact hname

end ReflectionTables.ByteSearch

namespace ReflectionTables.Scanning

open ByteSearch

variable {xs after after' : List UInt8} {b : UInt8} {kind : TokenKind}

/-- A literal ends where it ended. -/
theorem Lexeme.quoted_of_thins {quote : UInt8} {k : TokenKind} {fault : ScanFault}
    (h : Lexeme.quoted (b :: (xs ++ after)) quote k fault = .token kind (xs.length + 1)) :
    Lexeme.quoted (b :: (xs ++ after')) quote k fault = .token kind (xs.length + 1) := by
  rw [← List.cons_append] at h ⊢
  refine Lexeme.quoted_append ?_
  rw [Lexeme.quoted] at h ⊢
  split at h
  · rename_i i hi
    cases h
    rw [findUnescaped_of_append hi (Nat.lt_succ_self _)]
  · cases h

theorem Lexeme.operator_of_space {c : Char} {next : Option Char}
    (h : Lexeme.operator c next = .token kind 1) {next' : Option Char}
    (hnext : next' = none ∨ next' = some ' ') : Lexeme.operator c next' = .token kind 1 := by
  have hsingle : TokenKind.single? c = some kind := by
    rcases Lexeme.operator_cases h with ⟨hc, -⟩ | ⟨-, -, hn⟩ | ⟨-, -, hn⟩
    · exact hc
    · cases hn
    · cases hn
  have hdoubled : TokenKind.doubled? ' ' = none := rfl
  rcases hnext with rfl | rfl
  · simp [Lexeme.operator, hsingle]
  · simp only [Lexeme.operator, hsingle, Option.some.injEq]
    split
    · rename_i heq
      rw [← heq, hdoubled]
      rfl
    · rfl

theorem Lexeme.operator_of_thins (h : Thins after' after)
    (hop : Lexeme.operator (Char.ofNat b.toNat) ((xs ++ after).head?.map fun n => Char.ofNat n.toNat) =
      .token kind (xs.length + 1)) :
    Lexeme.operator (Char.ofNat b.toNat) ((xs ++ after').head?.map fun n => Char.ofNat n.toNat) =
      .token kind (xs.length + 1) := by
  rcases h.head?_append xs with hsame | ⟨rfl, hspace⟩
  · rw [hsame]
    exact hop
  · refine Lexeme.operator_of_space hop (hspace.imp ?_ ?_) <;> intro hhead <;>
      rw [List.nil_append, hhead] <;> rfl

/-- A number ends where it ended. -/
theorem length_takeWhile_of_thins {p : UInt8 → Bool} (h : Thins after' after) (hp : p 32 = false)
    (hlength : ((xs ++ after).takeWhile p).length = xs.length) :
    ((xs ++ after').takeWhile p).length = xs.length := by
  have htake : (xs ++ after).takeWhile p = xs := by
    refine List.IsPrefix.eq_of_length ?_ hlength
    exact List.prefix_of_prefix_length_le (List.takeWhile_prefix p) (List.prefix_append xs after)
      (Nat.le_of_eq hlength)
  have hall : ∀ x ∈ xs, p x = true := List.all_eq_true.1 (htake ▸ List.all_takeWhile)
  rw [List.takeWhile_append_of_pos hall, List.length_append] at hlength ⊢
  have hnone : after.takeWhile p = [] := List.length_eq_zero_iff.1 (by omega)
  have hhead : ∀ y, after'.head? = some y → p y = false := by
    intro y hy
    rcases h.head?_cases with hsame | hend | hspace
    · obtain ⟨rest, hrest⟩ := List.head?_eq_some_iff.1 (hsame.symm.trans hy)
      rw [hrest, List.takeWhile_cons] at hnone
      refine Bool.eq_false_iff.2 fun hpos => ?_
      rw [if_pos hpos] at hnone
      cases hnone
    · rw [hend] at hy
      cases hy
    · rw [hspace] at hy
      cases hy
      exact hp
  cases hafter' : after' with
  | nil => rfl
  | cons y rest =>
    rw [List.takeWhile_cons, hhead y (by rw [hafter']; rfl)]
    rfl

/-- A second byte is the same, unless it does not belong to the token. -/
theorem second_iff_of_thins (xs : List UInt8) (h : Thins after' after) {c : Char} (hc : c ≠ ' ')
    (hxs : ((xs ++ after).head?.map fun n => Char.ofNat n.toNat) = some c → xs ≠ []) :
    ((xs ++ after').head?.map fun n => Char.ofNat n.toNat) = some c ↔
      ((xs ++ after).head?.map fun n => Char.ofNat n.toNat) = some c := by
  rcases h.head?_append xs with hsame | ⟨rfl, hspace⟩
  · rw [hsame]
  · refine ⟨fun heq => ?_, fun heq => absurd rfl (hxs heq)⟩
    rcases hspace with hend | hspace
    · rw [List.nil_append, hend] at heq
      cases heq
    · rw [List.nil_append, hspace] at heq
      cases heq
      exact absurd rfl hc

theorem Lexeme.ofBytes_of_thins (h : Thins after' after)
    (hlexeme : Lexeme.ofBytes b (xs ++ after) = .token kind (xs.length + 1)) :
    Lexeme.ofBytes b (xs ++ after') = .token kind (xs.length + 1) := by
  have htwo : ∀ {k : TokenKind}, Lexeme.token k 2 = .token kind (xs.length + 1) → xs ≠ [] := by
    rintro k htwo rfl
    cases htwo
  have hpair : ∀ (c : Char) (k k' : TokenKind), c ≠ ' ' →
      (if ((xs ++ after).head?.map fun n => Char.ofNat n.toNat) = some c then Lexeme.token k 2
        else .token k' 1) = .token kind (xs.length + 1) →
      (if ((xs ++ after').head?.map fun n => Char.ofNat n.toNat) = some c then Lexeme.token k 2
        else .token k' 1) = .token kind (xs.length + 1) := by
    intro c k k' hc heq
    have hiff := second_iff_of_thins xs h hc fun hsecond => htwo (by rwa [if_pos hsecond] at heq)
    simpa only [hiff] using heq
  simp only [Lexeme.ofBytes] at hlexeme ⊢
  split at hlexeme
  · rw [if_pos ‹_›, hlexeme]
  rw [if_neg ‹_›]
  split at hlexeme
  · rw [if_pos ‹_›, hlexeme]
  rw [if_neg ‹_›]
  split at hlexeme
  · rw [if_pos ‹_›]
    exact hpair ')' _ _ (by decide) hlexeme
  rw [if_neg ‹_›]
  split at hlexeme
  · rw [if_pos ‹_›]
    exact hpair ']' _ _ (by decide) hlexeme
  rw [if_neg ‹_›]
  split at hlexeme
  · rw [if_pos ‹_›]
    have hiff := second_iff_of_thins xs (c := '"') h (by decide) fun hsecond =>
      htwo (by rwa [if_pos hsecond] at hlexeme)
    split at hlexeme
    · rw [if_pos (hiff.2 ‹_›), hlexeme]
    · rw [if_neg (mt hiff.1 ‹_›)]
      exact Lexeme.quoted_of_thins hlexeme
  rw [if_neg ‹_›]
  split at hlexeme
  · rw [if_pos ‹_›]
    exact Lexeme.quoted_of_thins hlexeme
  rw [if_neg ‹_›]
  split at hlexeme
  · rw [if_pos ‹_›]
    have hlength := (Lexeme.token.inj hlexeme).2
    rw [length_takeWhile_of_thins h rfl (by omega), ← hlexeme, hlength, Nat.add_comm]
  rw [if_neg ‹_›]
  split at hlexeme
  · rw [if_pos ‹_›]
    have hend := (Lexeme.token.inj hlexeme).2
    rw [← List.cons_append] at hend ⊢
    rw [nameEnd_of_thins h (by simp) hend, ← (Lexeme.token.inj hlexeme).1]
    rfl
  · rw [if_neg ‹_›]
    exact Lexeme.operator_of_thins h hlexeme

theorem Trivia.ofBytes_of_thins (h : Thins after' after)
    (habsent : Trivia.ofBytes (b :: (xs ++ after)) = .absent) :
    Trivia.ofBytes (b :: (xs ++ after')) = .absent := by
  have hsecond : ∀ n : UInt8, n ≠ 32 → (xs ++ after').head? = some n →
      (xs ++ after).head? = some n := by
    intro n hn hhead
    rcases h.head?_append xs with hsame | ⟨rfl, hend | hspace⟩
    · rwa [← hsame]
    · rw [List.nil_append, hend] at hhead
      cases hhead
    · rw [List.nil_append, hspace] at hhead
      cases hhead
      exact absurd rfl hn
  have hopens : ∀ n : UInt8, n ≠ 32 → ¬(b == slash && (xs ++ after).head? == some n) = true →
      ¬(b == slash && (xs ++ after').head? == some n) = true := by
    intro n hn hnot hboth
    obtain ⟨hb, hhead⟩ := Bool.and_eq_true_iff.1 hboth
    exact hnot (Bool.and_eq_true_iff.2 ⟨hb, beq_of_eq (hsecond n hn (eq_of_beq hhead))⟩)
  rw [Trivia.ofBytes] at habsent ⊢
  split at habsent
  · cases habsent
  rw [if_neg ‹_›]
  split at habsent
  · cases habsent
  rw [if_neg (hopens slash (by decide) ‹_›)]
  split at habsent
  · split at habsent <;> cases habsent
  rw [if_neg (hopens star (by decide) ‹_›)]
  split at habsent
  · cases habsent
  · rw [if_neg ‹_›]

end ReflectionTables.Scanning
