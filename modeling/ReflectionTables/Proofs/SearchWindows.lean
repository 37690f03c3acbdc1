import ReflectionTables.ByteSearches
/-!
# Windows hold the first hit

The searches in windows find the first hit. A lane is a row of eight digits below 256, and the
operations on lanes work digit by digit: the sum that looks for zeros carries over no digit.
-/

namespace ReflectionTables.ByteSearch

/-- The number with the given digits below 256, the lowest first. -/
def rowOf : List Nat → Nat
  | [] => 0
  | d :: ds => 256 * rowOf ds + d

theorem rowOf_lt {ds : List Nat} (h : ∀ d ∈ ds, d < 256) : rowOf ds < 1 <<< (8 * ds.length) := by
  rw [Nat.one_shiftLeft]
  induction ds with
  | nil => simp [rowOf]
  | cons d ds ih =>
    have hd := h d List.mem_cons_self
    have := ih fun e he => h e (List.mem_cons_of_mem d he)
    have hpow : 2 ^ (8 * (d :: ds).length) = 256 * 2 ^ (8 * ds.length) := by
      rw [List.length_cons, Nat.mul_succ, Nat.add_comm, Nat.pow_add]
    rw [rowOf, hpow]
    omega

theorem testBit_rowOf {ds : List Nat} (h : ∀ d ∈ ds, d < 256) (k : Nat) :
    (rowOf ds).testBit k = (ds.getD (k / 8) 0).testBit (k % 8) := by
  induction ds generalizing k with
  | nil => simp [rowOf]
  | cons d ds ih =>
    have hd := h d List.mem_cons_self
    rw [rowOf, Nat.testBit_two_pow_mul_add (i := 8) _ hd]
    by_cases hk : k < 8
    · rw [if_pos hk, Nat.div_eq_of_lt hk, Nat.mod_eq_of_lt hk]
      rfl
    · have hdiv : k / 8 = (k - 8) / 8 + 1 := by omega
      have hmod : k % 8 = (k - 8) % 8 := by omega
      rw [if_neg hk, ih (fun e he => h e (List.mem_cons_of_mem d he)), hdiv, hmod, List.getD_cons_succ]

theorem rowOf_map_add (f : Nat → Nat) (ds : List Nat) (n : Nat) :
    rowOf (ds.map f) + rowOf (List.replicate ds.length n) = rowOf (ds.map (f · + n)) := by
  induction ds with
  | nil => rfl
  | cons d ds ih =>
    simp only [List.map_cons, List.length_cons, List.replicate_succ, rowOf]
    omega

theorem toNat_lt_of_mem (bytes : List UInt8) : ∀ d ∈ bytes.map UInt8.toNat, d < 256 := by
  intro d hd
  obtain ⟨b, -, rfl⟩ := List.mem_map.1 hd
  exact b.toNat_lt

theorem toNat_lane {bytes : List UInt8} (h : bytes.length ≤ 8) :
    (lane bytes).toNat = rowOf (bytes.map UInt8.toNat) := by
  induction bytes with
  | nil => rfl
  | cons b bs ih =>
    rw [List.length_cons] at h
    have hrow := rowOf_lt (toNat_lt_of_mem bs)
    rw [Nat.one_shiftLeft] at hrow
    have hpow : 2 ^ (8 * (bs.map UInt8.toNat).length) ≤ 2 ^ 56 :=
      Nat.pow_le_pow_right (by omega) (by rw [List.length_map]; omega)
    have hmod : (rowOf (bs.map UInt8.toNat)) <<< 8 % 2 ^ 64 = 2 ^ 8 * rowOf (bs.map UInt8.toNat) := by
      rw [Nat.shiftLeft_eq, Nat.mul_comm, Nat.mod_eq_of_lt]
      omega
    have hshift : (8 : UInt64).toNat % 64 = 8 := rfl
    rw [lane, UInt64.toNat_or, UInt64.toNat_shiftLeft, ih (by omega), UInt8.toNat_toUInt64, hshift, hmod,
      Nat.or_comm, ← Nat.two_pow_add_eq_or_of_lt b.toNat_lt, List.map_cons, rowOf]

/-- One digit of the search for a needle: the high bit stays where the difference is zero. -/
private theorem highBit_digit : ∀ d < 256, ∀ i < 8,
    (!((((d &&& 127) + 127).testBit i || d.testBit i) || (127).testBit i)) =
      decide (i = 7 ∧ d = 0) := by
  decide +kernel

private theorem getD_map {α : Type} (f : α → Nat) {xs : List α} {j : Nat} (h : j < xs.length) :
    (xs.map f).getD j 0 = f xs[j] := by
  rw [List.getD_eq_getElem?_getD, List.getElem?_map, List.getElem?_eq_getElem h]
  rfl

private theorem getD_replicate {n d j : Nat} (h : j < n) : (List.replicate n d).getD j 0 = d := by
  rw [List.getD_eq_getElem?_getD, List.getElem?_replicate, if_pos h]
  rfl

private theorem getD_of_le {ds : List Nat} {j : Nat} (h : ds.length ≤ j) : ds.getD j 0 = 0 := by
  rw [List.getD_eq_getElem?_getD, List.getElem?_eq_none h]
  rfl

private theorem testBit_of_le {d i : Nat} (hd : d < 256) (hi : 8 ≤ i) : d.testBit i = false := by
  have hpow : 2 ^ 8 ≤ 2 ^ i := Nat.pow_le_pow_right (by omega) hi
  exact Nat.testBit_lt_two_pow (by omega)

private theorem xor_eq_zero {a b : Nat} : a ^^^ b = 0 ↔ a = b := by
  constructor
  · intro h
    refine Nat.eq_of_testBit_eq fun k => ?_
    have hbit := congrArg (Nat.testBit · k) h
    simpa [Nat.testBit_xor] using hbit
  · rintro rfl
    exact Nat.xor_self a

/-- A bitwise operation with the same digit everywhere goes digit by digit. -/
private theorem rowOf_bitwise (op : Nat → Nat → Nat) (f : Bool → Bool → Bool) (hf : f false false = false)
    (htestBit : ∀ a b k, (op a b).testBit k = f (a.testBit k) (b.testBit k))
    {ds : List Nat} {n : Nat} (hds : ∀ d ∈ ds, d < 256) (hn : n < 256) :
    op (rowOf ds) (rowOf (List.replicate ds.length n)) = rowOf (ds.map (op · n)) := by
  have hop : ∀ d ∈ ds.map (op · n), d < 256 := by
    intro d hd
    obtain ⟨e, he, rfl⟩ := List.mem_map.1 hd
    refine Nat.lt_pow_two_of_testBit (n := 8) _ fun i hi => ?_
    rw [htestBit, testBit_of_le (hds e he) hi, testBit_of_le hn hi, hf]
  refine Nat.eq_of_testBit_eq fun k => ?_
  rw [htestBit, testBit_rowOf hds, testBit_rowOf (by simp [hn]), testBit_rowOf hop]
  by_cases hk : k / 8 < ds.length
  · rw [getD_replicate hk, getD_map _ hk, htestBit, List.getD_eq_getElem?_getD,
      List.getElem?_eq_getElem hk]
    rfl
  · rw [getD_of_le (by omega), getD_of_le (by simpa using hk), getD_of_le (by simpa using hk),
      Nat.zero_testBit, hf]

private theorem testBit_not {n : UInt64} {k : Nat} (hk : k < 64) :
    (~~~n).toNat.testBit k = !n.toNat.testBit k := by
  have hnot : (~~~n).toNat = 2 ^ 64 - (n.toNat + 1) := by
    rw [UInt64.toNat_not]
    change 2 ^ 64 - 1 - n.toNat = _
    omega
  rw [hnot, Nat.testBit_two_pow_sub_succ n.toNat_lt]
  simp [hk]

/-- Bits are set in the high bits of those bytes that equal the needle, and nowhere else. -/
theorem testBit_equalBytes {bytes : List UInt8} (h : bytes.length = 8) (needle : UInt8) {k : Nat}
    (hk : k < 64) :
    (equalBytes (lane bytes) needle).toNat.testBit k =
      decide (k % 8 = 7 ∧ bytes[k / 8]? = some needle) := by
  have hneedle := needle.toNat_lt
  let ds := bytes.map fun b => b.toNat ^^^ needle.toNat
  have hds : ∀ d ∈ ds, d < 256 := by
    intro d hd
    obtain ⟨b, -, rfl⟩ := List.mem_map.1 hd
    exact Nat.xor_lt_two_pow (n := 8) b.toNat_lt hneedle
  have hlength : ds.length = 8 := by rw [List.length_map, h]
  have hones : (0x0101010101010101 * needle.toUInt64 : UInt64).toNat =
      rowOf (List.replicate 8 needle.toNat) := by
    rw [UInt64.toNat_mul, UInt8.toNat_toUInt64]
    simp [rowOf, List.replicate]
    omega
  have hlow : (0x7f7f7f7f7f7f7f7f : UInt64).toNat = rowOf (List.replicate 8 127) := rfl
  have hx : (lane bytes ^^^ (0x0101010101010101 * needle.toUInt64)).toNat = rowOf ds := by
    have hxor := rowOf_bitwise (· ^^^ ·) Bool.xor rfl (fun a b k => Nat.testBit_xor a b k)
      (toNat_lt_of_mem bytes) hneedle
    rw [List.length_map, h, List.map_map] at hxor
    rw [UInt64.toNat_xor, toNat_lane (by omega), hones]
    exact hxor
  have hand : (rowOf ds) &&& rowOf (List.replicate 8 127) = rowOf (ds.map (· &&& 127)) := by
    have hland := rowOf_bitwise (· &&& ·) and rfl (fun a b k => Nat.testBit_and a b k) hds
      (n := 127) (by omega)
    rwa [hlength] at hland
  have hsum : rowOf (ds.map (· &&& 127)) + rowOf (List.replicate 8 127) =
      rowOf (ds.map fun d => (d &&& 127) + 127) := by
    have hadd := rowOf_map_add (· &&& 127) ds 127
    rwa [hlength] at hadd
  have hdigits : ∀ d ∈ ds.map (fun d => (d &&& 127) + 127), d < 256 := by
    intro d hd
    obtain ⟨e, -, rfl⟩ := List.mem_map.1 hd
    have : e &&& 127 ≤ 127 := Nat.and_le_right
    omega
  have hlt := rowOf_lt hdigits
  rw [List.length_map, hlength, Nat.one_shiftLeft] at hlt
  have hj : k / 8 < ds.length := by omega
  have hj' : k / 8 < bytes.length := by omega
  have hdigit := highBit_digit (bytes[k / 8].toNat ^^^ needle.toNat)
    (Nat.xor_lt_two_pow (n := 8) bytes[k / 8].toNat_lt hneedle) (k % 8) (by omega)
  have hget : ds[k / 8] = bytes[k / 8].toNat ^^^ needle.toNat := List.getElem_map _
  have hzero : bytes[k / 8].toNat ^^^ needle.toNat = 0 ↔ bytes[k / 8] = needle := by
    rw [xor_eq_zero, UInt8.toNat_inj]
  simp only [equalBytes]
  rw [testBit_not hk, UInt64.toNat_or, UInt64.toNat_or, Nat.testBit_or, Nat.testBit_or,
    UInt64.toNat_add, UInt64.toNat_and, hx, hlow, hand, hsum, Nat.mod_eq_of_lt hlt,
    testBit_rowOf hdigits, testBit_rowOf hds, testBit_rowOf (by simp), getD_map _ hj,
    getD_replicate (by omega), List.getD_eq_getElem?_getD, List.getElem?_eq_getElem hj,
    List.getElem?_eq_getElem hj', hget]
  simp only [Option.getD_some, Option.some.injEq]
  rw [hdigit]
  simp only [hzero]

theorem lowestBit_eq_some_iff {width n i : Nat} :
    lowestBit width n = some i ↔ i < width ∧ n.testBit i = true ∧ ∀ j < i, n.testBit j = false := by
  rw [lowestBit, List.find?_range_eq_some]
  simp only [List.mem_range, Bool.not_eq_true']
  constructor
  · rintro ⟨htest, hlt, hbefore⟩
    exact ⟨hlt, htest, hbefore⟩
  · rintro ⟨hlt, htest, hbefore⟩
    exact ⟨htest, hlt, hbefore⟩

theorem lowestBit_eq_none_iff {width n : Nat} :
    lowestBit width n = none ↔ ∀ i < width, n.testBit i = false := by
  simp [lowestBit, List.find?_eq_none]

theorem firstInLane_eq {bytes : List UInt8} (h : bytes.length = 8) (needle : UInt8) :
    firstInLane needle bytes = bytes.findIdx? (· == needle) := by
  rw [firstInLane]
  cases hfound : bytes.findIdx? (· == needle) with
  | none =>
    rw [List.findIdx?_eq_none_iff] at hfound
    rw [Option.map_eq_none_iff, lowestBit_eq_none_iff]
    intro k hk
    rw [testBit_equalBytes h needle hk, decide_eq_false_iff_not]
    rintro ⟨-, hbyte⟩
    have := hfound _ (List.mem_of_getElem? hbyte)
    simp at this
  | some j =>
    obtain ⟨hj, hbyte, hbefore⟩ := List.findIdx?_eq_some_iff_getElem.1 hfound
    have hbyte : bytes[j] = needle := by simpa using hbyte
    rw [Option.map_eq_some_iff]
    refine ⟨8 * j + 7, lowestBit_eq_some_iff.2 ⟨by omega, ?_, fun k hk => ?_⟩, by omega⟩
    · rw [testBit_equalBytes h needle (by omega), decide_eq_true_eq]
      have hdiv : (8 * j + 7) / 8 = j := by omega
      exact ⟨by omega, by rw [hdiv, List.getElem?_eq_getElem hj, hbyte]⟩
    · rw [testBit_equalBytes h needle (by omega), decide_eq_false_iff_not]
      rintro ⟨hmod, hk'⟩
      obtain ⟨hlt, heq⟩ := List.getElem?_eq_some_iff.1 hk'
      have := hbefore (k / 8) (by omega)
      simp [heq] at this

theorem firstInLanes_eq {lanes : Nat} {window : List UInt8} (h : window.length = 8 * lanes)
    (needle : UInt8) : firstInLanes needle lanes window = window.findIdx? (· == needle) := by
  induction lanes generalizing window with
  | zero =>
    rw [List.length_eq_zero_iff.1 h]
    rfl
  | succ lanes ih =>
    have htake : (window.take 8).length = 8 := by rw [List.length_take]; omega
    have hdrop : (window.drop 8).length = 8 * lanes := by rw [List.length_drop]; omega
    rw [firstInLanes, firstInLane_eq htake, ih hdrop]
    conv => rhs; rw [← List.take_append_drop 8 window, List.findIdx?_append, htake]

theorem testBit_classMask (p : UInt8 → Bool) {bytes : List UInt8} (h : bytes.length ≤ 32) (k : Nat) :
    (classMask p bytes).toNat.testBit k = (bytes[k]?.any p) := by
  induction bytes generalizing k with
  | nil => simp [classMask]
  | cons b bs ih =>
    rw [List.length_cons] at h
    have hshift : (1 : UInt32).toNat % 32 = 1 := rfl
    have hbit : (if p b then (1 : UInt32) else 0).toNat.testBit k = (decide (k = 0) && p b) := by
      cases p b
      · simp
      · have hone : (1 : UInt32).toNat = 1 := rfl
        rw [if_pos rfl, hone, Bool.eq_iff_iff, Nat.testBit_one_eq_true_iff_self_eq_zero]
        simp
    rw [classMask, UInt32.toNat_or, UInt32.toNat_shiftLeft, Nat.testBit_or, hbit, hshift,
      Nat.testBit_mod_two_pow, Nat.testBit_shiftLeft]
    cases k with
    | zero => simp
    | succ k =>
      rw [Nat.add_sub_cancel, ih (by omega), List.getElem?_cons_succ]
      by_cases hk : k < bs.length
      · have : k + 1 < 32 := by omega
        simp [this]
      · simp [List.getElem?_eq_none (Nat.le_of_not_lt hk)]

theorem firstInClass_eq {window : List UInt8} (h : window.length = 32) (p : UInt8 → Bool) :
    lowestBit 32 (classMask p window).toNat = window.findIdx? p := by
  cases hfound : window.findIdx? p with
  | none =>
    rw [List.findIdx?_eq_none_iff] at hfound
    rw [lowestBit_eq_none_iff]
    intro k hk
    rw [testBit_classMask p (by omega), List.getElem?_eq_getElem (by omega)]
    exact hfound _ (List.getElem_mem _)
  | some j =>
    obtain ⟨hj, hbyte, hbefore⟩ := List.findIdx?_eq_some_iff_getElem.1 hfound
    refine lowestBit_eq_some_iff.2 ⟨by omega, ?_, fun k hk => ?_⟩
    · rw [testBit_classMask p (by omega), List.getElem?_eq_getElem hj]
      exact hbyte
    · rw [testBit_classMask p (by omega), List.getElem?_eq_getElem (by omega)]
      have := hbefore k hk
      simpa using this

theorem searchWindows_eq {inWindow : List UInt8 → Option Nat} {p : UInt8 → Bool}
    (h : ∀ window, window.length = 32 → inWindow window = window.findIdx? p) (bytes : List UInt8) :
    searchWindows inWindow bytes = bytes.findIdx? p := by
  induction bytes using searchWindows.induct inWindow with
  | case1 bytes hshort =>
    have hlength : bytes.length ≤ 31 := by
      have := congrArg List.length hshort
      rw [List.length_drop, List.length_nil] at this
      omega
    rw [searchWindows, if_pos hshort, h _ (by rw [List.length_append, List.length_replicate]; omega),
      List.findIdx?_append]
    cases hfound : bytes.findIdx? p with
    | some i =>
      have hi := (List.findIdx?_eq_some_iff_getElem.1 hfound).1
      simp [hi]
    | none =>
      rw [Option.none_or, Option.filter_eq_none_iff]
      intro i hi
      obtain ⟨j, -, rfl⟩ := Option.map_eq_some_iff.1 hi
      simp
  | case2 bytes hlong i hi =>
    have hlength : 32 ≤ bytes.length := by
      refine Nat.lt_of_not_le fun hle => hlong (List.drop_eq_nil_of_le hle)
    have htake : (bytes.take 32).length = 32 := by rw [List.length_take]; omega
    rw [searchWindows, if_neg hlong, hi]
    rw [h _ htake] at hi
    conv => rhs; rw [← List.take_append_drop 32 bytes, List.findIdx?_append, hi]
    rfl
  | case3 bytes hlong hnone ih =>
    have hlength : 32 ≤ bytes.length := by
      refine Nat.lt_of_not_le fun hle => hlong (List.drop_eq_nil_of_le hle)
    have htake : (bytes.take 32).length = 32 := by rw [List.length_take]; omega
    rw [searchWindows, if_neg hlong, hnone, ih]
    rw [h _ htake] at hnone
    conv => rhs; rw [← List.take_append_drop 32 bytes, List.findIdx?_append, hnone, htake]
    rfl

theorem findByte_eq (bytes : List UInt8) (start : Nat) (needle : UInt8) :
    findByte bytes start needle = ((bytes.drop start).findIdx? (· == needle)).map (· + start) := by
  have hwindow (window : List UInt8) (h : window.length = 32) :
      firstInLanes needle 4 window = window.findIdx? (· == needle) :=
    firstInLanes_eq h needle
  rw [findByte, searchWindows_eq hwindow]

theorem findClass_eq (bytes : List UInt8) (start : Nat) (p : UInt8 → Bool) :
    findClass bytes start p = ((bytes.drop start).findIdx? p).map (· + start) := by
  rw [findClass, searchWindows_eq fun window h => firstInClass_eq h p]

section Steps

variable {bytes : List UInt8} {start i : Nat}

theorem findUnescaped_of_some {quote : UInt8} (h : findByte bytes start quote = some i) :
    findUnescaped bytes start quote =
      if backslashesBefore bytes i % 2 == 0 then some i else findUnescaped bytes (i + 1) quote := by
  rw [findUnescaped]
  split <;> simp_all

theorem lineEnd_of_some (h : findByte bytes start lineFeed = some i) :
    lineEnd bytes start = if lineFeedEscaped bytes i then lineEnd bytes (i + 1) else i + 1 := by
  rw [lineEnd]
  split <;> simp_all

theorem commentEnd_of_some (h : findByte bytes start star = some i) :
    commentEnd bytes start =
      if bytes[i + 1]? == some slash then some (i + 2) else commentEnd bytes (i + 1) := by
  rw [commentEnd]
  split <;> simp_all

theorem nameEnd_of_some (h : findClass bytes start (fun b => !isNameByte b) = some i) :
    nameEnd bytes start = if joinsAt bytes i then nameEnd bytes (i + 2) else i := by
  rw [nameEnd]
  split <;> simp_all

end Steps

end ReflectionTables.ByteSearch
