import ReflectionTables.Proofs.SearchWindows
/-!
# Searches in windows answer as scalar searches

The searches in windows answer as the searches that look at one index at a time. A window finds the
first hit, and where a hit does not count, the search goes on behind it, so no index is left out and
none is looked at twice.
-/

namespace ReflectionTables.ByteSearch

namespace Scalar

variable {bytes : List UInt8} {start mid i : Nat} {p : Nat → Bool}

theorem firstIndex_eq_some_iff : firstIndex bytes start p = some i ↔
    (start ≤ i ∧ i < bytes.length) ∧ p i = true ∧ ∀ j, start ≤ j → j < i → p j = false := by
  rw [firstIndex, List.find?_range'_eq_some]
  simp only [List.mem_range'_1, Bool.not_eq_true']
  constructor
  · rintro ⟨hhit, hrange, hbefore⟩
    exact ⟨by omega, hhit, hbefore⟩
  · rintro ⟨hrange, hhit, hbefore⟩
    exact ⟨hhit, by omega, hbefore⟩

theorem firstIndex_eq_none_iff :
    firstIndex bytes start p = none ↔ ∀ i, start ≤ i → i < bytes.length → p i = false := by
  rw [firstIndex, List.find?_eq_none]
  simp only [List.mem_range'_1, Bool.not_eq_true]
  constructor
  · intro h i hstart hlt
    exact h i (by omega)
  · intro h i hrange
    exact h i hrange.1 (by omega)

/-- A stretch without a hit can be left out. -/
theorem firstIndex_of_skip (hle : start ≤ mid) (hnone : ∀ i, start ≤ i → i < mid → p i = false) :
    firstIndex bytes start p = firstIndex bytes mid p := by
  cases hfound : firstIndex bytes mid p with
  | none =>
    rw [firstIndex_eq_none_iff] at hfound ⊢
    intro i hstart hlt
    by_cases hi : i < mid
    · exact hnone i hstart hi
    · exact hfound i (by omega) hlt
  | some j =>
    rw [firstIndex_eq_some_iff] at hfound ⊢
    obtain ⟨⟨hmid, hlt⟩, hhit, hbefore⟩ := hfound
    refine ⟨⟨by omega, hlt⟩, hhit, fun i hstart hi => ?_⟩
    by_cases hskipped : i < mid
    · exact hnone i hstart hskipped
    · exact hbefore i (by omega) hi

end Scalar

open Scalar (firstIndex firstIndex_eq_some_iff firstIndex_eq_none_iff firstIndex_of_skip)

variable {bytes : List UInt8} {start i : Nat}

/-- A search that finds an index of the rest of the bytes finds the first index from there on. -/
private theorem map_findIdx?_drop (q : UInt8 → Bool) :
    ((bytes.drop start).findIdx? q).map (· + start) = firstIndex bytes start fun i => bytes[i]?.any q := by
  cases hfound : (bytes.drop start).findIdx? q with
  | none =>
    rw [List.findIdx?_eq_none_iff] at hfound
    rw [Option.map_none, eq_comm, firstIndex_eq_none_iff]
    intro i hstart hlt
    rw [List.getElem?_eq_getElem hlt]
    refine hfound _ (List.mem_drop_iff_getElem.2 ⟨i - start, by omega, ?_⟩)
    congr 1
    omega
  | some j =>
    obtain ⟨hj, hhit, hbefore⟩ := List.findIdx?_eq_some_iff_getElem.1 hfound
    rw [List.length_drop] at hj
    rw [Option.map_some, eq_comm, firstIndex_eq_some_iff]
    refine ⟨by omega, ?_, fun i hstart hi => ?_⟩
    · rw [List.getElem_drop] at hhit
      rw [Nat.add_comm, List.getElem?_eq_getElem (by omega)]
      exact hhit
    · have hmiss := hbefore (i - start) (by omega)
      have hindex : start + (i - start) = i := by omega
      simp only [List.getElem_drop, hindex, Bool.not_eq_true] at hmiss
      rw [List.getElem?_eq_getElem (by omega)]
      exact hmiss

/-- The search for a byte in lanes finds the first index that holds it. -/
theorem findByte_eq_firstIndex (bytes : List UInt8) (start : Nat) (needle : UInt8) :
    findByte bytes start needle = firstIndex bytes start fun i => bytes[i]? == some needle := by
  have hholds (b? : Option UInt8) : b?.any (· == needle) = (b? == some needle) := by
    cases b? <;> rfl
  rw [findByte_eq, map_findIdx?_drop]
  simp only [hholds]

theorem findClass_eq_firstIndex (bytes : List UInt8) (start : Nat) (q : UInt8 → Bool) :
    findClass bytes start q = firstIndex bytes start fun i => bytes[i]?.any q := by
  rw [findClass_eq, map_findIdx?_drop]

theorem findByte_eq_some_iff {needle : UInt8} : findByte bytes start needle = some i ↔
    (start ≤ i ∧ i < bytes.length) ∧ bytes[i]? = some needle ∧
      ∀ j, start ≤ j → j < i → bytes[j]? ≠ some needle := by
  simp only [findByte_eq_firstIndex, firstIndex_eq_some_iff, beq_iff_eq, beq_eq_false_iff_ne]

theorem findByte_eq_none_iff {needle : UInt8} : findByte bytes start needle = none ↔
    ∀ i, start ≤ i → i < bytes.length → bytes[i]? ≠ some needle := by
  simp only [findByte_eq_firstIndex, firstIndex_eq_none_iff, beq_eq_false_iff_ne]

theorem firstIndex_and {needle : UInt8} (counts : Nat → Bool) :
    (firstIndex bytes start fun i => bytes[i]? == some needle && counts i) =
      match findByte bytes start needle with
      | none => none
      | some i =>
        if counts i then some i
        else firstIndex bytes (i + 1) fun i => bytes[i]? == some needle && counts i := by
  cases hfound : findByte bytes start needle with
  | none =>
    rw [findByte_eq_none_iff] at hfound
    rw [firstIndex_eq_none_iff]
    intro i hstart hlt
    simp [hfound i hstart hlt]
  | some i =>
    obtain ⟨hrange, hneedle, hbefore⟩ := findByte_eq_some_iff.1 hfound
    by_cases hcounts : counts i = true
    · simp only [hcounts, if_true]
      rw [firstIndex_eq_some_iff]
      refine ⟨hrange, by simp [hneedle, hcounts], fun j hstart hj => ?_⟩
      simp [hbefore j hstart hj]
    · simp only [hcounts, Bool.false_eq_true, if_false]
      refine firstIndex_of_skip (by omega) fun j hstart hj => ?_
      by_cases heq : j = i
      · simp [heq, hcounts]
      · simp [hbefore j hstart (by omega)]

theorem findUnescaped_eq_scalar (bytes : List UInt8) (start : Nat) (quote : UInt8) :
    findUnescaped bytes start quote = Scalar.findUnescaped bytes start quote := by
  fun_induction findUnescaped bytes start quote with
  | case1 start hnone => rw [Scalar.findUnescaped, firstIndex_and, hnone]
  | case2 start i hfound heven => rw [Scalar.findUnescaped, firstIndex_and, hfound]; simp [heven]
  | case3 start i hfound hodd ih =>
    rw [Scalar.findUnescaped, firstIndex_and, hfound, ih, Scalar.findUnescaped]
    simp [hodd]

theorem lineEnd_eq_scalar (bytes : List UInt8) (start : Nat) :
    lineEnd bytes start = Scalar.lineEnd bytes start := by
  fun_induction lineEnd bytes start with
  | case1 start hnone => rw [Scalar.lineEnd, firstIndex_and, hnone]
  | case2 start i hfound hescaped ih =>
    rw [Scalar.lineEnd, firstIndex_and, hfound, ih, Scalar.lineEnd]
    simp [hescaped]
  | case3 start i hfound hends => rw [Scalar.lineEnd, firstIndex_and, hfound]; simp [hends]

theorem commentEnd_eq_scalar (bytes : List UInt8) (start : Nat) :
    commentEnd bytes start = Scalar.commentEnd bytes start := by
  fun_induction commentEnd bytes start with
  | case1 start hnone => rw [Scalar.commentEnd, firstIndex_and, hnone]; rfl
  | case2 start i hfound hslash => rw [Scalar.commentEnd, firstIndex_and, hfound]; simp [hslash]
  | case3 start i hfound hother ih =>
    rw [Scalar.commentEnd, firstIndex_and, hfound, ih, Scalar.commentEnd]
    simp [hother]

namespace Scalar

theorem nameEnd_of_nameByte (hlt : i < bytes.length) (h : isNameByte bytes[i] = true) :
    nameEnd bytes i = nameEnd bytes (i + 1) := by
  rw [nameEnd, dif_pos hlt, if_pos h]

theorem nameEnd_of_other (hlt : i < bytes.length) (h : isNameByte bytes[i] = false) :
    nameEnd bytes i = if joinsAt bytes i then nameEnd bytes (i + 2) else i := by
  rw [nameEnd, dif_pos hlt, if_neg (by simp [h])]

theorem nameEnd_length (bytes : List UInt8) : nameEnd bytes bytes.length = bytes.length := by
  rw [nameEnd, dif_neg (Nat.lt_irrefl _)]

theorem nameEnd_of_run {stop : Nat} (hle : start ≤ stop) (hstop : stop ≤ bytes.length)
    (h : ∀ i, start ≤ i → i < stop → bytes[i]?.any (!isNameByte ·) = false) :
    nameEnd bytes start = nameEnd bytes stop := by
  obtain ⟨n, rfl⟩ := Nat.exists_eq_add_of_le hle
  induction n with
  | zero => rfl
  | succ n ih =>
    have hbyte := h (start + n) (by omega) (by omega)
    rw [List.getElem?_eq_getElem (by omega)] at hbyte
    rw [ih (by omega) (by omega) fun i hstart hi => h i hstart (by omega)]
    exact nameEnd_of_nameByte (by omega) (by simpa using hbyte)

end Scalar

theorem nameEnd_eq_scalar (h : start ≤ bytes.length) :
    nameEnd bytes start = Scalar.nameEnd bytes start := by
  fun_induction nameEnd bytes start with
  | case1 start hnone =>
    rw [findClass_eq_firstIndex, firstIndex_eq_none_iff] at hnone
    rw [Scalar.nameEnd_of_run h (Nat.le_refl _) hnone, Scalar.nameEnd_length]
  | case2 start i hfound hjoins ih =>
    rw [findClass_eq_firstIndex, firstIndex_eq_some_iff] at hfound
    obtain ⟨⟨hle, hlt⟩, hother, hbefore⟩ := hfound
    rw [List.getElem?_eq_getElem hlt] at hother
    have hbound : i + 2 ≤ bytes.length := by
      simp only [joinsAt, Bool.and_eq_true, beq_iff_eq] at hjoins
      have := (List.getElem?_eq_some_iff.1 hjoins.1.2).1
      omega
    rw [Scalar.nameEnd_of_run hle (by omega) hbefore, Scalar.nameEnd_of_other hlt (by simpa using hother),
      if_pos hjoins, ih hbound]
  | case3 start i hfound hends =>
    rw [findClass_eq_firstIndex, firstIndex_eq_some_iff] at hfound
    obtain ⟨⟨hle, hlt⟩, hother, hbefore⟩ := hfound
    rw [List.getElem?_eq_getElem hlt] at hother
    rw [Scalar.nameEnd_of_run hle (by omega) hbefore, Scalar.nameEnd_of_other hlt (by simpa using hother),
      if_neg hends]

/-- From every index of the bytes on, the search in lanes finds the first index that holds the byte, and
the searches that are made of such searches find what one finds index by index. -/
theorem searches_eq_scalar (h : start ≤ bytes.length) :
    (∀ needle, findByte bytes start needle =
        firstIndex bytes start fun i => bytes[i]? == some needle) ∧
      (∀ quote, findUnescaped bytes start quote = Scalar.findUnescaped bytes start quote) ∧
      lineEnd bytes start = Scalar.lineEnd bytes start ∧
      commentEnd bytes start = Scalar.commentEnd bytes start ∧
      nameEnd bytes start = Scalar.nameEnd bytes start :=
  ⟨findByte_eq_firstIndex bytes start, findUnescaped_eq_scalar bytes start, lineEnd_eq_scalar bytes start,
    commentEnd_eq_scalar bytes start, nameEnd_eq_scalar h⟩

/-- A quote behind a backslash at the edge of a window, and one behind it, among bytes that differ from a
quote in the high bit only. -/
theorem searches_eq_scalar_across_windows :
    let bytes : List UInt8 := List.replicate 31 0xa2 ++ [backslash, 0x22, 0xa2, 0x22]
    3 ≤ bytes.length ∧ findByte bytes 3 0x22 = some 32 ∧ findUnescaped bytes 3 0x22 = some 34 ∧
      lineEnd bytes 3 = 35 ∧ commentEnd bytes 3 = none := by
  intro bytes
  have hstart : 3 ≤ bytes.length := by decide
  obtain ⟨hbyte, hquote, hline, hcomment, -⟩ := searches_eq_scalar hstart
  rw [hbyte, hquote, hline, hcomment]
  decide

end ReflectionTables.ByteSearch
