import ReflectionTables.Proofs.AggregateLines
/-!
# Lines and columns

A location names the line in which an offset lies, and the column tells how many bytes of that line
come before it. So a later offset has a later location, the offset can be computed from the lines in
front of it and the column, and all offsets behind a text have the location of its end.
-/

namespace ReflectionTables.Text

open Generation (linesOf linesOf_cons unlines unlines_cons)

variable {text line rest : String} {lines : List String} {m n : Nat}

theorem Location.ofOffset_of_size_le (h : text.utf8ByteSize ≤ n) :
    ofOffset text n = ofOffset text text.utf8ByteSize := by
  rw [← length_bytesOf] at h ⊢
  rw [ofOffset, ofOffset, List.take_of_length_le h, List.take_length]

theorem Location.ofOffset_before (hlt : m < n) (hle : n ≤ text.utf8ByteSize) :
    (ofOffset text m).Before (ofOffset text n) := by
  obtain ⟨between, hbetween, hlength⟩ : ∃ between,
      (bytesOf text).take n = (bytesOf text).take m ++ between ∧ between.length = n - m := by
    refine ⟨((bytesOf text).drop m).take (n - m), ?_, ?_⟩
    · rw [← List.take_add, Nat.add_sub_cancel' (Nat.le_of_lt hlt)]
    · rw [List.length_take, List.length_drop, length_bytesOf]
      omega
  simp only [Before, ofOffset, hbetween, List.count_append]
  by_cases hfeed : newline ∈ between
  · have := List.count_pos_iff.mpr hfeed
    exact .inl (by omega)
  · rw [takeWhile_reverse_append hfeed, List.count_eq_zero.mpr hfeed, List.length_append,
      List.length_reverse, hlength]
    exact .inr ⟨rfl, by omega⟩

theorem newline_not_mem_bytesOf (h : OneLine line) : newline ∉ bytesOf line := by
  intro hmem
  rw [bytesOf_eq] at hmem
  obtain ⟨c, hc, hcode⟩ := exists_of_mem_charBytes hmem (by decide)
  have hfeed : c = '\n' := Char.toNat_inj.mp hcode
  exact h (hfeed ▸ hc)

theorem linesOf_of_oneLine (h : OneLine line) : linesOf line = [line] := by
  rw [linesOf, List.splitOn_eq_singleton h, List.map_singleton, String.ofList_toList]

theorem induction_on_lines {motive : String → Prop} (last : ∀ line, OneLine line → motive line)
    (more : ∀ line rest, OneLine line → motive rest → motive (line ++ "\n" ++ rest)) (text : String) :
    motive text := by
  induction hsize : text.length using Nat.strongRecOn generalizing text with
  | ind size ih =>
    by_cases hone : OneLine text
    · exact last text hone
    obtain ⟨line, rest, htext, hline⟩ := List.eq_append_cons_of_mem (not_not.mp hone)
    obtain rfl : text = .ofList line ++ "\n" ++ .ofList rest := by
      rw [← String.toList_inj]
      simp [htext]
    refine more _ _ (by rwa [OneLine, String.toList_ofList]) (ih _ ?_ _ rfl)
    have hbreak : "\n".length = 1 := rfl
    simp only [String.length_append, hbreak] at hsize
    omega

def sizeOfLines (text : String) (count : Nat) : Nat :=
  (unlines ((linesOf text).take count)).utf8ByteSize

/-- The offset at a location: the lines in front of it and the bytes in front of its column. -/
def Location.offsetIn (l : Location) (text : String) : Nat :=
  sizeOfLines text (l.line - 1) + (l.column - 1)

/-- Whether a text has a line with such a column. The place behind the last byte of a line is one. -/
def Location.LiesIn (l : Location) (text : String) : Prop :=
  1 ≤ l.line ∧ 1 ≤ l.column ∧
    ∃ line, (linesOf text)[l.line - 1]? = some line ∧ l.column ≤ line.utf8ByteSize + 1

/-- Up to the first line break the column alone grows. -/
theorem Location.ofOffset_of_first (h : OneLine line) (hn : n ≤ line.utf8ByteSize) (rest : String) :
    ofOffset (line ++ rest) n = ⟨1, n + 1⟩ := by
  have hbefore : (bytesOf (line ++ rest)).take n = (bytesOf line).take n := by
    rw [bytesOf_append, List.take_append_of_le_length (by rwa [length_bytesOf])]
  have hfeed : newline ∉ (bytesOf line).take n :=
    fun hmem => newline_not_mem_bytesOf h (List.mem_of_mem_take hmem)
  have hcolumn := takeWhile_reverse_append hfeed []
  rw [List.nil_append] at hcolumn
  rw [ofOffset, hbefore]
  simp only [hcolumn, List.count_eq_zero.mpr hfeed]
  simp [hn]

theorem Location.ofOffset_of_break (h : OneLine line) :
    ofOffset (line ++ "\n") (line ++ "\n").utf8ByteSize = ⟨2, 1⟩ := by
  have hbytes : bytesOf (line ++ "\n") = bytesOf line ++ [newline] := bytesOf_append line "\n"
  rw [ofOffset, ← length_bytesOf, List.take_length, hbytes, List.count_append,
    List.count_eq_zero.mpr (newline_not_mem_bytesOf h), List.reverse_append]
  rfl

/-- Behind a line break all is as in the rest, one line further down. -/
theorem Location.ofOffset_of_rest (h : OneLine line) (rest : String) (n : Nat) :
    ofOffset (line ++ "\n" ++ rest) (n + (line.utf8ByteSize + 1)) =
      ⟨(ofOffset rest n).line + 1, (ofOffset rest n).column⟩ := by
  have hsize : line.utf8ByteSize + 1 = (line ++ "\n").utf8ByteSize :=
    (String.utf8ByteSize_append (s := line) (t := "\n")).symm
  rw [hsize, ofOffset_append, behind, ofOffset_of_break h]
  dsimp only
  congr 1
  · omega
  · split
    · omega
    · rfl

theorem Location.offsetIn_of_first (hlines : linesOf text = line :: lines) (hn : n ≤ line.utf8ByteSize) :
    LiesIn ⟨1, n + 1⟩ text ∧ offsetIn ⟨1, n + 1⟩ text = n := by
  refine ⟨⟨Nat.le_refl 1, Nat.le_add_left 1 n, line, ?_, Nat.succ_le_succ hn⟩, ?_⟩
  · rw [hlines]
    rfl
  · simp [offsetIn, sizeOfLines, unlines]

/-- A location is found again behind one more line, and its offset behind the bytes of that line. -/
theorem Location.LiesIn.behind_line {l : Location} (h : l.LiesIn rest) (hone : OneLine line) :
    LiesIn ⟨l.line + 1, l.column⟩ (line ++ "\n" ++ rest) ∧
      offsetIn ⟨l.line + 1, l.column⟩ (line ++ "\n" ++ rest) =
        l.offsetIn rest + (line.utf8ByteSize + 1) := by
  obtain ⟨hline, hcolumn, found, hfound, hle⟩ := h
  obtain ⟨k, hk⟩ := Nat.exists_eq_add_of_le' hline
  rw [hk, Nat.add_sub_cancel] at hfound
  refine ⟨⟨Nat.le_add_left 1 _, hcolumn, found, ?_, hle⟩, ?_⟩
  · rw [linesOf_cons hone, Nat.add_sub_cancel, hk, List.getElem?_cons_succ, hfound]
  · have hbreak : "\n".utf8ByteSize = 1 := rfl
    simp only [offsetIn, sizeOfLines, linesOf_cons hone, hk, Nat.add_sub_cancel, List.take_succ_cons,
      unlines_cons, String.utf8ByteSize_append, hbreak]
    omega

/-- An offset lies in the line that its location names, and can be computed from it. -/
theorem Location.offsetIn_ofOffset (h : n ≤ text.utf8ByteSize) :
    (ofOffset text n).LiesIn text ∧ (ofOffset text n).offsetIn text = n := by
  induction text using induction_on_lines generalizing n with
  | last line hone =>
    have hlocation := ofOffset_of_first hone h ""
    rw [String.append_empty] at hlocation
    rw [hlocation]
    exact offsetIn_of_first (linesOf_of_oneLine hone) h
  | more line rest hone ih =>
    by_cases hn : n ≤ line.utf8ByteSize
    · rw [String.append_assoc, ofOffset_of_first hone hn, ← String.append_assoc]
      exact offsetIn_of_first (linesOf_cons hone rest) hn
    obtain ⟨k, rfl⟩ := Nat.exists_eq_add_of_le' (Nat.lt_of_not_le hn)
    have hk : k ≤ rest.utf8ByteSize := by
      have hbreak : "\n".utf8ByteSize = 1 := rfl
      simp only [String.utf8ByteSize_append, hbreak] at h
      omega
    obtain ⟨hlies, hoffset⟩ := ih hk
    obtain ⟨hlies', hoffset'⟩ := hlies.behind_line hone
    rw [ofOffset_of_rest hone]
    exact ⟨hlies', by rw [hoffset', hoffset]⟩

example : Location.offsetIn ⟨3, 2⟩ "é\n\nab" = 5 := by decide +kernel

end ReflectionTables.Text
