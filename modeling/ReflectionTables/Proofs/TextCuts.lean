import ReflectionTables.TextSlices
/-!
# Which cuts of a text exist

Which cuts of a text exist and what they hold. A cut between two boundaries is made of the bytes
between them, so cuts of a joined text are cuts of its parts. The locations of its second part lie
behind the first one.
-/

namespace ReflectionTables.Text

/-- Whether an offset is between characters, or at an end of the text. -/
def IsBoundary (text : String) (offset : Nat) : Prop := String.Pos.Raw.IsValid text ⟨offset⟩

variable {text piece : String} {start stop : Nat}

theorem isBoundary_size (text : String) : IsBoundary text text.utf8ByteSize :=
  String.Pos.Raw.isValid_rawEndPos

theorem IsBoundary.le_size (h : IsBoundary text start) : start ≤ text.utf8ByteSize :=
  String.Pos.Raw.IsValid.le_utf8ByteSize h

theorem bytesOf_injective {a b : String} (h : bytesOf a = bytesOf b) : a = b := by
  apply String.toByteArray_inj.1
  exact ByteArray.ext (Array.toList_inj.1 h)

@[simp] theorem length_bytesOf (text : String) : (bytesOf text).length = text.utf8ByteSize := rfl

@[simp] theorem bytesOf_append (a b : String) : bytesOf (a ++ b) = bytesOf a ++ bytesOf b := by
  simp [bytesOf]

theorem bytesOf_extract (p q : text.Pos) :
    bytesOf (text.extract p q) = ((bytesOf text).take q.offset.byteIdx).drop p.offset.byteIdx := by
  simp only [bytesOf, String.toByteArray_extract, ByteArray.data_extract, Array.toList_extract]
  rw [List.drop_take]

theorem pos?_eq_some (h : IsBoundary text start) : text.pos? ⟨start⟩ = some ⟨⟨start⟩, h⟩ := by
  have hvalid : String.Pos.Raw.isValidForSlice text.toSlice ⟨start⟩ = true :=
    String.Pos.Raw.isValidForSlice_eq_true_iff.2 h.toSlice
  simp only [String.pos?, String.Slice.pos?, hvalid, dite_true]
  rfl

theorem isBoundary_of_pos? {p : text.Pos} (h : text.pos? ⟨start⟩ = some p) :
    IsBoundary text start := by
  obtain ⟨q, hq, -⟩ := Option.map_eq_some_iff.1 h
  simp only [String.Slice.pos?] at hq
  split at hq
  · rename_i hvalid
    exact String.Pos.Raw.isValidForSlice_toSlice_iff.1
      (String.Pos.Raw.isValidForSlice_eq_true_iff.1 hvalid)
  · cases hq

theorem slice?_eq_some_iff : slice? text start stop = some piece ↔
    start ≤ stop ∧ IsBoundary text start ∧ IsBoundary text stop ∧
      bytesOf piece = ((bytesOf text).take stop).drop start := by
  constructor
  · intro h
    simp only [slice?, Option.bind_eq_bind, Option.bind_eq_some_iff] at h
    obtain ⟨p, hp, q, hq, h⟩ := h
    have hstart := isBoundary_of_pos? hp
    have hstop := isBoundary_of_pos? hq
    rw [pos?_eq_some hstart, Option.some.injEq] at hp
    rw [pos?_eq_some hstop, Option.some.injEq] at hq
    subst hp hq
    split at h
    · rename_i hle
      cases h
      exact ⟨hle, hstart, hstop, bytesOf_extract _ _⟩
    · cases h
  · rintro ⟨hle, hstart, hstop, hbytes⟩
    have hle' : (⟨⟨start⟩, hstart⟩ : text.Pos) ≤ ⟨⟨stop⟩, hstop⟩ := hle
    simp only [slice?, pos?_eq_some hstart, pos?_eq_some hstop, Option.bind_eq_bind,
      Option.bind_some, if_pos hle', Option.some.injEq]
    exact bytesOf_injective ((bytesOf_extract _ _).trans hbytes.symm)

theorem slice?_ne_none_iff : slice? text start stop ≠ none ↔
    start ≤ stop ∧ IsBoundary text start ∧ IsBoundary text stop := by
  rw [Option.ne_none_iff_exists']
  constructor
  · rintro ⟨piece, h⟩
    obtain ⟨hle, hstart, hstop, -⟩ := slice?_eq_some_iff.1 h
    exact ⟨hle, hstart, hstop⟩
  · rintro ⟨hle, hstart, hstop⟩
    exact ⟨_, slice?_eq_some_iff.2 ⟨hle, hstart, hstop,
      bytesOf_extract ⟨⟨start⟩, hstart⟩ ⟨⟨stop⟩, hstop⟩⟩⟩

theorem size_of_slice? (h : slice? text start stop = some piece) :
    piece.utf8ByteSize = stop - start := by
  obtain ⟨-, -, hstop, hbytes⟩ := slice?_eq_some_iff.1 h
  have hle := hstop.le_size
  rw [← length_bytesOf, hbytes, List.length_drop, List.length_take, length_bytesOf]
  omega

section Append

variable {a b : String} {offset : Nat}

theorem isBoundary_append_left (h : offset ≤ a.utf8ByteSize) :
    IsBoundary (a ++ b) offset ↔ IsBoundary a offset := by
  constructor
  · intro hab
    rcases String.Pos.Raw.isValid_append.1 hab with ha | ⟨hge, -⟩
    · exact ha
    · have : offset = a.utf8ByteSize := Nat.le_antisymm h hge
      rw [this]
      exact isBoundary_size a
  · exact fun ha => String.Pos.Raw.IsValid.append_right ha b

@[simp] theorem isBoundary_append_right :
    IsBoundary (a ++ b) (a.utf8ByteSize + offset) ↔ IsBoundary b offset := by
  have hsub : (⟨a.utf8ByteSize + offset⟩ : String.Pos.Raw) - a = ⟨offset⟩ := by
    simp [String.Pos.Raw.ext_iff]
  constructor
  · intro hab
    rcases String.Pos.Raw.isValid_append.1 hab with ha | ⟨-, hb⟩
    · have := IsBoundary.le_size ha
      have hzero : offset = 0 := by omega
      rw [hzero]
      exact String.Pos.Raw.isValid_zero
    · rwa [hsub] at hb
  · intro hb
    exact String.Pos.Raw.IsValid.append_left hb a

/-- A cut of a joined text that ends in the first part is a cut of that part. -/
theorem slice?_append_left (h : stop ≤ a.utf8ByteSize) :
    slice? (a ++ b) start stop = slice? a start stop := by
  apply Option.ext
  intro piece
  rw [slice?_eq_some_iff, slice?_eq_some_iff]
  refine and_congr_right fun hle => ?_
  rw [isBoundary_append_left (Nat.le_trans hle h), isBoundary_append_left h, bytesOf_append,
    List.take_append_of_le_length (by rwa [length_bytesOf])]

/-- A cut of a joined text that begins in the second part is a cut of that part. -/
@[simp] theorem slice?_append_right :
    slice? (a ++ b) (a.utf8ByteSize + start) (a.utf8ByteSize + stop) = slice? b start stop := by
  apply Option.ext
  intro piece
  rw [slice?_eq_some_iff, slice?_eq_some_iff, isBoundary_append_right, isBoundary_append_right,
    Nat.add_le_add_iff_left, bytesOf_append, ← length_bytesOf a, List.take_length_add_append,
    List.drop_length_add_append]

theorem IsBoundary.exists_append (h : IsBoundary text start) :
    ∃ a b, text = a ++ b ∧ a.utf8ByteSize = start := by
  obtain ⟨a, b, hstart, hab⟩ := String.Pos.Raw.IsValid.exists h
  refine ⟨.ofList a, .ofList b, ?_, ?_⟩
  · rw [← hab, String.ofList_append]
  · have hsize := congrArg ByteArray.size hstart
    have hle := h.le_size
    simp only [ByteArray.size_extract, String.size_toByteArray] at hsize
    rw [← String.size_toByteArray, String.toByteArray_ofList, hsize]
    omega

theorem exists_append_of_slice? (h : slice? text start stop = some piece) :
    ∃ a b, text = a ++ (piece ++ b) ∧ a.utf8ByteSize = start := by
  obtain ⟨hle, hstart, hstop, hbytes⟩ := slice?_eq_some_iff.1 h
  obtain ⟨a, rest, rfl, ha⟩ := hstart.exists_append
  obtain ⟨n, rfl⟩ := Nat.exists_eq_add_of_le hle
  rw [← ha] at hstop hbytes
  obtain ⟨p, b, rfl, hp⟩ := (isBoundary_append_right.1 hstop).exists_append
  refine ⟨a, b, ?_, ha⟩
  rw [bytesOf_append, ← length_bytesOf a, List.take_length_add_append, List.drop_left, bytesOf_append,
    ← hp, ← length_bytesOf p, List.take_left] at hbytes
  rw [bytesOf_injective hbytes]

/-- A cut that begins where another one ends goes on from it. -/
theorem slice?_of_adjacent {stop' : Nat} {piece' : String} (h : slice? text start stop = some piece)
    (h' : slice? text stop stop' = some piece') : slice? text start stop' = some (piece ++ piece') := by
  obtain ⟨hle, hstart, -, hbytes⟩ := slice?_eq_some_iff.1 h
  obtain ⟨hle', -, hstop', hbytes'⟩ := slice?_eq_some_iff.1 h'
  refine slice?_eq_some_iff.2 ⟨Nat.le_trans hle hle', hstart, hstop', ?_⟩
  obtain ⟨n, rfl⟩ := Nat.exists_eq_add_of_le hle
  obtain ⟨m, rfl⟩ := Nat.exists_eq_add_of_le hle'
  rw [bytesOf_append, hbytes, hbytes', List.drop_take, List.drop_take, List.drop_take, ← List.drop_drop,
    Nat.add_sub_cancel_left, Nat.add_sub_cancel_left, Nat.add_assoc, Nat.add_sub_cancel_left,
    List.take_add]

@[simp] theorem slice?_middle (a piece b : String) : slice? (a ++ (piece ++ b)) a.utf8ByteSize
    (a.utf8ByteSize + piece.utf8ByteSize) = some piece := by
  have hwhole : slice? piece 0 piece.utf8ByteSize = some piece := slice?_eq_some_iff.2
    ⟨Nat.zero_le _, String.Pos.Raw.isValid_zero, isBoundary_size piece, by
      rw [List.drop_zero, ← length_bytesOf, List.take_length]⟩
  have hcut : slice? (a ++ (piece ++ b)) (a.utf8ByteSize + 0) (a.utf8ByteSize + piece.utf8ByteSize) =
      slice? (piece ++ b) 0 piece.utf8ByteSize := slice?_append_right
  rw [Nat.add_zero] at hcut
  rw [hcut, slice?_append_left (Nat.le_refl _), hwhole]

@[simp] theorem charAt?_of_append (u v : String) : charAt? (u ++ v) u.utf8ByteSize = v.toList.head? := by
  have hboundary : IsBoundary (u ++ v) u.utf8ByteSize :=
    (isBoundary_append_left (Nat.le_refl _)).2 (isBoundary_size u)
  have hsplits : (⟨⟨u.utf8ByteSize⟩, hboundary⟩ : (u ++ v).Pos).Splits u v :=
    ⟨rfl, rfl⟩
  rw [charAt?, pos?_eq_some hboundary, Option.bind_some]
  by_cases hend : (⟨⟨u.utf8ByteSize⟩, hboundary⟩ : (u ++ v).Pos) = (u ++ v).endPos
  · have hv : v = "" := hsplits.eq_endPos_iff.1 hend
    rw [String.Pos.get?_eq_none hend, hv]
    rfl
  · obtain ⟨rest, hv⟩ := hsplits.exists_eq_singleton_append hend
    rw [String.Pos.get?_eq_some_get hend]
    conv => rhs; rw [hv, String.toList_append]
    simp

@[simp] theorem charAt?_append_right : charAt? (a ++ b) (a.utf8ByteSize + offset) = charAt? b offset := by
  by_cases hboundary : IsBoundary b offset
  · obtain ⟨u, v, rfl, rfl⟩ := hboundary.exists_append
    rw [charAt?_of_append, ← String.append_assoc, ← String.utf8ByteSize_append, charAt?_of_append]
  · have hnone : b.pos? ⟨offset⟩ = none :=
      Option.eq_none_iff_forall_ne_some.2 fun p hp => hboundary (isBoundary_of_pos? hp)
    have hnone' : (a ++ b).pos? ⟨a.utf8ByteSize + offset⟩ = none :=
      Option.eq_none_iff_forall_ne_some.2 fun p hp =>
        hboundary (isBoundary_append_right.1 (isBoundary_of_pos? hp))
    rw [charAt?, charAt?, hnone, hnone']
    rfl

/-- Bytes without a line feed are all in the last line of what they end. -/
theorem takeWhile_reverse_append {bytes : List UInt8} (h : newline ∉ bytes) (before : List UInt8) :
    (before ++ bytes).reverse.takeWhile (· != newline) =
      bytes.reverse ++ before.reverse.takeWhile (· != newline) := by
  rw [List.reverse_append, List.takeWhile_append_of_pos]
  intro b hb
  rw [bne_iff_ne]
  rintro rfl
  exact h (List.mem_reverse.1 hb)

def Location.behind (l : Location) (before : String) : Location :=
  let last := Location.ofOffset before before.utf8ByteSize
  { line := last.line + l.line - 1
    column := if l.line = 1 then last.column + l.column - 1 else l.column }

theorem Location.ofOffset_append (a b : String) (offset : Nat) :
    Location.ofOffset (a ++ b) (offset + a.utf8ByteSize) = (Location.ofOffset b offset).behind a := by
  have hwhole : (bytesOf a).take a.utf8ByteSize = bytesOf a := by
    rw [← length_bytesOf, List.take_length]
  have hbefore : (bytesOf (a ++ b)).take (offset + a.utf8ByteSize) =
      bytesOf a ++ (bytesOf b).take offset := by
    rw [Nat.add_comm, bytesOf_append, ← length_bytesOf a, List.take_length_add_append]
  simp only [Location.behind, Location.ofOffset, hwhole, hbefore]
  generalize (bytesOf b).take offset = ys
  rw [List.count_append]
  by_cases hline : newline ∈ ys
  · have hcount : 0 < ys.count newline := List.count_pos_iff.2 hline
    have hlength : (ys.reverse.takeWhile (· != newline)).length ≠ ys.reverse.length := by
      intro heq
      have hall := (List.takeWhile_prefix _).eq_of_length heq
      have hall' := List.all_eq_true.1 (hall ▸ List.all_takeWhile) newline (List.mem_reverse.2 hline)
      simp at hall'
    rw [List.reverse_append, List.takeWhile_append, if_neg hlength, if_neg (by omega)]
    congr 1
    omega
  · have hlast := takeWhile_reverse_append hline []
    rw [List.nil_append, List.reverse_nil, List.takeWhile_nil, List.append_nil] at hlast
    rw [takeWhile_reverse_append hline, hlast, List.count_eq_zero.2 hline, if_pos rfl,
      List.length_append]
    congr 1
    omega

end Append

end ReflectionTables.Text
