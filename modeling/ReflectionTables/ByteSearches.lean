/-!
# Searches for delimiters in windows of bytes

Searches for delimiters in a list of bytes. The searches look at windows of 32 bytes: a single byte
is sought eight bytes at a time in 64-bit lanes, a class of bytes by a mask with one bit a byte. The
last window is padded with zeros and hits in the padding are ignored. `Scalar` holds the same
searches one index at a time.
-/

namespace ReflectionTables.ByteSearch

def backslash : UInt8 := 92
def carriageReturn : UInt8 := 13
def lineFeed : UInt8 := 10
def star : UInt8 := 42
def slash : UInt8 := 47
def colon : UInt8 := 58

/-- Letters and the underscore; identifiers are ASCII. -/
def isNameStart (b : UInt8) : Bool := (Char.ofNat b.toNat).isAlpha || b == 95

/-- Letters, digits and the underscore. -/
def isNameByte (b : UInt8) : Bool := (Char.ofNat b.toNat).isAlphanum || b == 95

/-- The lane whose first byte is the lowest. -/
def lane : List UInt8 → UInt64
  | [] => 0
  | b :: bs => b.toUInt64 ||| (lane bs <<< 8)

/-- Marks the high bit of exactly the bytes of a lane that equal the needle. -/
def equalBytes (word : UInt64) (needle : UInt8) : UInt64 :=
  let low7 : UInt64 := 0x7f7f7f7f7f7f7f7f
  let x := word ^^^ (0x0101010101010101 * needle.toUInt64)
  ~~~(((x &&& low7) + low7) ||| x ||| low7)

def lowestBit (width n : Nat) : Option Nat := (List.range width).find? n.testBit

def firstInLane (needle : UInt8) (bytes : List UInt8) : Option Nat :=
  (lowestBit 64 (equalBytes (lane bytes) needle).toNat).map (· / 8)

def firstInLanes (needle : UInt8) : Nat → List UInt8 → Option Nat
  | 0, _ => none
  | lanes + 1, window =>
    (firstInLane needle (window.take 8)).or
      ((firstInLanes needle lanes (window.drop 8)).map (· + 8))

/-- One bit a byte, the first byte lowest. -/
def classMask (p : UInt8 → Bool) : List UInt8 → UInt32
  | [] => 0
  | b :: bs => (if p b then (1 : UInt32) else 0) ||| (classMask p bs <<< 1)

/-- The first hit of a search that understands windows of 32 bytes. -/
def searchWindows (inWindow : List UInt8 → Option Nat) (bytes : List UInt8) : Option Nat :=
  if bytes.drop 31 = [] then
    (inWindow (bytes ++ List.replicate (32 - bytes.length) 0)).filter (· < bytes.length)
  else
    match inWindow (bytes.take 32) with
    | some i => some i
    | none => (searchWindows inWindow (bytes.drop 32)).map (· + 32)
termination_by bytes.length
decreasing_by
  rename_i h
  have : 31 < bytes.length := by
    rcases Nat.lt_or_ge 31 bytes.length with h' | h'
    · exact h'
    · exact absurd (List.drop_eq_nil_of_le h') h
  simp only [List.length_drop]
  omega

/-- The first index from `start` on that holds the needle. -/
def findByte (bytes : List UInt8) (start : Nat) (needle : UInt8) : Option Nat :=
  (searchWindows (firstInLanes needle 4) (bytes.drop start)).map (· + start)

def findClass (bytes : List UInt8) (start : Nat) (p : UInt8 → Bool) : Option Nat :=
  (searchWindows (fun window => lowestBit 32 (classMask p window).toNat) (bytes.drop start)).map
    (· + start)

private theorem lowestBit_lt {width n i : Nat} (h : lowestBit width n = some i) : i < width := by
  simpa using List.mem_of_find?_eq_some h

private theorem firstInLane_lt {needle : UInt8} {bytes : List UInt8} {i : Nat}
    (h : firstInLane needle bytes = some i) : i < 8 := by
  obtain ⟨bit, hbit, rfl⟩ := Option.map_eq_some_iff.1 h
  have := lowestBit_lt hbit
  omega

private theorem firstInLanes_lt {needle : UInt8} {lanes : Nat} {window : List UInt8} {i : Nat}
    (h : firstInLanes needle lanes window = some i) : i < 8 * lanes := by
  induction lanes generalizing window i with
  | zero => simp [firstInLanes] at h
  | succ lanes ih =>
    rw [firstInLanes, Option.or_eq_some_iff] at h
    rcases h with hlane | ⟨_, h⟩
    · have := firstInLane_lt hlane
      omega
    · obtain ⟨j, hj, rfl⟩ := Option.map_eq_some_iff.1 h
      have := ih hj
      omega

private theorem searchWindows_lt {inWindow : List UInt8 → Option Nat}
    (bound : ∀ window i, inWindow window = some i → i < 32) {bytes : List UInt8} {i : Nat}
    (h : searchWindows inWindow bytes = some i) : i < bytes.length := by
  induction bytes using searchWindows.induct inWindow generalizing i with
  | case1 bytes hshort =>
    rw [searchWindows, if_pos hshort] at h
    simpa using (Option.filter_eq_some_iff.1 h).2
  | case2 bytes hlong j hj =>
    rw [searchWindows, if_neg hlong, hj] at h
    have hlen : 31 < bytes.length := by
      rcases Nat.lt_or_ge 31 bytes.length with h' | h'
      · exact h'
      · exact absurd (List.drop_eq_nil_of_le h') hlong
    have := bound _ _ hj
    simp only [Option.some.injEq] at h
    omega
  | case3 bytes hlong hnone ih =>
    rw [searchWindows, if_neg hlong, hnone] at h
    obtain ⟨j, hj, rfl⟩ := Option.map_eq_some_iff.1 h
    have := ih hj
    simp only [List.length_drop] at this
    omega

theorem findByte_bounds {bytes : List UInt8} {start : Nat} {needle : UInt8} {i : Nat}
    (h : findByte bytes start needle = some i) : start ≤ i ∧ i < bytes.length := by
  obtain ⟨j, hj, rfl⟩ := Option.map_eq_some_iff.1 h
  have := searchWindows_lt (fun _ _ hi => firstInLanes_lt hi) hj
  simp only [List.length_drop] at this
  omega

theorem findClass_bounds {bytes : List UInt8} {start : Nat} {p : UInt8 → Bool} {i : Nat}
    (h : findClass bytes start p = some i) : start ≤ i ∧ i < bytes.length := by
  obtain ⟨j, hj, rfl⟩ := Option.map_eq_some_iff.1 h
  have := searchWindows_lt (fun _ _ hi => lowestBit_lt hi) hj
  simp only [List.length_drop] at this
  omega

/-- How many backslashes stand right before an index. -/
def backslashesBefore (bytes : List UInt8) (i : Nat) : Nat :=
  ((bytes.take i).reverse.takeWhile (· == backslash)).length

/-- A line feed is escaped by an odd run of backslashes, with or without a carriage return
between them. -/
def lineFeedEscaped (bytes : List UInt8) (i : Nat) : Bool :=
  let i := if 0 < i && bytes[i - 1]? == some carriageReturn then i - 1 else i
  backslashesBefore bytes i % 2 == 1

/-- The first quote from `start` on that no odd run of backslashes escapes. -/
def findUnescaped (bytes : List UInt8) (start : Nat) (quote : UInt8) : Option Nat :=
  match h : findByte bytes start quote with
  | none => none
  | some i =>
    if backslashesBefore bytes i % 2 == 0 then some i else findUnescaped bytes (i + 1) quote
termination_by bytes.length - start
decreasing_by
  have := findByte_bounds h
  omega

/-- One past the line feed that ends the logical line, or the end of the bytes. -/
def lineEnd (bytes : List UInt8) (start : Nat) : Nat :=
  match h : findByte bytes start lineFeed with
  | none => bytes.length
  | some i => if lineFeedEscaped bytes i then lineEnd bytes (i + 1) else i + 1
termination_by bytes.length - start
decreasing_by
  have := findByte_bounds h
  omega

def commentEnd (bytes : List UInt8) (start : Nat) : Option Nat :=
  match h : findByte bytes start star with
  | none => none
  | some i => if bytes[i + 1]? == some slash then some (i + 2) else commentEnd bytes (i + 1)
termination_by bytes.length - start
decreasing_by
  have := findByte_bounds h
  omega

/-- Whether `::` and the start of a further name stand at an index. -/
def joinsAt (bytes : List UInt8) (i : Nat) : Bool :=
  bytes[i]? == some colon && bytes[i + 1]? == some colon && bytes[i + 2]?.any isNameStart

private theorem lt_length_of_joinsAt {bytes : List UInt8} {i : Nat} (h : joinsAt bytes i = true) :
    i + 2 < bytes.length := by
  simp only [joinsAt, Bool.and_eq_true] at h
  cases hb : bytes[i + 2]? with
  | none => simp [hb] at h
  | some b => exact (List.getElem?_eq_some_iff.1 hb).1

/-- The end of a possibly qualified name. -/
def nameEnd (bytes : List UInt8) (start : Nat) : Nat :=
  match h : findClass bytes start (fun b => !isNameByte b) with
  | none => bytes.length
  | some i => if joinsAt bytes i then nameEnd bytes (i + 2) else i
termination_by bytes.length - start
decreasing_by
  rename_i hjoins
  have := findClass_bounds h
  have := lt_length_of_joinsAt hjoins
  omega

theorem le_lineEnd {bytes : List UInt8} {start : Nat} (h : start ≤ bytes.length) :
    start ≤ lineEnd bytes start := by
  fun_induction lineEnd bytes start with
  | case1 => exact h
  | case2 start i hi _ ih =>
    have := findByte_bounds hi
    have := ih (by omega)
    omega
  | case3 start i hi _ =>
    have := findByte_bounds hi
    omega

theorem lineEnd_le_length (bytes : List UInt8) (start : Nat) :
    lineEnd bytes start ≤ bytes.length := by
  fun_induction lineEnd bytes start with
  | case1 => exact Nat.le_refl _
  | case2 _ _ _ _ ih => exact ih
  | case3 start i hi _ => exact (findByte_bounds hi).2

theorem commentEnd_le_length {bytes : List UInt8} {start stop : Nat}
    (h : commentEnd bytes start = some stop) : stop ≤ bytes.length := by
  fun_induction commentEnd bytes start with
  | case1 => simp at h
  | case2 start i hi hslash =>
    have : i + 1 < bytes.length := by
      have hslash := eq_of_beq hslash
      exact (List.getElem?_eq_some_iff.1 hslash).1
    simp only [Option.some.injEq] at h
    omega
  | case3 start i hi _ ih => exact ih h

theorem commentEnd_lt {bytes : List UInt8} {start stop : Nat}
    (h : commentEnd bytes start = some stop) : start < stop := by
  fun_induction commentEnd bytes start with
  | case1 => simp at h
  | case2 start i hi _ =>
    have := findByte_bounds hi
    simp only [Option.some.injEq] at h
    omega
  | case3 start i hi _ ih =>
    have := findByte_bounds hi
    have := ih h
    omega

theorem le_nameEnd {bytes : List UInt8} {start : Nat} (h : start ≤ bytes.length) :
    start ≤ nameEnd bytes start := by
  fun_induction nameEnd bytes start with
  | case1 => exact h
  | case2 start i hi hjoins ih =>
    have := findClass_bounds hi
    have := ih (by have := lt_length_of_joinsAt hjoins; omega)
    omega
  | case3 start i hi _ =>
    have := findClass_bounds hi
    omega

namespace Scalar

/-- The first index from `start` on that satisfies a predicate. -/
def firstIndex (bytes : List UInt8) (start : Nat) (p : Nat → Bool) : Option Nat :=
  (List.range' start (bytes.length - start)).find? p

def findUnescaped (bytes : List UInt8) (start : Nat) (quote : UInt8) : Option Nat :=
  firstIndex bytes start fun i => bytes[i]? == some quote && backslashesBefore bytes i % 2 == 0

def lineEnd (bytes : List UInt8) (start : Nat) : Nat :=
  match firstIndex bytes start fun i =>
    bytes[i]? == some lineFeed && !lineFeedEscaped bytes i with
  | some i => i + 1
  | none => bytes.length

def commentEnd (bytes : List UInt8) (start : Nat) : Option Nat :=
  (firstIndex bytes start fun i =>
    bytes[i]? == some star && bytes[i + 1]? == some slash).map (· + 2)

def nameEnd (bytes : List UInt8) (start : Nat) : Nat :=
  if h : start < bytes.length then
    if isNameByte bytes[start] then nameEnd bytes (start + 1)
    else if joinsAt bytes start then nameEnd bytes (start + 2)
    else start
  else start
termination_by bytes.length - start

end Scalar

end ReflectionTables.ByteSearch
