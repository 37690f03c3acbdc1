import ReflectionTables.ParameterLists
import ReflectionTables.Proofs.CharacterScans
/-!
# Texts on one line

A token that is a name is made of the bytes of names and colons, and the arguments that name the
parameters of a record again are words with commas and dots, so neither has a line break in it.
-/

namespace ReflectionTables.Text

def OneLine (text : String) : Prop := '\n' ∉ text.toList

instance (text : String) : Decidable (OneLine text) := inferInstanceAs (Decidable (_ ∉ _))

variable {a b text : String}

@[simp] theorem oneLine_append : OneLine (a ++ b) ↔ OneLine a ∧ OneLine b := by
  rw [OneLine, String.toList_append, List.mem_append, not_or]
  rfl

theorem OneLine.append (ha : OneLine a) (hb : OneLine b) : OneLine (a ++ b) := oneLine_append.mpr ⟨ha, hb⟩

/-- Texts joined by one line are one line just if each of them is. -/
theorem oneLine_intercalate {texts : List String} (hseparator : OneLine text) :
    OneLine (text.intercalate texts) ↔ ∀ piece ∈ texts, OneLine piece := by
  induction texts with
  | nil => simp [OneLine]
  | cons first texts ih =>
    cases texts with
    | nil => simp
    | cons second texts =>
      rw [String.intercalate_cons_cons, oneLine_append, oneLine_append, ih, List.forall_mem_cons]
      simp [hseparator]

end ReflectionTables.Text

namespace ReflectionTables.Scanning

open Text ByteSearch

variable {text : String} {bytes : List UInt8} {start i : Nat} {b : UInt8} {token : Token}

theorem isNameByte_of_lt_nameEnd (hstart : start ≤ i) (hi : i < nameEnd bytes start)
    (hb : bytes[i]? = some b) : isNameByte b = true ∨ b = colon := by
  fun_induction nameEnd bytes start with
  | case1 start hnone =>
    rw [findClass_eq, Option.map_eq_none_iff, List.findIdx?_eq_none_iff] at hnone
    have hmem : b ∈ bytes.drop start := by
      rw [List.mem_iff_getElem?]
      refine ⟨i - start, ?_⟩
      rw [List.getElem?_drop, ← hb]
      congr 1
      omega
    left
    simpa using hnone b hmem
  | case2 start j hj hjoins ih =>
    obtain ⟨-, -, -, hbefore⟩ := getElem?_of_findClass hj
    by_cases hlt : i < j
    · obtain ⟨b', hb', hname⟩ := hbefore i hstart hlt
      rw [hb] at hb'
      cases hb'
      left
      simpa using hname
    · by_cases hle : j + 2 ≤ i
      · exact ih hle hi
      · rw [joinsAt, Bool.and_eq_true, Bool.and_eq_true, beq_iff_eq, beq_iff_eq] at hjoins
        have hij : i = j ∨ i = j + 1 := by omega
        obtain rfl | rfl := hij
        · rw [hjoins.1.1] at hb
          exact .inr (Option.some.inj hb).symm
        · rw [hjoins.1.2] at hb
          exact .inr (Option.some.inj hb).symm
  | case3 start j hj hjoins =>
    obtain ⟨-, -, -, hbefore⟩ := getElem?_of_findClass hj
    obtain ⟨b', hb', hname⟩ := hbefore i hstart hi
    rw [hb] at hb'
    cases hb'
    left
    simpa using hname

theorem lineFeed_mem_of_not_oneLine (h : ¬OneLine text) : lineFeed ∈ bytesOf text := by
  obtain ⟨before, behind, hsplit⟩ := List.append_of_mem (not_not.mp h)
  rw [bytesOf_eq, hsplit, charBytes_append, charBytes_ascii (by decide)]
  exact List.mem_append_right _ List.mem_cons_self

theorem Lexeme.length_of_ident {after : List UInt8} {n : Nat}
    (h : Lexeme.ofBytes b after = .token .ident n) : n = nameEnd (b :: after) 1 := by
  simp only [Lexeme.ofBytes, Lexeme.quoted] at h
  repeat' split at h
  all_goals first
    | exact absurd h (Lexeme.operator_ne (.inl rfl))
    | cases h
  rfl

theorem ne_lineFeed_of_isNameByte (h : isNameByte b = true) : b ≠ lineFeed := by
  rintro rfl
  revert h
  decide

theorem Token.StandsIn.oneLine (h : token.StandsIn text) (hkind : token.kind = .ident) :
    OneLine token.text := by
  by_contra hbreak
  have hmem := lineFeed_mem_of_not_oneLine hbreak
  obtain ⟨b, after, hdrop, hlexeme⟩ := h.isLexeme
  rw [hkind] at hlexeme
  rw [h.bytes_eq, hdrop, Lexeme.length_of_ident hlexeme, List.mem_iff_getElem?] at hmem
  obtain ⟨i, hi⟩ := hmem
  rw [List.getElem?_take, Option.ite_none_right_eq_some] at hi
  obtain ⟨hlt, hi⟩ := hi
  cases i with
  | zero =>
    cases hi
    have hstart := Lexeme.isNameStart_of_ident hlexeme
    revert hstart
    decide
  | succ i =>
    obtain hname | hcolon := isNameByte_of_lt_nameEnd (by omega) hlt hi
    · exact ne_lineFeed_of_isNameByte hname rfl
    · cases hcolon

end ReflectionTables.Scanning

namespace ReflectionTables.Parsing

open Text

variable {α β : Type}

theorem ne_of_isWordChar {c : Char} (h : isWordChar c = true) : c ≠ '\n' := by
  rintro rfl
  revert h
  decide

/-- An argument is a word, perhaps with dots behind it. -/
theorem oneLine_of_parameterArgument {piece argument : List Char}
    (h : parameterArgument piece = some (some argument)) : '\n' ∉ argument := by
  have hword : '\n' ∉ ((parameterHead piece).reverse.takeWhile isWordChar).reverse := by
    intro hmem
    rw [List.mem_reverse] at hmem
    have hall := List.all_takeWhile (p := isWordChar) (l := (parameterHead piece).reverse)
    exact ne_of_isWordChar (List.all_eq_true.mp hall _ hmem) rfl
  simp only [parameterArgument] at h
  split at h
  · cases h
  split at h
  · cases h
  split at h
  · cases h
    simpa using hword
  · cases h
    exact hword

theorem exists_mem_of_mapM {f : α → Option β} {xs : List α} {ys : List β} {y : β} (h : xs.mapM f = some ys)
    (hy : y ∈ ys) : ∃ x ∈ xs, f x = some y := by
  induction xs generalizing ys with
  | nil =>
    cases h
    cases hy
  | cons x xs ih =>
    rw [List.mapM_cons, Option.bind_eq_bind, Option.bind_eq_some_iff] at h
    obtain ⟨first, hfirst, hrest⟩ := h
    rw [Option.bind_eq_bind, Option.bind_eq_some_iff] at hrest
    obtain ⟨rest, hrest, hys⟩ := hrest
    cases hys
    obtain rfl | hy := List.mem_cons.mp hy
    · exact ⟨x, List.mem_cons_self, hfirst⟩
    · obtain ⟨x', hx', hsome⟩ := ih hrest hy
      exact ⟨x', List.mem_cons_of_mem x hx', hsome⟩

/-- The arguments for a parameter list are on one line, whatever the list is. -/
theorem oneLine_of_arguments? {parameters arguments : String} (h : arguments? parameters = some arguments) :
    OneLine arguments := by
  rw [arguments?] at h
  cases hpieces : (parameterPieces parameters.toList).mapM parameterArgument with
  | none =>
    rw [hpieces] at h
    cases h
  | some pieces =>
    rw [hpieces] at h
    cases h
    rw [oneLine_intercalate (by decide)]
    intro argument hargument
    obtain ⟨cs, hcs, rfl⟩ := List.mem_map.mp hargument
    obtain ⟨argument?, hmem, rfl⟩ := List.mem_filterMap.mp hcs
    obtain ⟨piece, -, hpiece⟩ := exists_mem_of_mapM hpieces hmem
    rw [OneLine, String.toList_ofList]
    exact oneLine_of_parameterArgument hpiece

end ReflectionTables.Parsing
