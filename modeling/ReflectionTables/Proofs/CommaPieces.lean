import ReflectionTables.ParameterLists
import ReflectionTables.Proofs.CharacterScans
/-!
# Cutting a list at its commas

A comma list is cut at the commas at nesting zero, where the nesting changes at every bracket
character. Joining pieces by commas and cutting the list gives these pieces again just if each but
the last of them nests to zero and none holds a comma at nesting zero. The argument for a piece is
the last word in front of its first equals sign.
-/

namespace ReflectionTables.Parsing

open Text

section Cutting

variable {c : Char} {cs ds piece : List Char} {pieces : List (List Char)} {depth : Int}

def nesting : List Char → Int
  | [] => 0
  | c :: cs => nestingStep c + nesting cs

@[simp] theorem nesting_nil : nesting [] = 0 := rfl

@[simp] theorem nesting_cons (c : Char) (cs : List Char) :
    nesting (c :: cs) = nestingStep c + nesting cs := rfl

@[simp] theorem nesting_append (cs ds : List Char) : nesting (cs ++ ds) = nesting cs + nesting ds := by
  induction cs with
  | nil => exact (Int.zero_add _).symm
  | cons c cs ih => rw [List.cons_append, nesting_cons, nesting_cons, ih, Int.add_assoc]

/-- Whether no comma of the characters stands at nesting zero, if they begin at the given nesting. -/
def CommasNested (depth : Int) (cs : List Char) : Prop :=
  ∀ before, before ++ [','] <+: cs → depth + nesting before ≠ 0

@[simp] theorem commasNested_nil : CommasNested depth [] := by
  intro before hbefore
  simp at hbefore

theorem commasNested_cons :
    CommasNested depth (c :: cs) ↔ (c = ',' → depth ≠ 0) ∧ CommasNested (depth + nestingStep c) cs := by
  constructor
  · intro h
    refine ⟨?_, fun before hbefore => ?_⟩
    · rintro rfl
      simpa using h [] (by simp)
    · have hne := h (c :: before) (List.cons_prefix_cons.2 ⟨rfl, hbefore⟩)
      rwa [nesting_cons, ← Int.add_assoc] at hne
  · rintro ⟨hcomma, hrest⟩ before hbefore
    cases before with
    | nil =>
      rw [nesting_nil, Int.add_zero]
      exact hcomma (List.cons_prefix_cons.1 hbefore).1.symm
    | cons d before =>
      obtain ⟨rfl, hrest'⟩ := List.cons_prefix_cons.1 hbefore
      rw [nesting_cons, ← Int.add_assoc]
      exact hrest before hrest'

@[simp] theorem commasNested_append :
    CommasNested depth (cs ++ ds) ↔ CommasNested depth cs ∧ CommasNested (depth + nesting cs) ds := by
  induction cs generalizing depth with
  | nil => simp
  | cons c cs ih =>
    rw [List.cons_append, commasNested_cons, commasNested_cons, ih, nesting_cons, Int.add_assoc, and_assoc]

@[simp] theorem commaPieces_comma (cs : List Char) : commaPieces 0 (',' :: cs) = [] :: commaPieces 0 cs := by
  rw [commaPieces, if_pos ⟨rfl, rfl⟩]

theorem exists_commaPieces (depth : Int) (cs : List Char) :
    ∃ piece pieces, commaPieces depth cs = piece :: pieces := by
  cases cs with
  | nil => exact ⟨[], [], rfl⟩
  | cons c cs =>
    rw [commaPieces]
    split
    · exact ⟨_, _, rfl⟩
    split <;> exact ⟨_, _, rfl⟩

theorem commaPieces_cons (hc : ¬(c = ',' ∧ depth = 0))
    (hpieces : commaPieces (depth + nestingStep c) cs = piece :: pieces) :
    commaPieces depth (c :: cs) = (c :: piece) :: pieces := by
  rw [commaPieces, if_neg hc, hpieces]

/-- Characters without a comma at nesting zero stay in front of the first piece. -/
theorem commaPieces_append (h : CommasNested depth cs)
    (hpieces : commaPieces (depth + nesting cs) ds = piece :: pieces) :
    commaPieces depth (cs ++ ds) = (cs ++ piece) :: pieces := by
  induction cs generalizing depth with
  | nil => simpa using hpieces
  | cons c cs ih =>
    rw [commasNested_cons] at h
    refine commaPieces_cons (fun hcomma => h.1 hcomma.1 hcomma.2) (ih h.2 ?_)
    rwa [nesting_cons, ← Int.add_assoc] at hpieces

/-- Whether characters that are joined by commas are cut apart at these commas: no comma within them
stands at nesting zero, and those that a comma follows nest to zero. -/
structure CutApart (pieces : List (List Char)) : Prop where
  nested : ∀ piece ∈ pieces, CommasNested 0 piece
  closed : ∀ piece ∈ pieces.dropLast, nesting piece = 0

@[simp] theorem cutApart_nil : CutApart [] := ⟨by simp, by simp⟩

theorem cutApart_cons : CutApart (piece :: pieces) ↔
    CommasNested 0 piece ∧ (pieces ≠ [] → nesting piece = 0) ∧ CutApart pieces := by
  constructor
  · rintro ⟨hnested, hclosed⟩
    rw [List.forall_mem_cons] at hnested
    refine ⟨hnested.1, fun hsome => ?_, hnested.2, fun p hp => ?_⟩
    · exact hclosed piece (by rw [List.dropLast_cons_of_ne_nil hsome]; exact List.mem_cons_self)
    · have hsome : pieces ≠ [] := by
        rintro rfl
        cases hp
      exact hclosed p (by rw [List.dropLast_cons_of_ne_nil hsome]; exact List.mem_cons_of_mem _ hp)
  · rintro ⟨hpiece, hzero, hnested, hclosed⟩
    refine ⟨List.forall_mem_cons.2 ⟨hpiece, hnested⟩, fun p hp => ?_⟩
    cases pieces with
    | nil => cases hp
    | cons next pieces =>
      rw [List.dropLast_cons_cons, List.mem_cons] at hp
      obtain rfl | hp := hp
      · exact hzero (List.cons_ne_nil _ _)
      · exact hclosed p hp

theorem CutApart.dropLast (h : CutApart pieces) : CutApart pieces.dropLast :=
  ⟨fun p hp => h.nested p (List.dropLast_subset _ hp),
    fun p hp => h.closed p (List.dropLast_subset _ hp)⟩

theorem commaPieces_intercalate (h : CutApart pieces) (hsome : pieces ≠ []) :
    commaPieces 0 ([','].intercalate pieces) = pieces := by
  induction pieces with
  | nil => exact absurd rfl hsome
  | cons piece pieces ih =>
    obtain ⟨hpiece, hzero, hpieces⟩ := cutApart_cons.1 h
    cases pieces with
    | nil =>
      have hend : commaPieces (0 + nesting piece) [] = [[]] := rfl
      have hlast := commaPieces_append hpiece hend
      rw [List.append_nil] at hlast
      rw [List.intercalate_singleton, hlast]
    | cons next pieces =>
      rw [List.intercalate_cons_cons, List.append_assoc, List.singleton_append]
      have hcut : commaPieces (0 + nesting piece) (',' :: [','].intercalate (next :: pieces)) =
          [] :: next :: pieces := by
        rw [hzero (List.cons_ne_nil _ _), Int.add_zero, commaPieces_comma,
          ih hpieces (List.cons_ne_nil _ _)]
      rw [commaPieces_append hpiece hcut, List.append_nil]

/-- Whatever the characters are, the pieces between the commas at nesting zero are cut apart. -/
theorem cutApart_of_commaPieces (h : commaPieces depth cs = piece :: pieces) :
    CommasNested depth piece ∧ (pieces ≠ [] → depth + nesting piece = 0) ∧ CutApart pieces := by
  induction cs generalizing depth piece pieces with
  | nil =>
    cases h
    exact ⟨commasNested_nil, fun hsome => absurd rfl hsome, cutApart_nil⟩
  | cons c cs ih =>
    by_cases hcomma : c = ',' ∧ depth = 0
    · obtain ⟨rfl, rfl⟩ := hcomma
      obtain ⟨next, later, hnext⟩ := exists_commaPieces 0 cs
      rw [commaPieces_comma, hnext] at h
      cases h
      refine ⟨commasNested_nil, fun _ => rfl, cutApart_cons.2 ?_⟩
      simpa using ih hnext
    · obtain ⟨next, later, hnext⟩ := exists_commaPieces (depth + nestingStep c) cs
      rw [commaPieces_cons hcomma hnext] at h
      cases h
      obtain ⟨hnested, hzero, hpieces⟩ := ih hnext
      refine ⟨commasNested_cons.2 ⟨fun hc hdepth => hcomma ⟨hc, hdepth⟩, hnested⟩, fun hsome => ?_, hpieces⟩
      rw [nesting_cons, ← Int.add_assoc]
      exact hzero hsome

theorem cutApart_parameterPieces (cs : List Char) : CutApart (parameterPieces cs) := by
  obtain ⟨piece, pieces, hpieces⟩ := exists_commaPieces 0 cs
  have hcut : CutApart (commaPieces 0 cs) := by
    rw [hpieces, cutApart_cons]
    simpa using cutApart_of_commaPieces hpieces
  rw [parameterPieces]
  split
  · split
    · exact hcut.dropLast
    · exact hcut
  · exact cutApart_nil

/-- Pieces with words are found again in their list just if they are cut apart. -/
theorem parameterPieces_intercalate_iff (hwords : ∀ piece ∈ pieces, piece.all isBlank = false) :
    parameterPieces ([','].intercalate pieces) = pieces ↔ CutApart pieces := by
  constructor
  · intro h
    rw [← h]
    exact cutApart_parameterPieces _
  · intro h
    by_cases hnone : pieces = []
    · rw [hnone]
      rfl
    have hlast := hwords _ (List.getLast_mem hnone)
    rw [parameterPieces, commaPieces_intercalate h hnone, List.getLast?_eq_some_getLast hnone]
    simp only [hlast, Bool.false_eq_true, if_false]

end Cutting

section Heads

variable {c last : Char} {cs ds lead before name gap value : List Char}

theorem hasEllipsis_iff : hasEllipsis cs = true ↔ ['.', '.', '.'] <:+: cs := by
  fun_induction hasEllipsis cs with
  | case1 cs => exact ⟨fun _ => ⟨[], cs, rfl⟩, fun _ => rfl⟩
  | case2 c cs hother ih =>
    rw [ih, List.infix_cons_iff, or_iff_right]
    rintro ⟨rest, hrest⟩
    cases hrest
    exact hother rest rfl rfl
  | case3 => simp

theorem hasEllipsis_append (hdots : '.' ∉ ds) : hasEllipsis (cs ++ ds) = hasEllipsis cs := by
  rw [Bool.eq_iff_iff, hasEllipsis_iff, hasEllipsis_iff]
  refine ⟨fun h => ?_, fun h => h.trans (List.prefix_append cs ds).isInfix⟩
  obtain h | h | ⟨front, back, hsplit, hfront, hback⟩ := List.infix_append_iff.1 h
  · exact h
  · exact absurd (h.subset List.mem_cons_self) hdots
  · cases back with
    | nil =>
      rw [hsplit, List.append_nil]
      exact hfront.isInfix
    | cons d back =>
      have hd : d ∈ ['.', '.', '.'] := by
        rw [hsplit]
        simp
      have hdot : d = '.' := by simpa using hd
      exact absurd (hdot ▸ hback.subset List.mem_cons_self) hdots

@[simp] theorem hasEllipsis_dropWhile (cs : List Char) : hasEllipsis (cs.dropWhile isBlank) = hasEllipsis cs := by
  induction cs with
  | nil => rfl
  | cons c cs ih =>
    rw [List.dropWhile_cons]
    split
    · rename_i hblank
      rw [ih, Bool.eq_iff_iff, hasEllipsis_iff, hasEllipsis_iff, List.infix_cons_iff, or_iff_right]
      intro hdots
      rw [← (List.cons_prefix_cons.1 hdots).1] at hblank
      cases hblank
    · rfl

theorem toNat_lt_of_isWordChar (h : isWordChar c = true) : c.toNat < 128 := by
  rw [isWordChar, Bool.or_eq_true, beq_iff_eq] at h
  obtain h | rfl := h
  · have hle : c.val ≤ 'z'.val := by
      change ((decide (c.val ≥ 'A'.val ∧ c.val ≤ 'Z'.val) ||
        (decide (c.val ≥ 'a'.val) && decide (c.val ≤ 'z'.val))) ||
        (decide (c.val ≥ '0'.val) && decide (c.val ≤ '9'.val))) = true at h
      simp only [Bool.or_eq_true, Bool.and_eq_true, decide_eq_true_eq] at h
      obtain (h | h) | h := h
      · exact UInt32.le_trans h.2 (by decide)
      · exact h.2
      · exact UInt32.le_trans h.2 (by decide)
    exact Nat.lt_of_le_of_lt (UInt32.le_iff_toNat_le.1 hle) (by decide)
  · decide

theorem isBlank_of_isWordChar (h : isWordChar c = true) : isBlank c = false := by
  have hall : ∀ n < 128, isWordChar (Char.ofNat n) = true → isBlank (Char.ofNat n) = false := by decide
  have hc := hall c.toNat (toNat_lt_of_isWordChar h)
  rw [Char.ofNat_toNat] at hc
  exact hc h

theorem dropWhile_append_of_neg {p : Char → Bool} (hname : ∀ c ∈ name, p c = false) (hsome : name ≠ [])
    (cs : List Char) : (name ++ cs).dropWhile p = name ++ cs := by
  obtain ⟨d, rest, rfl⟩ := List.exists_cons_of_ne_nil hsome
  have hd : ¬p d = true := by
    rw [hname d List.mem_cons_self]
    exact Bool.false_ne_true
  exact List.dropWhile_cons_of_neg hd

theorem trimChars_append (hname : ∀ c ∈ name, isBlank c = false) (hsome : name ≠ [])
    (hgap : ∀ c ∈ gap, isBlank c = true) :
    trimChars (lead ++ (name ++ gap)) = lead.dropWhile isBlank ++ name := by
  have hfront : (lead ++ (name ++ gap)).dropWhile isBlank = lead.dropWhile isBlank ++ (name ++ gap) := by
    rw [List.dropWhile_append]
    split
    · rename_i hempty
      rw [List.isEmpty_iff.1 hempty, List.nil_append, dropWhile_append_of_neg hname hsome]
    · rfl
  have hname' : ∀ c ∈ name.reverse, isBlank c = false := fun c hc => hname c (List.mem_reverse.1 hc)
  have hsome' : name.reverse ≠ [] := fun hnil => hsome (List.reverse_eq_nil_iff.1 hnil)
  rw [trimChars, hfront, List.reverse_append, List.reverse_append, List.append_assoc,
    List.dropWhile_append_of_pos fun c hc => hgap c (List.mem_reverse.1 hc),
    dropWhile_append_of_neg hname' hsome', List.reverse_append, List.reverse_reverse, List.reverse_reverse]

def EndsOutsideWord (cs : List Char) : Prop :=
  ∀ c ∈ cs.getLast?, isWordChar c = false ∧ c.toNat < 128

theorem EndsOutsideWord.suffix (h : EndsOutsideWord cs) (hsuffix : ds <:+ cs) : EndsOutsideWord ds := by
  obtain ⟨front, rfl⟩ := hsuffix
  intro c hc
  refine h c ?_
  rw [List.getLast?_append, hc]
  rfl

theorem parameterHead_append (hassign : '=' ∉ lead) (hname : ∀ c ∈ name, isWordChar c = true)
    (hsome : name ≠ []) (hgap : ∀ c ∈ gap, isBlank c = true) (hvalue : value = [] ∨ ∃ cs, value = '=' :: cs) :
    parameterHead (lead ++ (name ++ (gap ++ value))) = lead.dropWhile isBlank ++ name := by
  have hnone : ∀ c ∈ lead ++ (name ++ gap), (c != '=') = true := by
    intro c hc
    rw [bne_iff_ne]
    rintro rfl
    rw [List.mem_append, List.mem_append] at hc
    obtain hc | hc | hc := hc
    · exact hassign hc
    · exact absurd (hname _ hc) (by decide)
    · exact absurd (hgap _ hc) (by decide)
  have hcut : (lead ++ (name ++ (gap ++ value))).takeWhile (· != '=') = lead ++ (name ++ gap) := by
    rw [← List.append_assoc name, ← List.append_assoc lead, List.takeWhile_append_of_pos hnone]
    obtain rfl | ⟨cs, rfl⟩ := hvalue <;> simp
  have hblank : ∀ c ∈ name, isBlank c = false := fun c hc => isBlank_of_isWordChar (hname c hc)
  rw [parameterHead, hcut, trimChars_append hblank hsome hgap]

/-- A word behind characters that end outside a word is found from the back. -/
theorem EndsOutsideWord.span_reverse (h : EndsOutsideWord cs) (hname : ∀ c ∈ name, isWordChar c = true) :
    ((cs ++ name).reverse.takeWhile isWordChar).reverse = name ∧
      (cs ++ name).reverse.dropWhile isWordChar = cs.reverse := by
  have hname' : ∀ c ∈ name.reverse, isWordChar c = true := fun c hc => hname c (List.mem_reverse.1 hc)
  have hstop : cs.reverse.takeWhile isWordChar = [] ∧ cs.reverse.dropWhile isWordChar = cs.reverse := by
    cases hreverse : cs.reverse with
    | nil => exact ⟨rfl, rfl⟩
    | cons last rest =>
      have hlast := h last (by rw [List.getLast?_eq_head?_reverse, hreverse]; rfl)
      exact ⟨List.takeWhile_cons_of_neg (by simp [hlast.1]), List.dropWhile_cons_of_neg (by simp [hlast.1])⟩
  constructor
  · rw [List.reverse_append, List.takeWhile_append_of_pos hname', hstop.1, List.append_nil, List.reverse_reverse]
  · rw [List.reverse_append, List.dropWhile_append_of_pos hname', hstop.2]

/-- The name is the word in front of the first equals sign, and dots anywhere before it make a pack. -/
theorem parameterArgument_eq (hlead : EndsOutsideWord lead) (hassign : '=' ∉ lead)
    (hname : ∀ c ∈ name, isWordChar c = true) (hsome : name ≠ [])
    (hgap : ∀ c ∈ gap, isBlank c = true) (hvalue : value = [] ∨ ∃ cs, value = '=' :: cs) :
    parameterArgument (lead ++ (name ++ (gap ++ value))) =
      some (some (name ++ if hasEllipsis lead then ['.', '.', '.'] else [])) := by
  have hhead := parameterHead_append hassign hname hsome hgap hvalue
  have hdots : hasEllipsis (lead.dropWhile isBlank ++ name) = hasEllipsis lead := by
    rw [hasEllipsis_append fun hdot => absurd (hname _ hdot) (by decide), hasEllipsis_dropWhile]
  have hfront := hlead.suffix (List.dropWhile_suffix isBlank)
  obtain ⟨hword, hbehind⟩ := hfront.span_reverse hname
  have hcuts : ((lead.dropWhile isBlank).reverse.head?.all fun c => c.utf8Size == 1) = true := by
    rw [← List.getLast?_eq_head?_reverse, Option.all_eq_true]
    intro c hc
    rw [beq_iff_eq, ← String.length_utf8EncodeChar, utf8EncodeChar_of_ascii (hfront c hc).2]
    rfl
  simp only [parameterArgument, hhead, hword, hbehind, hcuts, hdots, hsome]
  cases hasEllipsis lead <;> simp

end Heads

end ReflectionTables.Parsing
