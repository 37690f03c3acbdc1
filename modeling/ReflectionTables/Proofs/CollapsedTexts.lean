import Mathlib.Data.List.Infix
import ReflectionTables.BlankCharacters
/-!
# Collapsing a text from left to right

Collapsing goes through a text from left to right. It changes nothing but blanks: a run of them
becomes one space, which is written when the next word begins, and what stands between two words
without a blank stays as it is. So the space between two tokens stays a space between tokens.
-/

namespace ReflectionTables.Text

/-- The characters with their blanks collapsed; `pending` says whether a space is to be written
before the next word. -/
def squeeze : Bool → List Char → List Char
  | _, [] => []
  | pending, c :: cs =>
    if isBlank c then squeeze true cs
    else if pending then ' ' :: c :: squeeze false cs
    else c :: squeeze false cs

def pendingBehind : Bool → List Char → Bool
  | pending, [] => pending
  | _, c :: cs => pendingBehind (isBlank c) cs

/-- The characters with their blanks collapsed, if a word follows. -/
def tighten (pending : Bool) (cs : List Char) : List Char :=
  squeeze pending cs ++ if pendingBehind pending cs then [' '] else []

variable {pending : Bool} {c : Char} {cs cs' : List Char}

@[simp] theorem squeeze_blank (h : isBlank c = true) : squeeze pending (c :: cs) = squeeze true cs := by
  rw [squeeze, if_pos h]

@[simp] theorem squeeze_word (h : isBlank c = false) : squeeze false (c :: cs) = c :: squeeze false cs := by
  simp [squeeze, h]

theorem squeeze_pending (h : isBlank c = false) :
    squeeze pending (c :: cs) = (if pending then [' '] else []) ++ c :: squeeze false cs := by
  cases pending <;> simp [squeeze, h]

@[simp] theorem squeeze_append (pending : Bool) (cs cs' : List Char) :
    squeeze pending (cs ++ cs') = squeeze pending cs ++ squeeze (pendingBehind pending cs) cs' := by
  induction cs generalizing pending with
  | nil => rfl
  | cons c cs ih =>
    rw [List.cons_append, pendingBehind]
    cases hblank : isBlank c with
    | true => rw [squeeze_blank hblank, squeeze_blank hblank, ih]
    | false => rw [squeeze_pending hblank, squeeze_pending hblank, ih, List.append_assoc,
        List.cons_append]

/-- A word is written behind what was collapsed before it. -/
theorem squeeze_append_word (h : isBlank c = false) (pending : Bool) (cs cs' : List Char) :
    squeeze pending (cs ++ c :: cs') = tighten pending cs ++ squeeze false (c :: cs') := by
  rw [squeeze_append, squeeze_pending h, squeeze_word h, tighten, List.append_assoc]

theorem squeeze_nonblanks (h : ∀ c ∈ cs, isBlank c = false) :
    squeeze false (cs ++ cs') = cs ++ squeeze false cs' := by
  induction cs with
  | nil => rfl
  | cons c cs ih =>
    rw [List.cons_append, squeeze_word (h c (by simp)), ih fun d hd => h d (by simp [hd]),
      List.cons_append]

@[simp] theorem words_nil : words [] = [] := by rw [words.eq_def]

@[simp] theorem words_blank (h : isBlank c = true) : words (c :: cs) = words cs := by
  rw [words.eq_def]
  simp only [h, if_true]

@[simp] theorem words_word (h : isBlank c = false) : words (c :: cs) =
    (c :: cs.takeWhile (!isBlank ·)) :: words (cs.dropWhile (!isBlank ·)) := by
  rw [words.eq_def]
  simp only [h, Bool.false_eq_true, if_false]

/-- Each word is written behind a space, the first one too if a space is pending. -/
theorem squeeze_eq_words (cs : List Char) :
    squeeze true cs = if words cs = [] then [] else ' ' :: [' '].intercalate (words cs) := by
  induction cs using words.induct with
  | case1 => simp [squeeze]
  | case2 c cs hblank ih => rw [words_blank hblank, squeeze_blank hblank, ih]
  | case3 c cs hword ih =>
    have hword : isBlank c = false := by simpa using hword
    have hrun : ∀ d ∈ cs.takeWhile (!isBlank ·), isBlank d = false := by
      intro d hd
      simpa using List.all_eq_true.1 List.all_takeWhile d hd
    have hrest : squeeze false (cs.dropWhile (!isBlank ·)) =
        squeeze true (cs.dropWhile (!isBlank ·)) := by
      cases hcs : cs.dropWhile (!isBlank ·) with
      | nil => rfl
      | cons d ds =>
        have hd := List.head_dropWhile_not (!isBlank ·) (l := cs) (by simp [hcs])
        simp only [hcs, List.head_cons, Bool.not_eq_false'] at hd
        rw [squeeze_blank hd, squeeze_blank hd]
    have hsplit : squeeze false cs = cs.takeWhile (!isBlank ·) ++
        squeeze true (cs.dropWhile (!isBlank ·)) := by
      rw [← hrest, ← squeeze_nonblanks hrun, List.takeWhile_append_dropWhile]
    rw [words_word hword, squeeze_pending hword, hsplit, ih]
    cases words (cs.dropWhile (!isBlank ·)) <;> simp [List.intercalate]

theorem squeeze_blanks (h : ∀ c ∈ cs, isBlank c = true) (pending : Bool) : squeeze pending cs = [] := by
  induction cs generalizing pending with
  | nil => rfl
  | cons c cs ih =>
    rw [squeeze_blank (h c List.mem_cons_self), ih fun d hd => h d (List.mem_cons_of_mem c hd)]

/-- Texts that are squeezed alike behind a space are collapsed alike. -/
theorem collapse_congr {text text' : String} (h : squeeze true text.toList = squeeze true text'.toList) :
    collapse text = collapse text' := by
  rw [squeeze_eq_words, squeeze_eq_words] at h
  rw [collapse, collapse]
  by_cases hwords : words text.toList = []
  · rw [if_pos hwords] at h
    by_cases hwords' : words text'.toList = []
    · rw [hwords, hwords']
    · rw [if_neg hwords'] at h
      cases h
  · rw [if_neg hwords] at h
    by_cases hwords' : words text'.toList = []
    · rw [if_pos hwords'] at h
      cases h
    · rw [if_neg hwords', List.cons.injEq] at h
      rw [h.2]

theorem collapse_append_blanks {text gap : String} (h : ∀ c ∈ gap.toList, isBlank c = true) :
    collapse (text ++ gap) = collapse text := by
  apply collapse_congr
  rw [String.toList_append, squeeze_append, squeeze_blanks h, List.append_nil]

theorem toList_collapse {text : String} (h : text.toList = c :: cs) (hword : isBlank c = false) :
    (collapse text).toList = squeeze false (c :: cs) := by
  have hwords := squeeze_eq_words (c :: cs)
  rw [squeeze_pending hword, if_pos rfl, if_neg (by simp [hword]),
    List.singleton_append, List.cons.injEq] at hwords
  rw [collapse, String.toList_ofList, h, ← hwords.2, squeeze_word hword]

theorem length_squeeze_le (pending : Bool) (cs : List Char) :
    (squeeze pending cs).length + (pendingBehind pending cs).toNat ≤ cs.length + pending.toNat := by
  induction cs generalizing pending with
  | nil => simp [squeeze, pendingBehind]
  | cons c cs ih =>
    cases hblank : isBlank c with
    | true =>
      have := ih true
      simp only [squeeze_blank hblank, pendingBehind, hblank, List.length_cons, Bool.toNat_true] at *
      omega
    | false =>
      have := ih false
      cases pending <;>
        simp only [squeeze, pendingBehind, hblank, List.length_cons, Bool.toNat_true,
          Bool.toNat_false, if_true, if_false, Bool.false_eq_true] at * <;> omega

/-- A text that collapsing leaves as it is begins and ends with words. -/
theorem collapse_eq_self {text : String} (h : collapse text = text) :
    squeeze false text.toList = text.toList ∧ pendingBehind false text.toList = false ∧
      ∀ c cs, text.toList = c :: cs → isBlank c = false := by
  have hhead : ∀ c cs, text.toList = c :: cs → isBlank c = false := by
    intro c cs htext
    refine Bool.eq_false_iff.2 fun hblank => ?_
    have hlist := congrArg String.toList h
    have hwords := squeeze_eq_words cs
    have hlength := length_squeeze_le true cs
    rw [collapse, String.toList_ofList, htext, words_blank hblank] at hlist
    split at hwords
    · rename_i hnil
      rw [hnil] at hlist
      cases hlist
    · rw [hlist] at hwords
      rw [hwords] at hlength
      simp only [List.length_cons, Bool.toNat_true] at hlength
      omega
  have hself : squeeze false text.toList = text.toList := by
    cases htext : text.toList with
    | nil => rfl
    | cons c cs => rw [← toList_collapse htext (hhead c cs htext), h, htext]
  refine ⟨hself, ?_, hhead⟩
  have hlength := length_squeeze_le false text.toList
  rw [hself] at hlength
  cases hpending : pendingBehind false text.toList with
  | false => rfl
  | true =>
    rw [hpending, Bool.toNat_true, Bool.toNat_false] at hlength
    omega

/-- What follows a word stays as it is up to the first blank. -/
theorem squeeze_cases (cs : List Char) : ∃ same rest, cs = same ++ rest ∧
    (squeeze false cs = same ∨ ∃ more, squeeze false cs = same ++ ' ' :: more) := by
  have hpending : ∀ cs, squeeze true cs = [] ∨ ∃ more, squeeze true cs = ' ' :: more := by
    intro cs
    rw [squeeze_eq_words]
    split
    · exact .inl rfl
    · exact .inr ⟨_, rfl⟩
  induction cs with
  | nil => exact ⟨[], [], rfl, .inl rfl⟩
  | cons c cs ih =>
    cases hblank : isBlank c with
    | true =>
      rw [squeeze_blank hblank]
      exact ⟨[], c :: cs, rfl, hpending cs⟩
    | false =>
      obtain ⟨same, rest, rfl, h⟩ := ih
      refine ⟨c :: same, rest, rfl, ?_⟩
      rw [squeeze_word hblank]
      refine h.imp (fun h => by rw [h]) ?_
      rintro ⟨more, h⟩
      exact ⟨more, by rw [h, List.cons_append]⟩

theorem eq_space_of_mem_squeeze (hc : c ∈ squeeze pending cs) (hblank : isBlank c = true) :
    c = ' ' := by
  induction cs generalizing pending with
  | nil => cases hc
  | cons d cs ih =>
    cases hd : isBlank d with
    | true => exact ih (by rwa [squeeze_blank hd] at hc)
    | false =>
      rw [squeeze_pending hd, List.mem_append, List.mem_cons] at hc
      rcases hc with hc | rfl | hc
      · cases pending <;> simp_all
      · rw [hd] at hblank
        cases hblank
      · exact ih hc

/-- Characters come together only where they were together. -/
theorem infix_of_infix_squeeze {a b : Char} (ha : isBlank a = false) (hb : isBlank b = false)
    (h : [a, b] <:+: squeeze pending cs) : [a, b] <:+: cs := by
  have hspace : a ≠ ' ' := by
    rintro rfl
    cases ha
  induction cs generalizing pending with
  | nil => exact h
  | cons c cs ih =>
    have hlift : [a, b] <:+: cs → [a, b] <:+: c :: cs := fun h => List.infix_cons h
    cases hc : isBlank c with
    | true => exact hlift (ih (by rwa [squeeze_blank hc] at h))
    | false =>
      have hword : [a, b] <:+: c :: squeeze false cs := by
        rw [squeeze_pending hc] at h
        cases pending with
        | false => exact h
        | true =>
          refine (List.infix_cons_iff.1 h).resolve_left fun hfront => hspace ?_
          exact (List.cons_prefix_cons.1 hfront).1
      rcases List.infix_cons_iff.1 hword with hfront | hinfix
      · obtain ⟨rfl, hrest⟩ := List.cons_prefix_cons.1 hfront
        cases cs with
        | nil => simp [squeeze] at hrest
        | cons d ds =>
          cases hd : isBlank d with
          | true =>
            -- Behind a blank comes a space or nothing.
            rw [squeeze_blank hd, squeeze_eq_words] at hrest
            split at hrest
            · simp at hrest
            · rw [(List.cons_prefix_cons.1 hrest).1] at hb
              cases hb
          | false =>
            rw [squeeze_word hd] at hrest
            rw [(List.cons_prefix_cons.1 hrest).1]
            exact ⟨[], ds, rfl⟩
      · exact hlift (ih hinfix)

@[simp] theorem isBlank_slash : isBlank '/' = false := rfl

@[simp] theorem isBlank_star : isBlank '*' = false := rfl

@[simp] theorem isBlank_hash : isBlank '#' = false := rfl

/-- Blanks and block comments, as they may stand between two tokens. -/
inductive Spacing : List Char → Prop
  | nil : Spacing []
  | blank {c : Char} {cs : List Char} (hascii : c.toNat < 128) (hblank : isBlank c = true)
      (hrest : Spacing cs) : Spacing (c :: cs)
  | comment {inner cs : List Char} (hinner : ¬['*', '/'] <:+: inner) (hrest : Spacing cs) :
      Spacing ('/' :: '*' :: (inner ++ '*' :: '/' :: cs))

theorem Spacing.append (h : Spacing cs) (h' : Spacing cs') : Spacing (cs ++ cs') := by
  induction h with
  | nil => exact h'
  | blank hascii hblank _ ih => exact .blank hascii hblank ih
  | @comment inner cs hinner _ ih =>
    have hcomment := Spacing.comment hinner ih
    simpa using hcomment

theorem infix_of_infix_tighten {a b : Char} (ha : isBlank a = false) (hb : isBlank b = false)
    (h : [a, b] <:+: tighten pending cs) : [a, b] <:+: cs := by
  rw [tighten] at h
  split at h
  · rcases List.infix_concat_iff.1 h with hsuffix | hinfix
    · have hlast := hsuffix.getLast (by simp)
      simp only [List.getLast_append_singleton, List.getLast_cons_cons, List.getLast_singleton] at hlast
      rw [hlast] at hb
      cases hb
    · exact infix_of_infix_squeeze ha hb hinfix
  · rw [List.append_nil] at h
    exact infix_of_infix_squeeze ha hb h

/-- Blanks and comments stay blanks and comments. -/
theorem Spacing.squeeze (h : Spacing cs) (pending : Bool) : Spacing (squeeze pending cs) := by
  induction h generalizing pending with
  | nil => exact .nil
  | blank _ hblank _ ih =>
    rw [squeeze_blank hblank]
    exact ih true
  | @comment inner cs hinner _ ih =>
    have hcomment : Spacing ('/' :: '*' :: (tighten false inner ++ '*' :: '/' :: Text.squeeze false cs)) :=
      .comment (fun h => hinner (infix_of_infix_tighten isBlank_star isBlank_slash h)) (ih false)
    rw [squeeze_pending isBlank_slash, squeeze_word isBlank_star, squeeze_append_word isBlank_star,
      squeeze_word isBlank_star, squeeze_word isBlank_slash]
    cases pending with
    | false => exact hcomment
    | true => exact .blank (by decide) rfl hcomment

theorem Spacing.tighten (h : Spacing cs) (pending : Bool) : Spacing (tighten pending cs) := by
  refine (h.squeeze pending).append ?_
  split
  · exact .blank (by decide) rfl .nil
  · exact .nil

/-- Blanks and comments, of which the last may be a line that no line feed needs to end. -/
def Gap (cs : List Char) : Prop :=
  ∃ spacing line, cs = spacing ++ line ∧ Spacing spacing ∧
    (line = [] ∨ ['/', '/'] <+: line ∨ ['#'] <+: line)

theorem Spacing.gap (h : Spacing cs) : Gap cs := ⟨cs, [], by simp, h, .inl rfl⟩

theorem Gap.append_spacing (h : Spacing cs) (h' : Gap cs') : Gap (cs ++ cs') := by
  obtain ⟨spacing, line, rfl, hspacing, hline⟩ := h'
  exact ⟨cs ++ spacing, line, by simp, h.append hspacing, hline⟩

/-- A line stays a line. -/
theorem Gap.squeeze (h : Gap cs) (pending : Bool) : Gap (squeeze pending cs) := by
  obtain ⟨spacing, line, rfl, hspacing, hline⟩ := h
  rcases hline with rfl | ⟨rest, rfl⟩ | ⟨rest, rfl⟩
  · rw [List.append_nil]
    exact (hspacing.squeeze pending).gap
  · refine ⟨Text.tighten pending spacing, '/' :: '/' :: Text.squeeze false rest, ?_,
      hspacing.tighten pending, .inr (.inl ⟨_, rfl⟩)⟩
    rw [List.cons_append, squeeze_append_word isBlank_slash, List.singleton_append,
      squeeze_word isBlank_slash, squeeze_word isBlank_slash]
  · refine ⟨Text.tighten pending spacing, '#' :: Text.squeeze false rest, ?_,
      hspacing.tighten pending, .inr (.inr ⟨_, rfl⟩)⟩
    rw [List.singleton_append, squeeze_append_word isBlank_hash, squeeze_word isBlank_hash]

end ReflectionTables.Text
