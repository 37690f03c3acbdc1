import ReflectionTables.Proofs.PairedFiles
import ReflectionTables.Proofs.StreamReadings
/-!
# The layout of a file does not influence its structure

The layout of a file does not influence the structure that is found. Two ASCII texts with the same
tokens may differ in blanks, comments and preprocessor lines between them. The lists of templates
are cut out of the text, so a list must not be empty, where a blank would tell.
-/

namespace ReflectionTables.Text

variable {text piece : String} {start stop : Nat}

def IsAscii (text : String) : Prop := ∀ c ∈ text.toList, c.toNat < 128

instance (text : String) : Decidable (IsAscii text) := List.decidableBAll _ text.toList

theorem IsAscii.slice? (h : IsAscii text) (hpiece : slice? text start stop = some piece) :
    IsAscii piece := by
  obtain ⟨a, b, rfl, -⟩ := exists_append_of_slice? hpiece
  intro c hc
  refine h c ?_
  simp only [String.toList_append, List.mem_append]
  exact .inr (.inl hc)

end ReflectionTables.Text

namespace ReflectionTables.Parsing

open Text Scanning Reflected Parsing.Parser Reading

variable {text text' : String}

theorem mem_of_mem_commaPieces {depth : Int} {cs piece : List Char}
    (h : piece ∈ commaPieces depth cs) {c : Char} (hc : c ∈ piece) : c ∈ cs := by
  induction cs generalizing depth piece with
  | nil =>
    rw [commaPieces, List.mem_singleton] at h
    rw [h] at hc
    exact hc
  | cons d cs ih =>
    rw [commaPieces] at h
    split at h
    · rcases List.mem_cons.1 h with rfl | h
      · cases hc
      · exact List.mem_cons_of_mem d (ih h hc)
    split at h
    · rename_i first pieces hpieces
      rcases List.mem_cons.1 h with rfl | h
      · rcases List.mem_cons.1 hc with rfl | hc
        · exact List.mem_cons_self
        · exact List.mem_cons_of_mem d (ih (by rw [hpieces]; exact List.mem_cons_self) hc)
      · exact List.mem_cons_of_mem d (ih (by rw [hpieces]; exact List.mem_cons_of_mem first h) hc)
    · rw [List.mem_singleton] at h
      rw [h, List.mem_singleton] at hc
      rw [hc]
      exact List.mem_cons_self

theorem mem_of_mem_parameterPieces {cs piece : List Char} (h : piece ∈ parameterPieces cs) {c : Char}
    (hc : c ∈ piece) : c ∈ cs := by
  rw [parameterPieces] at h
  split at h
  · split at h
    · exact mem_of_mem_commaPieces ((List.dropLast_sublist _).subset h) hc
    · exact mem_of_mem_commaPieces h hc
  · cases h

theorem mem_of_mem_trimChars {cs : List Char} {c : Char} (h : c ∈ trimChars cs) : c ∈ cs := by
  rw [trimChars, List.mem_reverse] at h
  have h := (List.dropWhile_sublist _).subset h
  rw [List.mem_reverse] at h
  exact (List.dropWhile_sublist _).subset h

theorem isSome_parameterArgument {piece : List Char} (h : ∀ c ∈ piece, c.toNat < 128) :
    (parameterArgument piece).isSome = true := by
  have hcuts : ((parameterHead piece).reverse.dropWhile isWordChar).head?.all
      (·.utf8Size == 1) = true := by
    rw [Option.all_eq_true]
    intro c hc
    have hmem := (List.dropWhile_sublist _).subset (List.mem_of_mem_head? hc)
    rw [List.mem_reverse, parameterHead] at hmem
    have hlt := h c ((List.takeWhile_sublist _).subset (mem_of_mem_trimChars hmem))
    have hsize : c.utf8Size = 1 := by
      have hval : c.val.toNat < 128 := hlt
      rw [Char.utf8Size, if_pos (by rw [UInt32.le_iff_toNat_le]; exact Nat.le_of_lt_succ hval)]
    simp [hsize]
  simp only [parameterArgument, hcuts]
  split
  · simp at *
  split
  · rfl
  split <;> rfl

theorem isSome_mapM {α β : Type} {f : α → Option β} {l : List α} (h : ∀ a ∈ l, (f a).isSome = true) :
    (l.mapM f).isSome = true := by
  induction l with
  | nil => rfl
  | cons a l ih =>
    obtain ⟨b, hb⟩ := Option.isSome_iff_exists.1 (h a List.mem_cons_self)
    obtain ⟨bs, hbs⟩ := Option.isSome_iff_exists.1
      (ih fun a' ha' => h a' (List.mem_cons_of_mem a ha'))
    rw [List.mapM_cons, hb, hbs]
    rfl

theorem isSome_arguments? {parameters : String} (h : IsAscii parameters) :
    (arguments? parameters).isSome = true := by
  have hsome := isSome_mapM (l := parameterPieces parameters.toList) fun piece hpiece =>
    isSome_parameterArgument fun c hc => h c (mem_of_mem_parameterPieces hpiece hc)
  obtain ⟨arguments, harguments⟩ := Option.isSome_iff_exists.1 hsome
  rw [arguments?, harguments]
  rfl

/-- What a token is without its place. -/
def spelling (t : Token) : TokenKind × String := (t.kind, t.text)

def noListClosesAtOnce : List (TokenKind × String) → Bool
  | word :: opening :: close :: rest =>
    !(word == (.ident, "template") && opening.1 == .lt && close.1 == .gt) &&
      noListClosesAtOnce (opening :: close :: rest)
  | _ => true

theorem noListClosesAtOnce_tail {word : TokenKind × String} {rest : List (TokenKind × String)}
    (h : noListClosesAtOnce (word :: rest) = true) : noListClosesAtOnce rest = true := by
  match rest with
  | [] | [_] => rfl
  | opening :: close :: rest =>
    rw [noListClosesAtOnce, Bool.and_eq_true] at h
    exact h.2

theorem noListClosesAtOnce_append {before rest : List (TokenKind × String)}
    (h : noListClosesAtOnce (before ++ rest) = true) : noListClosesAtOnce rest = true := by
  induction before with
  | nil => exact h
  | cons word before ih => exact ih (noListClosesAtOnce_tail h)

theorem spelling_of_templateWord {t : Token} (h : t.reserved? = some .templateWord) :
    spelling t = (.ident, "template") := by
  have htext : t.text = "template" := by
    simpa [ReservedWord.table] using Token.mem_table_of_reserved? h
  rw [spelling, Token.kind_of_reserved? h, htext]

theorem plainLists (hascii : IsAscii text)
    (h : noListClosesAtOnce ((tokensOf text).1.map spelling) = true) : PlainLists text := by
  refine ⟨fun before word opening close after hsplit hword hopening hclose => ?_,
    fun _ _ _ hpiece => isSome_arguments? (hascii.slice? hpiece)⟩
  rw [hsplit, List.map_append] at h
  have h := noListClosesAtOnce_append h
  simp only [List.map_cons, noListClosesAtOnce, Bool.and_eq_true, Bool.not_eq_true'] at h
  have hempty := h.1
  rw [spelling_of_templateWord hword] at hempty
  simp [spelling, hopening, hclose] at hempty

def anyPlace : Likeness := .atTop False 0

theorem forall₂_of_spelling {depth : Nat} {ts ts' : List Token} (h : Nested depth ts)
    (h' : Nested depth ts') (hsame : ts'.map spelling = ts.map spelling) :
    List.Forall₂ anyPlace.Tokens ts ts' := by
  induction ts generalizing depth ts' with
  | nil =>
    rw [List.map_nil, List.map_eq_nil_iff] at hsame
    rw [hsame]
    exact .nil
  | cons t ts ih =>
    obtain ⟨t', ts', rfl, ht, hts⟩ := List.map_eq_cons_iff.1 hsame
    simp only [spelling, Prod.mk.injEq] at ht
    obtain ⟨-, hdepth, hnested⟩ := h
    obtain ⟨-, hdepth', hnested'⟩ := h'
    rw [ht.1] at hdepth' hnested'
    exact .cons ⟨ht.1, ht.2, hdepth'.trans hdepth.symm, False.elim⟩ (ih hnested hnested' hts)

theorem endings_of_spelling (hsame : (tokensOf text').1.map spelling = (tokensOf text).1.map spelling)
    (hok : ∃ t, (tokensOf text).2 = .ok t) (hok' : ∃ t, (tokensOf text').2 = .ok t) :
    anyPlace.Endings text text' (tokensOf text).2 (tokensOf text').2 := by
  obtain ⟨t, ht⟩ := hok
  obtain ⟨t', ht'⟩ := hok'
  have hall := forall₂_of_spelling (nested_tokensOf text) (nested_tokensOf text') hsame
  rw [ht, ht', ending_tokensOf ht, ending_tokensOf ht']
  exact ⟨rfl, rfl, Likeness.depthBehind_eq hall 0, False.elim⟩

def samePairing (hsame : (tokensOf text').1.map spelling = (tokensOf text).1.map spelling)
    (hok : ∃ t, (tokensOf text).2 = .ok t) (hok' : ∃ t, (tokensOf text').2 = .ok t) :
    Pairing text text' :=
  .ofWhole anyPlace [] {} Pairing.depthBehind_nothing (fun _ => nofun) False.elim
    (endings_of_spelling hsame hok hok')

/-- Whether two files have the same structure: types of the same kinds with the same members and
enumerators in the same order, declarations of the same kinds, and as many `extern` lines and
remarks. -/
structure SameStructure (f f' : Findings) : Prop where
  types : f'.types.map ReflectedType.shape = f.types.map ReflectedType.shape
  declarations : f'.declarations.map (·.tag) = f.declarations.map (·.tag)
  externs : f'.externs.length = f.externs.length
  remarks : f'.remarks.length = f.remarks.length

theorem SameStructure.of_shape {f f' : Findings} (h : f'.shape = f.shape) : SameStructure f f' := by
  refine ⟨congrArg Findings.types h, ?_, ?_, ?_⟩
  · have hmap := congrArg (fun f => f.declarations.map (·.tag)) h
    simpa [Findings.shape, Function.comp_def, Declaration.shape] using hmap
  · simpa [Findings.shape] using congrArg (fun f => f.externs.length) h
  · simpa [Findings.shape] using congrArg (fun f => f.remarks.length) h

/-- Two ASCII texts with the same tokens are both readable or both not, and have the same
structure. -/
theorem structure_of_tokens (role : FileRole) (hascii : IsAscii text) (hascii' : IsAscii text')
    (hok : ∃ t, (tokensOf text).2 = .ok t) (hok' : ∃ t, (tokensOf text').2 = .ok t)
    (hsame : (tokensOf text').1.map spelling = (tokensOf text).1.map spelling)
    (hlists : noListClosesAtOnce ((tokensOf text).1.map spelling) = true) :
    match findingsOf role text, findingsOf role text' with
    | .ok f, .ok f' => SameStructure f f'
    | .error _, .error _ => True
    | _, _ => False := by
  let P := samePairing hsame hok hok'
  have hall := forall₂_of_spelling (nested_tokensOf text) (nested_tokensOf text') hsame
  have : Fact P.top := ⟨trivial⟩
  have htogether : P.Together (.new role text) (.new role text') :=
    ⟨rfl, ⟨[], rfl, .nil⟩, ⟨_, (List.append_nil _).symm, hall⟩, rfl, ⟨[], rfl, .nil⟩, rfl, fun _ => rfl⟩
  have hplain : P.ListsAlike :=
    .inr ⟨plainLists hascii hlists, plainLists hascii' (by rw [hsame]; exact hlists)⟩
  have houtcomes := Pairing.outcomes_fileItems trivial hplain htogether
  rw [findingsOf_eq, findingsOf_eq]
  cases hrun : fileItems.run Reading.machine (.new role text) <;>
    cases hrun' : fileItems.run Reading.machine (.new role text') <;> rw [hrun, hrun'] at houtcomes
  · trivial
  · exact houtcomes trivial
  · exact houtcomes.elim
  · exact .of_shape houtcomes.2.findings_shape

/-- Blanks and a comment change neither the record nor the enumeration, and one span is left unread. -/
theorem structure_of_tokens_respaced :
    match findingsOf .header
        "template <class T> struct A \x7b T a; int b[2]; \x7d; enum C \x7b red, blue \x7d; 42;",
      findingsOf .header
        "template< class T >\nstruct A \x7b // a\n\tT a;\nint b[ 2 ]; \x7d;\nenum C \x7b red, blue \x7d; 42 ;" with
    | .ok f, .ok f' => SameStructure f f'
    | .error _, .error _ => True
    | _, _ => False :=
  structure_of_tokens .header (by decide +kernel) (by decide +kernel)
    ⟨⟨.endOfText, "", 73, 0⟩, by decide +kernel⟩ ⟨⟨.endOfText, "", 83, 0⟩, by decide +kernel⟩
    (by decide +kernel) (by decide +kernel)

end ReflectionTables.Parsing
