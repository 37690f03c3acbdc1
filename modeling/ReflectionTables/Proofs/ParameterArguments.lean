import ReflectionTables.Proofs.CommaPieces
import ReflectionTables.Proofs.OneLineTexts
import ReflectionTables.Proofs.RescannedSpans
/-!
# The arguments for a list of parameters

The arguments for a comma list of parameters, which are laid out as tokens with blanks between them.
A parameter is names or a template head, dots if it is a pack, its own name, and a default. Where
the list is cut into its parameters, each of them gives its name. It is, if all brackets pair up and
no operator or literal has a bracket or a comma in it.
-/

namespace ReflectionTables.Scanning

open Text ByteSearch Parsing

section Names

variable {t : Token} {b : UInt8} {c : Char} {cs : List Char} {bytes : List UInt8} {start : Nat}

/-- A name ends in front of a byte that belongs to no name. -/
theorem isNameByte_nameEnd (h : bytes[nameEnd bytes start]? = some b) : isNameByte b = false := by
  fun_induction nameEnd bytes start with
  | case1 start hnone => simp at h
  | case2 start i hi hjoins ih => exact ih h
  | case3 start i hi hjoins =>
    obtain ⟨b', hb', hother, -⟩ := getElem?_of_findClass hi
    rw [h, Option.some.injEq] at hb'
    rw [hb']
    simpa using hother

theorem isWordChar_of_isNameByte (h : isNameByte b = true) (hc : c.toNat = b.toNat) :
    isWordChar c = true := by
  have hchar : Char.ofNat b.toNat = c := by rw [← hc, Char.ofNat_toNat]
  rw [isNameByte, hchar, Bool.or_eq_true, beq_iff_eq] at h
  rw [isWordChar, Bool.or_eq_true, beq_iff_eq]
  refine h.imp_right fun hb => ?_
  rw [← hchar, hb]
  rfl

theorem isNameByte_of_isWordChar (h : isWordChar c = true) : isNameByte (UInt8.ofNat c.toNat) = true := by
  have hascii := toNat_lt_of_isWordChar h
  have hbyte : (UInt8.ofNat c.toNat).toNat = c.toNat := by
    rw [UInt8.toNat_ofNat']
    omega
  rw [isWordChar, Bool.or_eq_true, beq_iff_eq] at h
  rw [isNameByte, hbyte, Char.ofNat_toNat, Bool.or_eq_true, beq_iff_eq]
  refine h.imp_right ?_
  rintro rfl
  rfl

theorem mem_charBytes_of_ascii (hascii : ∀ b ∈ charBytes cs, b.toNat < 128) (hc : c ∈ cs) :
    ∃ b ∈ charBytes cs, c.toNat = b.toNat := by
  obtain ⟨before, after, rfl⟩ := List.append_of_mem hc
  rw [charBytes_append, charBytes_cons] at hascii ⊢
  have hlt : c.toNat < 128 := by
    by_contra hbeyond
    obtain ⟨b, hb⟩ := List.exists_mem_of_length_pos
      (Nat.lt_of_lt_of_eq c.utf8Size_pos (String.length_utf8EncodeChar c).symm)
    have hle := le_of_mem_utf8EncodeChar (Nat.le_of_not_lt hbeyond) hb
    have := hascii b (List.mem_append_right _ (List.mem_append_left _ hb))
    omega
  refine ⟨UInt8.ofNat c.toNat, ?_, ?_⟩
  · rw [utf8EncodeChar_of_ascii hlt]
    simp
  · rw [UInt8.toNat_ofNat']
    omega

instance (t : Token) (cs : List Char) : Decidable (t.ReadBefore cs) :=
  match hbytes : charBytes t.text.toList with
  | [] => .isFalse fun ⟨_, _, hsome, _⟩ => by simp [hbytes] at hsome
  | b :: xs => decidable_of_iff
      (Trivia.ofBytes (b :: (xs ++ charBytes cs)) = .absent ∧
        Lexeme.ofBytes b (xs ++ charBytes cs) = .token t.kind (xs.length + 1)) <| by
      simp [Token.ReadBefore, hbytes]

theorem Token.ReadBefore.isWordChar_or_colon (h : t.ReadBefore cs) (hkind : t.kind = .ident)
    (hc : c ∈ t.text.toList) : isWordChar c = true ∨ c = ':' := by
  obtain ⟨b, xs, hbytes, -, hlexeme⟩ := h
  rw [hkind] at hlexeme
  have hlength := Lexeme.length_of_ident hlexeme
  have hname : ∀ b' ∈ charBytes t.text.toList, isNameByte b' = true ∨ b' = colon := by
    intro b' hb'
    rw [hbytes] at hb'
    obtain rfl | hb' := List.mem_cons.1 hb'
    · exact .inl (isNameByte_of_isNameStart (Lexeme.isNameStart_of_ident hlexeme))
    · obtain ⟨i, hi, rfl⟩ := List.getElem_of_mem hb'
      have hget : (b :: (xs ++ charBytes cs))[i + 1]? = some xs[i] := by
        rw [List.getElem?_cons_succ, List.getElem?_append_left hi, List.getElem?_eq_getElem hi]
      have hlt : i + 1 < nameEnd (b :: (xs ++ charBytes cs)) 1 := by omega
      exact isNameByte_of_lt_nameEnd (Nat.le_add_left 1 i) hlt hget
  have hascii : ∀ b' ∈ charBytes t.text.toList, b'.toNat < 128 := by
    intro b' hb'
    obtain hb' | rfl := hname b' hb'
    · exact toNat_lt_of_isNameByte hb'
    · decide
  obtain ⟨b', hb', hsame⟩ := mem_charBytes_of_ascii hascii hc
  obtain hb' | rfl := hname b' hb'
  · exact .inl (isWordChar_of_isNameByte hb' hsame)
  · exact .inr (Char.toNat_inj.1 hsame)

theorem Token.ReadBefore.isWordChar_behind (h : t.ReadBefore (c :: cs)) (hkind : t.kind = .ident) :
    isWordChar c = false := by
  by_contra hword
  rw [Bool.not_eq_false] at hword
  obtain ⟨b, xs, -, -, hlexeme⟩ := h
  rw [hkind] at hlexeme
  have hlength := Lexeme.length_of_ident hlexeme
  have hbehind : (b :: (xs ++ charBytes (c :: cs)))[nameEnd (b :: (xs ++ charBytes (c :: cs))) 1]? =
      some (UInt8.ofNat c.toNat) := by
    rw [← hlength, charBytes_ascii (toNat_lt_of_isWordChar hword)]
    simp
  have hother := isNameByte_nameEnd hbehind
  rw [isNameByte_of_isWordChar hword] at hother
  cases hother

/-- An equals sign is spelled in one way only. -/
theorem Token.ReadBefore.text_of_eq (h : t.ReadBefore cs) (hkind : t.kind = .eq) :
    t.text.toList = ['='] := by
  obtain ⟨b, xs, hbytes, -, hlexeme⟩ := h
  rw [hkind] at hlexeme
  have hop := ((Lexeme.ofBytes_cases hlexeme).resolve_left (by simp)).resolve_left (by simp)
  have hsingle : Char.ofNat b.toNat = '=' ∧ xs.length + 1 = 1 := by
    obtain ⟨hc, hn⟩ | ⟨hc, -⟩ | ⟨hc, -⟩ := Lexeme.operator_cases hop
    · unfold TokenKind.single? at hc
      split at hc <;> simp at hc
      exact ⟨‹_›, hn⟩
    · exact absurd (TokenKind.mem_of_doubled? hc) (by simp)
    · exact absurd (TokenKind.mem_of_withEquals? hc) (by simp)
  obtain ⟨hchar, hlength⟩ := hsingle
  have hb : b.toNat < 128 := by
    rw [toNat_of_charOfNat hchar]
    decide
  obtain ⟨c, cs', htext, hc, hrest⟩ := exists_of_charBytes hbytes hb
  obtain rfl : xs = [] := List.eq_nil_of_length_eq_zero (by omega)
  have hnil : cs' = [] := charBytes_injective hrest.symm
  rw [htext, hnil, ← hchar, ← hc, Char.ofNat_toNat]

end Names

end ReflectionTables.Scanning

namespace ReflectionTables.Parsing

open Text Scanning

section Parameters

variable {t : Token} {ts : List Token} {c : Char} {cs ds tail : List Char}

def AreBlanks (cs : List Char) : Prop := ∀ c ∈ cs, c.toNat < 128 ∧ isBlank c = true

instance (cs : List Char) : Decidable (AreBlanks cs) :=
  List.decidableBAll (fun c : Char => c.toNat < 128 ∧ isBlank c = true) cs

/-- Whether characters are laid out as the given tokens with nothing but blanks around them, in front of
`tail`. -/
inductive InBlanks (tail : List Char) : List Token → List Char → Prop
  | gap {cs : List Char} (hgap : AreBlanks cs) : InBlanks tail [] cs
  | token {spacing cs : List Char} {t : Token} {ts : List Token} (hspacing : AreBlanks spacing)
      (ht : t.ReadBefore (cs ++ tail)) (hrest : InBlanks tail ts cs) :
      InBlanks tail (t :: ts) (spacing ++ (t.text.toList ++ cs))

/-- What may introduce the name of a parameter: names, or a `class` with parameters of its own. -/
inductive Introduces : List Token → Prop
  | names {ts : List Token} (hsome : ts ≠ []) (hnames : ∀ t ∈ ts, t.kind = .ident) : Introduces ts
  | templateHead {word opening closing key : Token} {inner : List Token}
      (hword : word.isWord "template" = true) (hopening : opening.kind = .lt)
      (hclosing : closing.kind = .gt ∨ closing.kind = .gtGt) (hkey : key.isWord "class" = true) :
      Introduces (word :: opening :: (inner ++ [closing, key]))

/-- What may follow the name of a parameter: nothing, or an equals sign and any tokens. -/
inductive IsDefault : List Token → Prop
  | absent : IsDefault []
  | given {assign : Token} {ts : List Token} (hassign : assign.kind = .eq) : IsDefault (assign :: ts)

def packDots (isPack : Bool) : List Char := if isPack then ['.', '.', '.'] else []

/-- A parameter of a template without comments, with its characters in front of the name and from there
on. -/
structure Parameter where
  introduction : List Token
  isPack : Bool
  name : Token
  default : List Token
  front : List Char
  back : List Char
  introduces : Introduces introduction
  isName : name.kind = .ident ∧ isQualified name = false
  isDefault : IsDefault default
  front_inBlanks : InBlanks (packDots isPack ++ back) introduction front
  back_inBlanks : InBlanks [] (name :: default) back

def Parameter.chars (p : Parameter) : List Char := p.front ++ (packDots p.isPack ++ p.back)

/-- The argument that names a parameter again. -/
def Parameter.argument (p : Parameter) : String := if p.isPack then p.name.text ++ "..." else p.name.text

/-- Whether what introduces a parameter has no equals sign, and dots only if the parameter is a pack. -/
structure Parameter.HeadPlain (p : Parameter) : Prop where
  assign : '=' ∉ p.front
  dots : hasEllipsis p.front = true → p.isPack = true

theorem inBlanks_cons : InBlanks tail (t :: ts) cs ↔ ∃ spacing rest, cs = spacing ++ (t.text.toList ++ rest) ∧
    AreBlanks spacing ∧ t.ReadBefore (rest ++ tail) ∧ InBlanks tail ts rest := by
  constructor
  · rintro ⟨⟩
    exact ⟨_, _, rfl, ‹_›, ‹_›, ‹_›⟩
  · rintro ⟨spacing, rest, rfl, hspacing, ht, hrest⟩
    exact .token hspacing ht hrest

/-- The blanks at the front and the token behind them can be found in the characters. -/
theorem InBlanks.of_front (h : AreBlanks (cs.takeWhile isBlank) ∧ t.text.toList <+: cs.dropWhile isBlank ∧
      t.ReadBefore ((cs.dropWhile isBlank).drop t.text.length ++ tail))
    (hrest : InBlanks tail ts ((cs.dropWhile isBlank).drop t.text.length)) : InBlanks tail (t :: ts) cs := by
  obtain ⟨hspacing, ⟨rest, hfront⟩, ht⟩ := h
  rw [← hfront, ← String.length_toList, List.drop_left] at ht hrest
  refine inBlanks_cons.2 ⟨cs.takeWhile isBlank, rest, ?_, hspacing, ht, hrest⟩
  rw [hfront, List.takeWhile_append_dropWhile]

theorem InBlanks.cases_of_names (h : InBlanks tail ts cs) (hnames : ∀ t ∈ ts, t.kind = .ident)
    (hc : c ∈ cs) : isBlank c = true ∨ isWordChar c = true ∨ c = ':' := by
  induction h with
  | gap hgap => exact .inl (hgap c hc).2
  | @token spacing cs t ts hspacing ht hrest ih =>
    rw [List.mem_append, List.mem_append] at hc
    obtain hc | hc | hc := hc
    · exact .inl (hspacing c hc).2
    · exact .inr (ht.isWordChar_or_colon (hnames t List.mem_cons_self) hc)
    · exact ih (fun u hu => hnames u (List.mem_cons_of_mem t hu)) hc

theorem Parameter.headPlain_of_names {p : Parameter} (hnames : ∀ t ∈ p.introduction, t.kind = .ident) :
    p.HeadPlain := by
  have hcases : ∀ c ∈ p.front, _ := fun c hc => p.front_inBlanks.cases_of_names hnames hc
  constructor
  · intro hc
    exact absurd (hcases '=' hc) (by decide)
  · intro hdots
    have hc := (hasEllipsis_iff.1 hdots).subset List.mem_cons_self
    exact absurd (hcases '.' hc) (by decide)

theorem EndsOutsideWord.append (hds : EndsOutsideWord ds) (hcs : ds = [] → EndsOutsideWord cs) :
    EndsOutsideWord (cs ++ ds) := by
  intro c hc
  rw [List.getLast?_append] at hc
  cases hlast : ds.getLast? with
  | none =>
    rw [hlast] at hc
    exact hcs (List.getLast?_eq_none_iff.1 hlast) c hc
  | some d =>
    rw [hlast] at hc
    exact hds c (hlast.trans hc)

theorem AreBlanks.endsOutsideWord (h : AreBlanks cs) : EndsOutsideWord cs := by
  intro c hc
  obtain ⟨hascii, hblank⟩ := h c (List.mem_of_getLast? hc)
  refine ⟨?_, hascii⟩
  by_contra hword
  rw [Bool.not_eq_false] at hword
  rw [isBlank_of_isWordChar hword] at hblank
  cases hblank

theorem endsOutsideWord_packDots (isPack : Bool) : EndsOutsideWord (packDots isPack) := by
  intro c hc
  cases isPack <;> cases hc
  decide

/-- Where a word begins behind a name, blanks stand between them. -/
theorem InBlanks.endsOutsideWord (h : InBlanks (c :: tail) (ts ++ [t]) cs) (ht : t.kind = .ident)
    (hc : isWordChar c = true) : cs ≠ [] ∧ EndsOutsideWord cs := by
  induction ts generalizing cs with
  | nil =>
    cases h with
    | @token spacing gap _ _ hspacing hbefore hrest =>
      cases hrest with
      | gap hgap =>
        have hsome : gap ≠ [] := by
          rintro rfl
          rw [hbefore.isWordChar_behind ht] at hc
          cases hc
        have hends : EndsOutsideWord (t.text.toList ++ gap) :=
          hgap.endsOutsideWord.append fun hnil => absurd hnil hsome
        exact ⟨by simp [hsome], hends.append fun hnil => absurd hnil (by simp [hsome])⟩
  | cons u ts ih =>
    cases h with
    | @token spacing cs _ _ hspacing hbefore hrest =>
      obtain ⟨hsome, hends⟩ := ih hrest
      have hends' : EndsOutsideWord (u.text.toList ++ cs) := hends.append fun hnil => absurd hnil hsome
      exact ⟨by simp [hsome], hends'.append fun hnil => absurd hnil (by simp [hsome])⟩

theorem Introduces.exists_last (h : Introduces ts) : ∃ us t, ts = us ++ [t] ∧ t.kind = .ident := by
  cases h with
  | names hsome hnames =>
    refine ⟨ts.dropLast, ts.getLast hsome, (List.dropLast_concat_getLast hsome).symm, ?_⟩
    exact hnames _ (List.getLast_mem hsome)
  | @templateHead word opening closing key inner _ _ _ hkey =>
    refine ⟨word :: opening :: (inner ++ [closing]), key, by simp, ?_⟩
    rw [Token.isWord, Bool.and_eq_true, beq_iff_eq] at hkey
    exact hkey.1

/-- Behind the name come blanks, and then nothing or an equals sign. -/
theorem IsDefault.exists_gap (h : IsDefault ts) (hlaid : InBlanks tail ts cs) :
    ∃ gap value, cs = gap ++ value ∧ AreBlanks gap ∧ (value = [] ∨ ∃ ds, value = '=' :: ds) := by
  cases h with
  | absent =>
    cases hlaid with
    | gap hgap => exact ⟨cs, [], by simp, hgap, .inl rfl⟩
  | given hassign =>
    cases hlaid with
    | @token spacing cs _ _ hspacing hbefore hrest =>
      refine ⟨spacing, _, rfl, hspacing, .inr ⟨cs, ?_⟩⟩
      rw [hbefore.text_of_eq hassign, List.singleton_append]

namespace Parameter

variable (p : Parameter)

theorem isWordChar_name : ∀ c ∈ p.name.text.toList, isWordChar c = true := by
  intro c hc
  obtain ⟨_, _, -, -, hbefore, -⟩ := inBlanks_cons.1 p.back_inBlanks
  refine (hbefore.isWordChar_or_colon p.isName.1 hc).resolve_right ?_
  rintro rfl
  have hplain := p.isName.2
  rw [isQualified, List.contains_eq_mem, decide_eq_false_iff_not] at hplain
  exact hplain hc

theorem name_ne_nil : p.name.text.toList ≠ [] := by
  obtain ⟨_, _, -, -, hbefore, -⟩ := inBlanks_cons.1 p.back_inBlanks
  exact hbefore.text_ne_nil

/-- A parameter is what leads to its name, the name, blanks, and its default. -/
theorem exists_layout : ∃ lead gap value, p.chars = lead ++ (p.name.text.toList ++ (gap ++ value)) ∧
    EndsOutsideWord lead ∧ AreBlanks gap ∧ (value = [] ∨ ∃ cs, value = '=' :: cs) ∧
    (p.HeadPlain → '=' ∉ lead ∧ hasEllipsis lead = p.isPack) := by
  obtain ⟨spacing, rest, hback, hspacing, hbefore, hrest⟩ := inBlanks_cons.1 p.back_inBlanks
  obtain ⟨gap, value, rfl, hgap, hvalue⟩ := p.isDefault.exists_gap hrest
  refine ⟨p.front ++ (packDots p.isPack ++ spacing), gap, value, ?_, ?_, hgap, hvalue, fun hplain => ⟨?_, ?_⟩⟩
  · rw [chars, hback]
    simp
  · have hbehind : EndsOutsideWord (packDots p.isPack ++ spacing) :=
      hspacing.endsOutsideWord.append fun _ => endsOutsideWord_packDots p.isPack
    refine hbehind.append fun hnone => ?_
    -- Without dots and blanks, the name begins right behind what introduces it.
    rw [List.append_eq_nil_iff] at hnone
    obtain ⟨d, name, hname⟩ := List.exists_cons_of_ne_nil p.name_ne_nil
    obtain ⟨us, t, hlast, ht⟩ := p.introduces.exists_last
    have hd : isWordChar d = true := p.isWordChar_name d (by rw [hname]; exact List.mem_cons_self)
    have hfront := p.front_inBlanks
    rw [hnone.1, hback, hnone.2, hname, hlast] at hfront
    exact (hfront.endsOutsideWord ht hd).2
  · rw [List.mem_append, List.mem_append, not_or, not_or]
    refine ⟨hplain.assign, ?_, fun hc => absurd (hspacing _ hc).2 (by decide)⟩
    cases p.isPack <;> decide
  · have hdots : '.' ∉ spacing := fun hc => absurd (hspacing _ hc).2 (by decide)
    rw [← List.append_assoc, hasEllipsis_append hdots]
    cases hpack : p.isPack with
    | false =>
      rw [packDots, if_neg Bool.false_ne_true, List.append_nil, Bool.eq_false_iff]
      intro hfront
      rw [hplain.dots hfront] at hpack
      cases hpack
    | true => exact hasEllipsis_iff.2 (List.suffix_append p.front _).isInfix

theorem parameterArgument_chars (hplain : p.HeadPlain) :
    parameterArgument p.chars = some (some p.argument.toList) := by
  obtain ⟨lead, gap, value, hchars, hlead, hgap, hvalue, hhead⟩ := p.exists_layout
  obtain ⟨hassign, hdots⟩ := hhead hplain
  rw [hchars, parameterArgument_eq hlead hassign p.isWordChar_name p.name_ne_nil (fun c hc => (hgap c hc).2)
    hvalue, hdots, argument]
  cases p.isPack <;> simp

theorem all_isBlank_chars : p.chars.all isBlank = false := by
  obtain ⟨lead, gap, value, hchars, -⟩ := p.exists_layout
  obtain ⟨c, hc⟩ := List.exists_mem_of_ne_nil _ p.name_ne_nil
  rw [List.all_eq_false]
  refine ⟨c, ?_, ?_⟩
  · rw [hchars]
    simp [hc]
  · rw [isBlank_of_isWordChar (p.isWordChar_name c hc)]
    exact Bool.false_ne_true

end Parameter

/-- The arguments name the parameters again, where the list is cut into them. -/
theorem arguments?_of_parameterPieces {ps : List Parameter} {text : String}
    (hpieces : parameterPieces text.toList = ps.map Parameter.chars) (hplain : ∀ p ∈ ps, p.HeadPlain) :
    arguments? text = some (", ".intercalate (ps.map Parameter.argument)) := by
  have hnames : (ps.map Parameter.chars).mapM parameterArgument =
      some (ps.map fun p => some p.argument.toList) := by
    clear hpieces
    induction ps with
    | nil => rfl
    | cons p ps ih =>
      rw [List.forall_mem_cons] at hplain
      rw [List.map_cons, List.mapM_cons, p.parameterArgument_chars hplain.1, ih hplain.2]
      rfl
  have hargument : (String.ofList ∘ fun p : Parameter => p.argument.toList) = Parameter.argument := by
    funext p
    exact String.ofList_toList
  rw [arguments?, hpieces, hnames]
  simp [List.filterMap_map, hargument]

end Parameters

section Brackets

variable {t : Token} {ts inner : List Token} {c : Char} {cs ds tail : List Char} {depth : Int} {commas : Bool}

def isMark (c : Char) : Bool := nestingStep c != 0 || c == ','

theorem isMark_eq_false : isMark c = false ↔ nestingStep c = 0 ∧ c ≠ ',' := by
  rw [isMark, Bool.or_eq_false_iff, bne_eq_false_iff_eq, beq_eq_false_iff_ne]

@[simp] theorem nesting_filter (cs : List Char) : nesting (cs.filter isMark) = nesting cs := by
  induction cs with
  | nil => rfl
  | cons c cs ih =>
    cases hmark : isMark c with
    | true => rw [List.filter_cons_of_pos hmark, nesting_cons, nesting_cons, ih]
    | false =>
      rw [List.filter_cons_of_neg (by simp [hmark]), nesting_cons, (isMark_eq_false.1 hmark).1,
        Int.zero_add, ih]

@[simp] theorem commasNested_filter : CommasNested depth (cs.filter isMark) ↔ CommasNested depth cs := by
  induction cs generalizing depth with
  | nil => rfl
  | cons c cs ih =>
    cases hmark : isMark c with
    | true => rw [List.filter_cons_of_pos hmark, commasNested_cons, commasNested_cons, ih]
    | false =>
      obtain ⟨hstep, hcomma⟩ := isMark_eq_false.1 hmark
      rw [List.filter_cons_of_neg (by simp [hmark]), commasNested_cons, hstep, Int.add_zero, ih]
      exact ⟨fun h => ⟨fun hc => absurd hc hcomma, h⟩, And.right⟩

def tokenChars (ts : List Token) : List Char := ts.flatMap (·.text.toList)

@[simp] theorem tokenChars_cons (t : Token) (ts : List Token) :
    tokenChars (t :: ts) = t.text.toList ++ tokenChars ts := List.flatMap_cons

@[simp] theorem tokenChars_append (ts us : List Token) :
    tokenChars (ts ++ us) = tokenChars ts ++ tokenChars us := List.flatMap_append

theorem AreBlanks.filter_isMark (h : AreBlanks cs) : cs.filter isMark = [] := by
  rw [List.filter_eq_nil_iff]
  intro c hc hmark
  have hblank := (h c hc).2
  rw [isMark, Bool.or_eq_true, bne_iff_ne, beq_iff_eq] at hmark
  obtain hstep | rfl := hmark
  · refine hstep ?_
    rw [nestingStep, if_neg, if_neg] <;>
      (rintro (rfl | rfl | rfl | rfl) <;> cases hblank)
  · cases hblank

theorem InBlanks.filter_isMark (h : InBlanks tail ts cs) :
    cs.filter isMark = (tokenChars ts).filter isMark := by
  induction h with
  | gap hgap => exact hgap.filter_isMark
  | token hspacing ht hrest ih =>
    rw [tokenChars_cons, List.filter_append, List.filter_append, List.filter_append,
      hspacing.filter_isMark, ih, List.nil_append]

def bracketPairs : List (String × String) := [("<", ">"), ("(", ")"), ("[", "]"), ("\x7b", "\x7d")]

/-- Tokens in which brackets of all four kinds pair up; `>>` closes two lists. No other token has a
bracket or a comma in it, and commas stand outside brackets only if the flag says so. -/
inductive Bracketed : Bool → List Token → Prop
  | nil {commas : Bool} : Bracketed commas []
  | token {commas : Bool} {t : Token} {ts : List Token} (ht : t.text.toList.any isMark = false)
      (hrest : Bracketed commas ts) : Bracketed commas (t :: ts)
  | comma {t : Token} {ts : List Token} (ht : t.text = ",") (hrest : Bracketed true ts) :
      Bracketed true (t :: ts)
  | empty {commas : Bool} {t : Token} {ts : List Token} (ht : t.text = "()" ∨ t.text = "[]")
      (hrest : Bracketed commas ts) : Bracketed commas (t :: ts)
  | group {commas : Bool} {opening closing : Token} {inner ts : List Token}
      (hpair : (opening.text, closing.text) ∈ bracketPairs) (hinner : Bracketed true inner)
      (hrest : Bracketed commas ts) : Bracketed commas (opening :: (inner ++ closing :: ts))
  | lists {commas : Bool} {outer opening closing : Token} {front inner ts : List Token}
      (houter : outer.text = "<") (hfront : Bracketed true front) (hopening : opening.text = "<")
      (hinner : Bracketed true inner) (hclosing : closing.text = ">>") (hrest : Bracketed commas ts) :
      Bracketed commas (outer :: (front ++ opening :: (inner ++ closing :: ts)))

/-- Whether characters that begin at the given nesting end at it, with no comma at nesting zero. -/
structure Nests (depth : Int) (cs : List Char) : Prop where
  commas : CommasNested depth cs
  zero : nesting cs = 0

theorem nests_nil : Nests depth [] := ⟨commasNested_nil, rfl⟩

theorem Nests.append (h : Nests depth cs) (h' : Nests depth ds) : Nests depth (cs ++ ds) := by
  refine ⟨commasNested_append.2 ⟨h.commas, ?_⟩, by rw [nesting_append, h.zero, h'.zero]; rfl⟩
  rw [h.zero, Int.add_zero]
  exact h'.commas

theorem Nests.enclosed {a b : Char} (ha : nestingStep a = 1 ∧ a ≠ ',') (hb : nestingStep b = -1 ∧ b ≠ ',')
    (h : Nests (depth + 1) cs) : Nests depth (a :: (cs ++ [b])) := by
  constructor
  · rw [commasNested_cons, ha.1, commasNested_append, commasNested_cons]
    exact ⟨fun hc => absurd hc ha.2, h.commas, fun hc => absurd hc hb.2, commasNested_nil⟩
  · rw [nesting_cons, nesting_append, nesting_cons, nesting_nil, h.zero, ha.1, hb.1]
    rfl

theorem nests_of_unmarked (h : cs.any isMark = false) : Nests depth cs := by
  have hnone : cs.filter isMark = [] := List.filter_eq_nil_iff.2 (List.any_eq_false.1 h)
  refine ⟨?_, ?_⟩
  · rw [← commasNested_filter, hnone]
    exact commasNested_nil
  · rw [← nesting_filter, hnone]
    rfl

theorem exists_of_mem_bracketPairs {opening closing : String} (h : (opening, closing) ∈ bracketPairs) :
    ∃ a b, opening.toList = [a] ∧ closing.toList = [b] ∧ (nestingStep a = 1 ∧ a ≠ ',') ∧
      nestingStep b = -1 ∧ b ≠ ',' := by
  simp only [bracketPairs, List.mem_cons, Prod.mk.injEq, List.not_mem_nil, or_false] at h
  obtain ⟨rfl, rfl⟩ | ⟨rfl, rfl⟩ | ⟨rfl, rfl⟩ | ⟨rfl, rfl⟩ := h <;>
    exact ⟨_, _, rfl, rfl, by decide, by decide⟩

/-- Tokens whose brackets pair up nest to zero, and commas that stand in brackets stay nested. -/
theorem Bracketed.nests (h : Bracketed commas ts) (hle : 0 ≤ depth) (hcommas : commas = true → depth ≠ 0) :
    Nests depth (tokenChars ts) := by
  induction h generalizing depth with
  | nil => exact nests_nil
  | @token commas t ts ht hrest ih =>
    rw [tokenChars_cons]
    exact (nests_of_unmarked ht).append (ih hle hcommas)
  | @comma t ts ht hrest ih =>
    have hcomma : Nests depth t.text.toList := by
      rw [ht]
      exact ⟨commasNested_cons.2 ⟨fun _ => hcommas rfl, commasNested_nil⟩, rfl⟩
    rw [tokenChars_cons]
    exact hcomma.append (ih hle hcommas)
  | @empty commas t ts ht hrest ih =>
    have hempty : Nests depth t.text.toList := by
      obtain ht | ht := ht <;> rw [ht]
      · exact nests_nil.enclosed (a := '(') (b := ')') (by decide) (by decide)
      · exact nests_nil.enclosed (a := '[') (b := ']') (by decide) (by decide)
    rw [tokenChars_cons]
    exact hempty.append (ih hle hcommas)
  | @group commas opening closing inner ts hpair hinner hrest ihinner ihrest =>
    obtain ⟨a, b, ha, hb, hopen, hclose⟩ := exists_of_mem_bracketPairs hpair
    have hchars : tokenChars (opening :: (inner ++ closing :: ts)) =
        (a :: (tokenChars inner ++ [b])) ++ tokenChars ts := by simp [ha, hb]
    have hinner' : Nests (depth + 1) (tokenChars inner) := ihinner (by omega) (by omega)
    rw [hchars]
    exact (hinner'.enclosed hopen hclose).append (ihrest hle hcommas)
  | @lists commas outer opening closing front inner ts houter hfront hopening hinner hclosing hrest ihfront
      ihinner ihrest =>
    have hchars : tokenChars (outer :: (front ++ opening :: (inner ++ closing :: ts))) =
        ('<' :: ((tokenChars front ++ '<' :: (tokenChars inner ++ ['>'])) ++ ['>'])) ++ tokenChars ts := by
      simp [houter, hopening, hclosing]
    have hangles : (nestingStep '<' = 1 ∧ '<' ≠ ',') ∧ nestingStep '>' = -1 ∧ '>' ≠ ',' := by decide
    have hinner' : Nests (depth + 1 + 1) (tokenChars inner) := ihinner (by omega) (by omega)
    have hfront' : Nests (depth + 1) (tokenChars front) := ihfront (by omega) (by omega)
    have hboth := (hfront'.append (hinner'.enclosed hangles.1 hangles.2)).enclosed hangles.1 hangles.2
    rw [hchars]
    exact hboth.append (ihrest hle hcommas)

@[simp] theorem nests_filter : Nests depth (cs.filter isMark) ↔ Nests depth cs := by
  constructor
  · rintro ⟨hcommas, hzero⟩
    exact ⟨commasNested_filter.1 hcommas, by rw [← nesting_filter, hzero]⟩
  · rintro ⟨hcommas, hzero⟩
    exact ⟨commasNested_filter.2 hcommas, by rw [nesting_filter, hzero]⟩

/-- The tokens of a parameter; the dots of a pack are left out. -/
def Parameter.tokens (p : Parameter) : List Token := p.introduction ++ p.name :: p.default

theorem Parameter.nests_of_bracketed {p : Parameter} (h : Bracketed false p.tokens) : Nests 0 p.chars := by
  have hdots : (packDots p.isPack).filter isMark = [] := by cases p.isPack <;> rfl
  have hmarks : p.chars.filter isMark = (tokenChars p.tokens).filter isMark := by
    rw [chars, tokens, tokenChars_append, List.filter_append, List.filter_append, List.filter_append, hdots,
      p.front_inBlanks.filter_isMark, p.back_inBlanks.filter_isMark, List.nil_append]
  have htokens : Nests 0 (tokenChars p.tokens) := h.nests (Int.le_refl 0) (fun hfalse => by cases hfalse)
  rw [← nests_filter, hmarks, nests_filter]
  exact htokens

end Brackets

/-- The pieces of a comma list of parameters are these parameters just if each of them nests to zero, up
to the last, and no comma in them stands at nesting zero. Then the arguments are the names of the
parameters, with dots behind the packs. So they are wherever brackets pair up and no operator or
literal has a bracket or a comma in it. -/
theorem arguments_of_parameters {ps : List Parameter} {text : String}
    (htext : text.toList = [','].intercalate (ps.map Parameter.chars))
    (hheads : ∀ p ∈ ps, (∀ t ∈ p.introduction, t.kind = .ident) ∨ p.HeadPlain) :
    (parameterPieces text.toList = ps.map Parameter.chars ↔ CutApart (ps.map Parameter.chars)) ∧
      (CutApart (ps.map Parameter.chars) →
        arguments? text = some (", ".intercalate (ps.map Parameter.argument))) ∧
      ((∀ p ∈ ps, Bracketed false p.tokens) →
        arguments? text = some (", ".intercalate (ps.map Parameter.argument))) := by
  have hwords : ∀ piece ∈ ps.map Parameter.chars, piece.all isBlank = false := by
    intro piece hpiece
    obtain ⟨p, -, rfl⟩ := List.mem_map.1 hpiece
    exact p.all_isBlank_chars
  have hiff := parameterPieces_intercalate_iff hwords
  rw [← htext] at hiff
  have hplain : ∀ p ∈ ps, p.HeadPlain := fun p hp => (hheads p hp).elim Parameter.headPlain_of_names id
  have harguments : CutApart (ps.map Parameter.chars) →
      arguments? text = some (", ".intercalate (ps.map Parameter.argument)) := fun hcut =>
    arguments?_of_parameterPieces (hiff.2 hcut) hplain
  refine ⟨hiff, harguments, fun hbracketed => harguments ⟨?_, ?_⟩⟩
  · intro piece hpiece
    obtain ⟨p, hp, rfl⟩ := List.mem_map.1 hpiece
    exact (Parameter.nests_of_bracketed (hbracketed p hp)).commas
  · intro piece hpiece
    obtain ⟨p, hp, rfl⟩ := List.mem_map.1 (List.dropLast_subset _ hpiece)
    exact (Parameter.nests_of_bracketed (hbracketed p hp)).zero

/-- A pack behind a parameter whose default has a list with a comma. -/
theorem arguments_of_parameters_pack :
    arguments? "class T = P<U, V>, class... Us" = some "T, Us..." := by
  let pair : Parameter :=
    { introduction := [⟨.ident, "class", 0, 0⟩]
      isPack := false
      name := ⟨.ident, "T", 6, 0⟩
      default := [⟨.eq, "=", 8, 0⟩, ⟨.ident, "P", 10, 0⟩, ⟨.lt, "<", 11, 0⟩, ⟨.ident, "U", 12, 0⟩,
        ⟨.comma, ",", 13, 0⟩, ⟨.ident, "V", 15, 0⟩, ⟨.gt, ">", 16, 0⟩]
      front := "class ".toList
      back := "T = P<U, V>".toList
      introduces := .names (by decide) (by decide)
      isName := ⟨rfl, by decide⟩
      isDefault := .given rfl
      front_inBlanks := .of_front (by decide +kernel) (.gap (by decide +kernel))
      back_inBlanks := .of_front (by decide +kernel) <| .of_front (by decide +kernel) <|
        .of_front (by decide +kernel) <| .of_front (by decide +kernel) <|
        .of_front (by decide +kernel) <| .of_front (by decide +kernel) <|
        .of_front (by decide +kernel) <| .of_front (by decide +kernel) (.gap (by decide +kernel)) }
  let pack : Parameter :=
    { introduction := [⟨.ident, "class", 1, 0⟩]
      isPack := true
      name := ⟨.ident, "Us", 10, 0⟩
      default := []
      front := " class".toList
      back := " Us".toList
      introduces := .names (by decide) (by decide)
      isName := ⟨rfl, by decide⟩
      isDefault := .absent
      front_inBlanks := .of_front (by decide +kernel) (.gap (by decide +kernel))
      back_inBlanks := .of_front (by decide +kernel) (.gap (by decide +kernel)) }
  have hheads : ∀ p ∈ [pair, pack], (∀ t ∈ p.introduction, t.kind = .ident) ∨ p.HeadPlain := by
    intro p hp
    simp only [List.mem_cons, List.not_mem_nil, or_false] at hp
    obtain rfl | rfl := hp <;> exact .inl (by decide)
  have harguments := (@arguments_of_parameters [pair, pack] "class T = P<U, V>, class... Us"
    (by decide +kernel) hheads).2.2
  refine (harguments fun p hp => ?_).trans (by decide +kernel)
  simp only [List.mem_cons, List.not_mem_nil, or_false] at hp
  obtain rfl | rfl := hp
  · have hlist : Bracketed false (⟨.lt, "<", 11, 0⟩ :: ([⟨.ident, "U", 12, 0⟩, ⟨.comma, ",", 13, 0⟩,
        ⟨.ident, "V", 15, 0⟩] ++ ⟨.gt, ">", 16, 0⟩ :: [])) :=
      .group (by decide) (.token (by decide +kernel) <| .comma rfl <| .token (by decide +kernel) .nil) .nil
    exact .token (by decide +kernel) <| .token (by decide +kernel) <| .token (by decide +kernel) <|
      .token (by decide +kernel) hlist
  · exact .token (by decide +kernel) <| .token (by decide +kernel) .nil

/-- Parentheses hide a comparison from the scanner, but not from the nesting. -/
example : arguments? "class T, bool B = (a > b), class U" = some "T, B" := by decide +kernel

end ReflectionTables.Parsing
