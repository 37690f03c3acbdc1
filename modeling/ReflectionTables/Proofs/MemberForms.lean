import ReflectionTables.Proofs.DeclarationForms
/-!
# The forms of data members and methods

The forms of data members and methods, the members that a declaration gives, and how each is read. A
declarator is read to the comma or the semicolon behind it.
-/

namespace ReflectionTables.Scanning

def TokenKind.isWidth (kind : TokenKind) : Bool :=
  kind != .semicolon && kind != .comma && kind != .eq && kind != .lBrace && kind != .rBrace

def ReservedWord.isSpecifier : ReservedWord → Bool
  | .staticWord | .virtualWord | .explicitWord | .inlineWord | .constexprWord | .mutableWord => true
  | _ => false

end ReflectionTables.Scanning

namespace ReflectionTables.Parsing

open Text Scanning Reflected Parsing.Parser

/-- What may follow the name of a data member. -/
inductive MemberSuffix
  | absent
  /-- Array dimensions; the first one is not empty. -/
  | array (length : Group .lBracket .rBracket) (more : List Suffix)
  | width (colon : TokenOf .colon) (bits : List Token)
      (isWidth : ∀ t ∈ bits, t.kind.isWidth = true)

def MemberSuffix.tokens : MemberSuffix → List Token
  | .absent => []
  | .array length more => length.tokens ++ more.flatMap Bracketed.tokens
  | .width colon bits _ => colon.val :: bits

/-- The kind of a member with the suffix; a bit-field is none. -/
def MemberSuffix.kind? (text : String) (kind : MemberKind) : MemberSuffix → Option MemberKind
  | .absent => some kind
  | .array length _ =>
    some (.array (trim ((slice? text length.opener.val.stop length.closer.val.offset).getD "")))
  | .width _ _ _ => none

structure MemberDeclarator where
  marks : List Mark
  name : PlainName
  suffix : MemberSuffix
  initializer : Initializer

namespace MemberDeclarator

def tokens (d : MemberDeclarator) : List Token :=
  d.marks.map Subtype.val ++ d.name.token :: (d.suffix.tokens ++ d.initializer.tokens)

def markedKind (d : MemberDeclarator) : MemberKind :=
  (d.marks.getLast?.map (markKind ·.val)).getD .value

def markText (d : MemberDeclarator) : String := d.marks.foldl (fun marks mark => marks ++ mark.val.text) ""

/-- The member that is declared with a type, if it is no bit-field. -/
def members (text typeText : String) (d : MemberDeclarator) : List Member :=
  ((d.suffix.kind? text d.markedKind).map fun kind => ⟨d.name.token.text, typeText, "", kind⟩).toList

end MemberDeclarator

structure MemberDeclarators where
  first : MemberDeclarator
  more : List (TokenOf .comma × MemberDeclarator)
  semicolon : TokenOf .semicolon

namespace MemberDeclarators

def tail (ds : MemberDeclarators) : List Token := listTail MemberDeclarator.tokens ds.more ds.semicolon

def tokens (ds : MemberDeclarators) : List Token := ds.first.tokens ++ ds.tail

def sharing (text base : String) (ds : List MemberDeclarator) : List Member :=
  ds.flatMap fun d => d.members text (base ++ d.markText)

end MemberDeclarators

abbrev Specifier := { t : Token // t.reserved?.any ReservedWord.isSpecifier = true }

def Specifier.isStatic (s : Specifier) : Bool := decide (s.val.reserved? = some .staticWord)

structure DataDeclaration where
  specifiers : List Specifier
  type : TypeWords
  declarators : MemberDeclarators

namespace DataDeclaration

def tokens (d : DataDeclaration) : List Token :=
  d.specifiers.map Subtype.val ++ (d.type.tokens ++ d.declarators.tokens)

/-- The members that are declared. The text of the first type goes up to the name, that of the
type words up to the first declarator. -/
def members (text : String) (d : DataDeclaration) : List Member :=
  d.declarators.first.members text
      (collapsedSlice text (startOf d.type.tokens) d.declarators.first.name.token.offset) ++
    MemberDeclarators.sharing text
      (collapsedSlice text (startOf d.type.tokens) (startOf d.declarators.first.tokens))
      (d.declarators.more.map (·.2))

def isStatic (d : DataDeclaration) : Bool := d.specifiers.any Specifier.isStatic

end DataDeclaration

structure MethodDeclaration where
  specifiers : List Specifier
  type : TypeWords
  marks : List Mark
  name : PlainName
  params : ParameterList
  qualifiers : List (TokenOf .ident)
  ending : FunctionEnding

def MethodDeclaration.tokens (d : MethodDeclaration) : List Token :=
  d.specifiers.map Subtype.val ++ (d.type.tokens ++ (d.marks.map Subtype.val ++ d.name.token ::
    (d.params.tokens ++ (d.qualifiers.map Subtype.val ++ d.ending.tokens))))

variable {text : String} {c : Reading text} {us ts rest : List Token} {P : Standing} {t first : Token}

theorem crosses_marksEnd (marks : List Mark) (kind : MemberKind) (written : String) :
    CrossesFrom text (fun s : MemberKind × String => marksEnd s.1 s.2) (marks.map Subtype.val)
      (kind, written) ((marks.getLast?.map (markKind ·.val)).getD kind,
        marks.foldl (fun marks mark => marks ++ mark.val.text) written) := by
  induction marks generalizing kind written with
  | nil => exact crossesFrom_nil
  | cons mark marks ih =>
    have hkind : ((mark :: marks).getLast?.map (markKind ·.val)).getD kind =
        (marks.getLast?.map (markKind ·.val)).getD (markKind mark.val) := by
      rw [List.getLast?_cons]
      cases marks.getLast? <;> rfl
    rw [hkind]
    refine CrossesFrom.cons (crossesFrom_token
      (g := fun u => (markKind mark.val, written ++ mark.val.text, u)) readsOne_next rfl (fun _ => rfl)
      (fun again => ?_) (isBrace_of_isIndirection mark.property)) (ih _ _)
    exact if_pos mark.property

theorem yields_declaratorMarks (d : MemberDeclarator)
    (heq : d.marks.map Subtype.val ++ d.name.token :: us = first :: rest)
    (hc : c.StandsBehind first rest P) :
    (declaratorMarks first).Yields (fun r c' =>
      r = (d.markedKind, d.markText, d.name.token) ∧ c'.Stands us P) c := by
  refine crosses_marksEnd d.marks .value "" _ c first d.name.token rest us P heq hc fun c₁ h₁ => ?_
  refine yields_recur fun again _ => ?_
  have hmark : d.name.token.kind.isIndirection = false := by rw [d.name.isIdent]; rfl
  simp only [hmark]
  exact ⟨rfl, h₁.plain d.name.isBrace⟩

theorem crosses_throughDimensions (suffixes : List Suffix) :
    CrossesFrom text (fun _ : Unit => throughDimensions) (suffixes.flatMap Bracketed.tokens) () () := by
  induction suffixes with
  | nil => exact crossesFrom_nil
  | cons suffix suffixes ih =>
    rw [List.flatMap_cons]
    refine CrossesFrom.append (crossesFrom_recurBy (g := fun _ u => u) (passes_suffix suffix).discard
      readsOne_next rfl (fun _ _ _ => rfl) (fun again => ?_) (isBrace_opener suffix)) ih
    exact if_pos (opensBrackets_opener suffix)

theorem yields_throughDimensions (suffixes : List Suffix)
    (heq : suffixes.flatMap Bracketed.tokens ++ t :: us = first :: rest)
    (hc : c.StandsBehind first rest P) (ht : t.kind.opensBrackets = false) :
    (throughDimensions first).Yields (fun u c' => u = t ∧ c'.StandsBehind t us P) c := by
  refine crosses_throughDimensions suffixes _ c first t rest us P heq hc fun c₁ h₁ => ?_
  refine yields_recur fun again _ => ?_
  rw [if_neg (by simp [ht])]
  exact ⟨rfl, h₁⟩

theorem crosses_throughWidth (h : ∀ t ∈ ts, t.kind.isWidth = true) :
    throughWidth.Crosses text 0 ts throughWidth := by
  induction ts with
  | nil => exact crosses_nil
  | cons t ts ih =>
    have ht := h t List.mem_cons_self
    refine Crosses.append (Leads.crosses (leads_token (b := ()) (fun _ => rfl) (fun again => ?_) ?_))
      (ih fun u hu => h u (List.mem_cons_of_mem t hu)) <;>
      cases hkind : t.kind <;> rw [hkind] at ht <;> first | rfl | exact absurd ht Bool.false_ne_true

/-- The kinds of the token that ends what may follow the name of a member. -/
def EndsSuffix (t : Token) : Prop :=
  t.kind = .eq ∨ t.kind = .lBrace ∨ t.kind = .comma ∨ t.kind = .semicolon

theorem yields_throughWidth (h : ∀ t ∈ ts, t.kind.isWidth = true) (ht : EndsSuffix t)
    (hc : c.Stands (ts ++ t :: us) P) :
    throughWidth.Yields (fun u c' => u = t ∧ c'.StandsBehind t us P) c := by
  refine crosses_throughWidth h _ c (t :: us) P (Nat.zero_le _) hc fun c₁ h₁ => ?_
  refine yields_loop fun again _ => (readsOne_next c₁ t us P h₁).bind ?_
  rintro _ c₂ ⟨rfl, h₂⟩
  rcases ht with hkind | hkind | hkind | hkind <;> simp only [hkind] <;> exact ⟨rfl, h₂⟩

/-- Dimensions or a width are read up to the token behind them. -/
theorem yields_declaratorSuffix (suffix : MemberSuffix) (name : Token) (kind : MemberKind)
    (ht : EndsSuffix t) (heq : suffix.tokens ++ t :: us = first :: rest)
    (hc : c.StandsBehind first rest P) :
    (declaratorSuffix name kind first).Yields (fun r c' =>
      r = (suffix.kind? text kind, t) ∧ c'.StandsBehind t us P) c := by
  cases suffix with
  | absent =>
    obtain ⟨rfl, rfl⟩ := List.cons.inj heq
    rw [declaratorSuffix]
    rcases ht with hkind | hkind | hkind | hkind <;> simp only [hkind] <;> exact ⟨rfl, hc⟩
  | array length more =>
    have hplain : length.opener.val.kind.isBrace = false := by rw [length.opener.property]; rfl
    rw [MemberSuffix.tokens, List.append_assoc] at heq
    obtain ⟨rfl, rfl⟩ := List.cons.inj heq
    obtain ⟨u, rest, hmore⟩ := List.exists_cons_of_ne_nil
      (l := more.flatMap Bracketed.tokens ++ t :: us) (by simp)
    rw [hmore] at hc
    rw [declaratorSuffix]
    simp only [length.opener.property]
    refine (passes_throughBrackets length c _ P (hc.plain hplain)).bind ?_
    rintro _ c₁ ⟨rfl, h₁⟩
    refine (yields_cut (by simp)).bind ?_
    rintro arity _ ⟨harity, rfl⟩
    refine (readsOne_next _ _ _ P h₁).bind ?_
    rintro _ c₂ ⟨rfl, h₂⟩
    refine (yields_throughDimensions more hmore h₂ ?_).bind ?_
    · rcases ht with hkind | hkind | hkind | hkind <;> rw [hkind] <;> rfl
    rintro _ c₃ ⟨rfl, h₃⟩
    rw [MemberSuffix.kind?, harity]
    exact ⟨rfl, h₃⟩
  | width colon bits isWidth =>
    have hplain : colon.val.kind.isBrace = false := by rw [colon.property]; rfl
    obtain ⟨rfl, rfl⟩ := List.cons.inj heq
    rw [declaratorSuffix]
    simp only [colon.property]
    refine (yields_throughWidth isWidth ht (hc.plain hplain)).bind ?_
    rintro _ c₁ ⟨rfl, h₁⟩
    exact ⟨rfl, h₁⟩

/-- What follows the name of a declarator is read up to the comma or the semicolon behind it. -/
theorem yields_declaratorTail (d : MemberDeclarator) (typeText : String) {accept : Bool}
    {ctx : BodyContext} (hgeneric : ctx.generic = "") (ht : t.kind = .semicolon ∨ t.kind = .comma)
    (heq : d.suffix.tokens ++ d.initializer.tokens ++ t :: us = first :: rest)
    (hc : c.StandsBehind first rest P) :
    (declaratorTail d.name.token typeText d.markedKind first accept ctx).Yields (fun r c' =>
      r = (t, if accept then d.members text typeText else []) ∧ c'.Stands us P) c := by
  obtain ⟨u, us₁, hinit, hu⟩ := d.initializer.exists_first us ht
  rw [List.append_assoc, hinit] at heq
  have hends : ¬(t.kind ≠ .semicolon ∧ t.kind ≠ .comma) := by
    rcases ht with h | h <;> simp [h]
  rw [declaratorTail]
  refine (yields_declaratorSuffix d.suffix d.name.token d.markedKind hu heq hc).bind ?_
  rintro _ c₁ ⟨rfl, h₁⟩
  refine (yields_throughValue readsOne_next d.initializer hinit h₁ ht).bind ?_
  rintro _ c₂ ⟨rfl, h₂⟩
  simp only [if_neg hends]
  refine ⟨?_, h₂⟩
  rw [MemberDeclarator.members]
  cases d.suffix.kind? text d.markedKind <;> cases accept <;> simp [acceptedMembers, hgeneric]

theorem MemberDeclarator.exists_behind_name (d : MemberDeclarator)
    (ht : t.kind = .semicolon ∨ t.kind = .comma) (us : List Token) :
    ∃ u rest, d.suffix.tokens ++ d.initializer.tokens ++ t :: us = u :: rest ∧
      (u.kind = .lBracket ∨ u.kind = .colon ∨ EndsSuffix u) := by
  obtain ⟨u, rest, hinit, hu⟩ := d.initializer.exists_first us ht
  rw [List.append_assoc, hinit]
  cases d.suffix with
  | absent => exact ⟨u, rest, rfl, .inr (.inr hu)⟩
  | array length more => exact ⟨length.opener, _, rfl, .inl length.opener.property⟩
  | width colon bits isWidth => exact ⟨colon, _, rfl, .inr (.inl colon.property)⟩

section Declarators

variable {base : String} {accept : Bool} {ctx : BodyContext} {members : List Member}

theorem yields_declarator {Q : List Member → Reading text → Prop} (d : MemberDeclarator)
    (hgeneric : ctx.generic = "") (ht : t.kind = .semicolon ∨ t.kind = .comma)
    (hc : c.Stands (d.tokens ++ t :: us) P)
    (hrest : ∀ c' members', members' = members ++ (if accept then d.members text (base ++ d.markText) else []) →
      c'.Stands us P → if t.kind = .comma then (declaratorsEnd base accept ctx members').Yields Q c'
        else Q members' c') : (declaratorsEnd base accept ctx members).Yields Q c := by
  refine yields_recur fun again hagain => ?_
  obtain ⟨u, us₁, hbehind, -⟩ := d.exists_behind_name ht us
  obtain ⟨f, us₂, hmarks⟩ := List.exists_cons_of_ne_nil
    (l := d.marks.map Subtype.val ++ d.name.token :: u :: us₁) (by simp)
  have htokens : d.tokens ++ t :: us = f :: us₂ := by
    simp [← hmarks, ← hbehind, MemberDeclarator.tokens]
  rw [htokens] at hc
  refine (readsOne_next c f us₂ P hc).bind ?_
  rintro _ c₁ ⟨rfl, h₁⟩
  refine (yields_declaratorMarks d hmarks h₁).bind ?_
  rintro _ c₂ ⟨rfl, h₂⟩
  simp only [d.name.isIdent, ne_eq, not_true_eq_false, if_false]
  refine (readsOne_next c₂ u us₁ P h₂).bind ?_
  rintro _ c₃ ⟨rfl, h₃⟩
  refine (yields_declaratorTail d (base ++ d.markText) hgeneric ht hbehind h₃).bind ?_
  rintro _ c₄ ⟨rfl, h₄⟩
  have hend := hrest c₄ _ rfl h₄
  rcases ht with hkind | hkind
  · simp only [hkind, if_true]
    rwa [if_neg (by simp [hkind])] at hend
  · simp only [hkind, reduceCtorEq, if_false]
    rw [if_pos hkind] at hend
    exact hagain _ c₄ Q hend

theorem yields_declaratorsEnd (d : MemberDeclarator) (more : List (TokenOf .comma × MemberDeclarator))
    (semicolon : TokenOf .semicolon) (hgeneric : ctx.generic = "")
    (hc : c.Stands (d.tokens ++ (listTail MemberDeclarator.tokens more semicolon ++ us)) P) :
    (declaratorsEnd base accept ctx members).Yields (fun r c' => r = members ++
      (if accept then MemberDeclarators.sharing text base (d :: more.map (·.2)) else []) ∧
        c'.Stands us P) c := by
  induction more generalizing c d members with
  | nil =>
    refine yields_declarator d hgeneric (.inl semicolon.property) hc fun c' members' hmembers h' => ?_
    rw [if_neg (by simp [semicolon.property])]
    refine ⟨?_, h'⟩
    cases accept <;> simp [hmembers, MemberDeclarators.sharing]
  | cons later more ih =>
    rw [listTail_cons, List.cons_append, List.append_assoc] at hc
    refine yields_declarator d hgeneric (.inr later.1.property) hc fun c' members' hmembers h' => ?_
    rw [if_pos later.1.property]
    refine (ih later.2 h').mono fun r c'' h'' => ⟨?_, h''.2⟩
    rw [h''.1, hmembers]
    cases accept <;> simp [MemberDeclarators.sharing]

end Declarators

section Head

variable {head : MemberHead}

theorem crosses_headName (name : PlainName) :
    CrossesFrom text headEnd [name.token] head { head with names := head.names ++ [name.token] } := by
  refine crossesFrom_token (g := fun u => ({ head with names := head.names ++ [name.token] }, u))
    readsOne_next rfl (fun _ => rfl) (fun again => ?_) name.isBrace
  simp only [name.isIdent, name.unreserved, reduceCtorEq, if_false]

theorem crosses_headList (g : AngleGroup) (h : head.names ≠ []) :
    CrossesFrom text headEnd g.tokens head head := by
  refine crossesFrom_recurBy (g := fun _ u => (head, u)) (passes_throughAngles g).discard readsOne_next rfl
    (fun _ _ _ => rfl) (fun again => ?_) (by rw [g.opener.property]; rfl)
  simp only [g.opener.property, if_neg h]

theorem crosses_headWord (w : TypeWord) :
    CrossesFrom text headEnd w.tokens head { head with names := head.names ++ [w.name.token] } := by
  have hword : CrossesFrom text headEnd [w.name.token] head
      { head with names := head.names ++ [w.name.token] } := crosses_headName w.name
  rw [TypeWord.tokens]
  cases w.list? with
  | none => exact hword
  | some g => exact hword.append (crosses_headList g (by simp))

theorem crosses_headWords (words : List TypeWord) :
    CrossesFrom text headEnd (words.flatMap TypeWord.tokens) head
      { head with names := head.names ++ words.map (·.name.token) } := by
  induction words generalizing head with
  | nil =>
    rw [List.map_nil, List.append_nil]
    exact crossesFrom_nil
  | cons w words ih =>
    have hrest := @ih { head with names := head.names ++ [w.name.token] }
    rw [List.append_assoc, List.singleton_append] at hrest
    exact (crosses_headWord w).append hrest

theorem crosses_headMarks (marks : List Mark) :
    CrossesFrom text headEnd (marks.map Subtype.val) head
      { head with
        kind := (marks.getLast?.map (markKind ·.val)).getD head.kind
        markAt := head.markAt.or (marks.head?.map (·.val.offset)) } := by
  induction marks generalizing head with
  | nil =>
    rw [List.head?_nil, Option.map_none, Option.or_none]
    exact crossesFrom_nil
  | cons mark marks ih =>
    have hkind : ((mark :: marks).getLast?.map (markKind ·.val)).getD head.kind =
        (marks.getLast?.map (markKind ·.val)).getD (head.mark mark.val).kind := by
      rw [List.getLast?_cons]
      cases marks.getLast? <;> rfl
    have hmarkAt : head.markAt.or ((mark :: marks).head?.map (·.val.offset)) =
        (head.mark mark.val).markAt.or (marks.head?.map (·.val.offset)) := by
      rw [MemberHead.mark]
      cases head.markAt <;> rfl
    rw [hkind, hmarkAt]
    refine CrossesFrom.cons (crossesFrom_token (g := fun u => (head.mark mark.val, u)) readsOne_next rfl
      (fun _ => rfl) (fun again => ?_) (isBrace_of_isIndirection mark.property)) (@ih (head.mark mark.val))
    have hmark := mark.property
    cases hkind : mark.val.kind <;> rw [hkind] at hmark <;>
      first | exact absurd hmark Bool.false_ne_true | simp only [hkind]

theorem crosses_memberHead (type : TypeWords) (marks : List Mark) (name : PlainName) :
    CrossesFrom text headEnd (type.tokens ++ (marks.map Subtype.val ++ [name.token])) {}
      { names := type.words.map (·.name.token) ++ [name.token]
        kind := (marks.getLast?.map (markKind ·.val)).getD .value
        markAt := marks.head?.map (·.val.offset) } := by
  have hwords := @crosses_headWords text {} type.words
  have hmarks := @crosses_headMarks text { names := type.words.map (·.name.token) } marks
  rw [List.nil_append] at hwords
  rw [Option.none_or] at hmarks
  exact hwords.append (hmarks.append (crosses_headName name))

end Head

def TokenKind.endsHead : TokenKind → Bool
  | .lBracket | .colon | .eq | .lBrace | .comma | .semicolon | .lParen | .emptyParens => true
  | _ => false

/-- The head of a declaration is read up to what follows the name. -/
theorem yields_memberHead (type : TypeWords) (marks : List Mark) (name : PlainName)
    (ht : TokenKind.endsHead t.kind = true)
    (heq : type.tokens ++ (marks.map Subtype.val ++ [name.token]) ++ t :: us = first :: rest)
    (hc : c.StandsBehind first rest P) :
    (memberHead first).Yields (fun r c' =>
      r = .declared { names := type.words.map (·.name.token) ++ [name.token]
                      kind := (marks.getLast?.map (markKind ·.val)).getD .value
                      markAt := marks.head?.map (·.val.offset) } t ∧
        c'.StandsBehind t us P) c := by
  refine crosses_memberHead type marks name _ c first t rest us P heq hc fun c₁ h₁ => ?_
  refine yields_recur fun again _ => ?_
  cases hkind : t.kind <;> rw [hkind] at ht <;>
    first | exact absurd ht Bool.false_ne_true | (simp only [hkind]; exact ⟨rfl, h₁⟩)

theorem exists_names (type : TypeWords) (name : PlainName) : ∃ first second more,
    type.words.map (·.name.token) ++ [name.token] = first :: second :: more ∧
      (second :: more).getLastD first = name.token := by
  obtain ⟨second, more, h⟩ := List.exists_cons_of_ne_nil
    (l := type.more.map (·.name.token) ++ [name.token]) (by simp)
  refine ⟨type.first.name.token, second, more, congrArg (_ :: ·) h, ?_⟩
  rw [← h, List.getLastD_concat]

/-- A declaration of data members is read to its end, and each declarator gives its member. -/
theorem yields_dataDeclaration (d : DataDeclaration) {accept : Bool} {ctx : BodyContext}
    (hgeneric : ctx.generic = "")
    (heq : d.type.tokens ++ (d.declarators.tokens ++ us) = first :: rest)
    (hc : c.StandsBehind first rest P) :
    (memberDeclaration first first accept ctx).Yields (fun r c' =>
      r = (if accept then d.members text else []) ∧ c'.Stands us P) c := by
  obtain ⟨specifiers, type, ⟨declarator, more, semicolon⟩⟩ := d
  obtain ⟨t, ts, htail, ht⟩ := exists_listTail MemberDeclarator.tokens more semicolon
  obtain ⟨u, us₁, hbehind, hu⟩ := declarator.exists_behind_name ht (ts ++ us)
  have htokens : type.tokens ++ (declarator.marks.map Subtype.val ++ [declarator.name.token]) ++
      u :: us₁ = first :: rest := by
    rw [← heq, ← hbehind]
    simp [MemberDeclarators.tokens, MemberDeclarators.tail, MemberDeclarator.tokens, htail]
  have hstart : first = type.first.name.token := (List.cons.inj heq).1.symm
  have hends : TokenKind.endsHead u.kind = true ∧ u.kind.opensParens = false := by
    rcases hu with h | h | h | h | h | h <;> rw [h] <;> exact ⟨rfl, rfl⟩
  have hbase : min ((declarator.marks.head?.map (·.val.offset)).getD declarator.name.token.offset)
      declarator.name.token.offset = startOf declarator.tokens := by
    refine min_firstMark _ _ _ (hc.stands.pairwise.sublist (List.IsInfix.sublist ?_))
    obtain ⟨w, ws, hw⟩ : ∃ w ws, type.tokens = w :: ws := ⟨_, _, rfl⟩
    rw [hw, List.cons_append] at heq
    rw [← (List.cons.inj heq).2]
    exact ⟨ws, listTail MemberDeclarator.tokens more semicolon ++ us,
      by simp [MemberDeclarators.tokens, MemberDeclarators.tail, MemberDeclarator.tokens]⟩
  obtain ⟨w, second, names, hnames, hlast⟩ := exists_names type declarator.name
  rw [memberDeclaration]
  refine (yields_memberHead type declarator.marks declarator.name hends.1 htokens hc).bind ?_
  rintro _ c₁ ⟨rfl, h₁⟩
  simp only [hends.2, Bool.false_eq_true, if_false, hnames, hlast]
  refine (yields_span _ _).bind ?_
  rintro _ _ ⟨rfl, rfl⟩
  refine (yields_span _ _).bind ?_
  rintro _ _ ⟨rfl, rfl⟩
  refine (yields_declaratorTail declarator _ hgeneric ht hbehind h₁).bind ?_
  rintro _ c₂ ⟨rfl, h₂⟩
  have hoffset : startOf type.tokens = first.offset := by rw [hstart]; rfl
  cases more with
  | nil =>
    obtain ⟨rfl, rfl⟩ := List.cons.inj htail
    simp only [semicolon.property, reduceCtorEq, if_false]
    refine ⟨?_, h₂⟩
    simp [DataDeclaration.members, MemberDeclarators.sharing, hoffset]
  | cons later more =>
    rw [listTail_cons] at htail
    obtain ⟨rfl, rfl⟩ := List.cons.inj htail
    rw [List.append_assoc] at h₂
    simp only [later.1.property, if_true]
    refine (yields_declaratorsEnd later.2 more semicolon hgeneric h₂).bind ?_
    rintro _ c₃ ⟨rfl, h₃⟩
    refine ⟨?_, h₃⟩
    rw [hbase]
    cases accept <;> simp [DataDeclaration.members, MemberDeclarators.sharing, hoffset]

theorem crosses_methodEnd (qualifiers : List (TokenOf .ident)) :
    methodEnd.Crosses text 0 (qualifiers.map Subtype.val) methodEnd := by
  induction qualifiers with
  | nil => exact crosses_nil
  | cons word qualifiers ih =>
    refine Crosses.append (Leads.crosses (leads_token (b := ()) (fun _ => rfl) (fun again => ?_) ?_)) ih
    · simp only [word.property]
    · rw [word.property]
      rfl

/-- What follows the parameters of a method is read to the end of its declaration or its body. -/
theorem yields_methodEnd (qualifiers : List (TokenOf .ident)) (ending : FunctionEnding)
    (hc : c.Stands (qualifiers.map Subtype.val ++ (ending.tokens ++ us)) P) :
    methodEnd.Yields (fun _ c' => c'.Stands us P) c := by
  refine crosses_methodEnd qualifiers _ c _ P (Nat.zero_le _) hc fun c₁ h₁ => ?_
  refine yields_loop fun again _ => ?_
  cases ending with
  | declared semicolon =>
    refine (passes_next (by rw [semicolon.property]; rfl) c₁ us P h₁).bind ?_
    rintro _ c₂ ⟨rfl, h₂⟩
    simp only [semicolon.property]
    exact h₂
  | defined body =>
    refine (readsOne_next c₁ body.opener _ P h₁).bind ?_
    rintro _ c₂ ⟨rfl, h₂⟩
    simp only [body.opener.property]
    exact ((passesInside_throughBrace body).discard c₂ us P (h₂.depth_of_lBrace body.opener.property)
      h₂.scopes_lt (h₂.opened body.opener.property)).mono fun _ _ h => h.2

/-- Parameters and what follows them are read to the end of a method. -/
theorem yields_throughMethodTail (params : ParameterList) (qualifiers : List (TokenOf .ident))
    (ending : FunctionEnding)
    (hc : c.Stands (params.rest ++ (qualifiers.map Subtype.val ++ (ending.tokens ++ us))) P) :
    (throughMethodTail params.opener).Yields (fun _ c' => c'.Stands us P) c := by
  have hopener : params.opener.kind.opensParens = true := by
    rcases params.kind_opener with h | h <;> rw [h] <;> rfl
  simp only [throughMethodTail, hopener, Bool.not_true, Bool.false_eq_true, if_false]
  exact (passes_parameterList params c _ P hc).discard_bind fun _ _ h =>
    yields_methodEnd qualifiers ending h.2

/-- A method is read to its end and gives no member. -/
theorem yields_methodDeclaration (d : MethodDeclaration) {accept : Bool} {ctx : BodyContext}
    (heq : d.type.tokens ++ (d.marks.map Subtype.val ++ d.name.token :: (d.params.tokens ++
      (d.qualifiers.map Subtype.val ++ (d.ending.tokens ++ us)))) = first :: rest)
    (hc : c.StandsBehind first rest P) :
    (memberDeclaration first first accept ctx).Yields (fun r c' => r = [] ∧ c'.Stands us P) c := by
  have htokens : d.type.tokens ++ (d.marks.map Subtype.val ++ [d.name.token]) ++ d.params.opener ::
      (d.params.rest ++ (d.qualifiers.map Subtype.val ++ (d.ending.tokens ++ us))) = first :: rest := by
    rw [← heq, Bracketed.tokens]
    simp
  have hopener : TokenKind.endsHead d.params.opener.kind = true ∧
      d.params.opener.kind.opensParens = true ∧ d.params.opener.kind.isBrace = false := by
    rcases d.params.kind_opener with h | h <;> rw [h] <;> exact ⟨rfl, rfl, rfl⟩
  rw [memberDeclaration]
  refine (yields_memberHead d.type d.marks d.name hopener.1 htokens hc).bind ?_
  rintro _ c₁ ⟨rfl, h₁⟩
  have hnames : ¬(d.type.words.map (·.name.token) ++ [d.name.token]).length ≤ 1 := by
    simp [TypeWords.words]
  simp only [hopener.2.1, if_true, if_neg hnames]
  exact (yields_throughMethodTail d.params d.qualifiers d.ending (h₁.plain hopener.2.2)).bind
    fun _ _ h => ⟨rfl, h⟩

end ReflectionTables.Parsing
