import ReflectionTables.Proofs.DeclarationForms
/-!
# Free variables and functions

The forms of free variables and functions in an implementation file, and what is announced when one
is read. The announced text of a first variable goes up to the token behind it; that of the other
variables and of a function ends with their last token.
-/

namespace ReflectionTables.Parsing

open Text Scanning Reflected Parsing.Parser

structure VariableDeclarator where
  marks : List Mark
  name : PlainName
  suffixes : List Suffix
  initializer : Initializer

namespace VariableDeclarator

/-- The tokens that declare the variable, without its first value. -/
def shown (d : VariableDeclarator) : List Token :=
  d.marks.map Subtype.val ++ d.name.token :: d.suffixes.flatMap Bracketed.tokens

def tokens (d : VariableDeclarator) : List Token := d.shown ++ d.initializer.tokens

end VariableDeclarator

structure VariableDeclaration where
  type : TypeWords
  first : VariableDeclarator
  more : List (TokenOf .comma × VariableDeclarator)
  semicolon : TokenOf .semicolon
  unqualified : ∀ t ∈ first.name.token :: type.words.map (·.name.token), isQualified t = false

namespace VariableDeclaration

def behindFirst (d : VariableDeclaration) : List Token :=
  d.first.initializer.tokens ++ listTail VariableDeclarator.tokens d.more d.semicolon

def tokens (d : VariableDeclaration) : List Token := d.type.tokens ++ d.first.shown ++ d.behindFirst

def laterAnnounced (text base : String) (more : List (TokenOf .comma × VariableDeclarator)) :
    List String :=
  more.map fun later => base ++ " " ++ shownText text later.2.shown

def announced (text : String) (d : VariableDeclaration) : List String :=
  collapsedSlice text (startOf d.tokens) (startOf d.behindFirst) ::
    laterAnnounced text (collapsedSlice text (startOf d.tokens) (startOf d.first.shown)) d.more

end VariableDeclaration

/-- What may stand behind the parameters of a function: qualifiers, and the type of its answer
behind an arrow. -/
inductive Trailer
  | word (name : TokenOf .ident)
  | qualifier (name : TokenOf .ident) (isQualifier : isMethodQualifier name.val.text = true)
      (arguments : ParameterList)
  | arrow (minus : TokenOf .minus) (gt : TokenOf .gt)
  | colons (t : TokenOf .colonColon)
  | mark (t : Mark)
  | list (g : AngleGroup)

def Trailer.tokens : Trailer → List Token
  | .word name => [name.val]
  | .qualifier name _ arguments => name.val :: arguments.tokens
  | .arrow minus gt => [minus.val, gt.val]
  | .colons t => [t.val]
  | .mark t => [t.val]
  | .list g => g.tokens

structure FunctionDeclaration where
  type : TypeWords
  marks : List Mark
  name : PlainName
  params : ParameterList
  trailers : List Trailer
  ending : FunctionEnding
  unqualified : ∀ t ∈ name.token :: type.words.map (·.name.token), isQualified t = false

namespace FunctionDeclaration

/-- The tokens that declare the function, without its body. -/
def shown (d : FunctionDeclaration) : List Token :=
  d.type.tokens ++ (d.marks.map Subtype.val ++ d.name.token :: d.params.tokens) ++
    d.trailers.flatMap Trailer.tokens

def tokens (d : FunctionDeclaration) : List Token := d.shown ++ d.ending.tokens

end FunctionDeclaration

def Standing.announcing (P : Standing) (texts : List String) : Standing :=
  { P with found := { P.found with externs := P.found.externs ++ texts } }

variable {text : String} {c : Reading text} {ts us rest : List Token} {P : Standing} {t first : Token}

@[simp] theorem Standing.announcing_announcing (texts texts' : List String) :
    (P.announcing texts).announcing texts' = P.announcing (texts ++ texts') := by
  simp only [announcing, List.append_assoc]

theorem yields_noteExtern (hc : c.Stands us P) (hrole : P.role = .source) (shown : String) :
    (noteExtern shown).Yields (fun _ c' => c'.Stands us (P.announcing [shown])) c := by
  refine (yields_roleOfFile hc).bind ?_
  rintro _ _ ⟨rfl, rfl⟩
  rw [if_pos hrole]
  exact yields_note hc

theorem yields_announce (hc : c.Stands us P) (hrole : P.role = .source) (start stop : Nat) :
    (announce start stop).Yields
      (fun _ c' => c'.Stands us (P.announcing [collapsedSlice text start stop])) c := by
  refine (yields_roleOfFile hc).bind ?_
  rintro _ _ ⟨rfl, rfl⟩
  rw [if_pos hrole]
  refine (yields_span start stop).bind ?_
  rintro _ _ ⟨rfl, rfl⟩
  exact yields_noteExtern hc hrole _

/-- What is noted behind a token is noted at its place. -/
theorem Reading.StandsBehind.announcing {texts : List String} (h : c.StandsBehind t us P)
    {c' : Reading text} (h' : c'.Stands us ((P.behind t).announcing texts)) :
    c'.StandsBehind t us (P.announcing texts) :=
  ⟨h', h.standsIn, h.depth_eq, h.scopes_lt⟩

open VariableDeclaration

theorem yields_afterInitializer (init : Initializer) (heq : init.tokens ++ t :: us = first :: rest)
    (hc : c.StandsBehind first rest P) (ht : t.kind = .semicolon ∨ t.kind = .comma) :
    (afterInitializer first).Yields (fun u c' => u = t ∧ c'.Stands us P) c :=
  yields_throughValue readsOne_nextOrEnd init heq hc ht

theorem yields_laterVariable {start : Token} {base : String} {Q : Unit → Reading text → Prop}
    (d : VariableDeclarator) (ht : t.kind = .semicolon ∨ t.kind = .comma) (hrole : P.role = .source)
    (hc : c.Stands (d.tokens ++ t :: us) P)
    (hrest : ∀ c', c'.Stands us (P.announcing [base ++ " " ++ shownText text d.shown]) →
      if t.kind = .comma then (laterVariables start base).Yields Q c' else Q () c') :
    (laterVariables start base).Yields Q c := by
  rw [laterVariables]
  refine yields_loop fun again hagain => ?_
  -- The tokens that tell where one part of the declarator ends and the next begins.
  obtain ⟨u, us₁, hinit, hu⟩ := d.initializer.exists_first us ht
  obtain ⟨v, us₂, hsuffixes⟩ := List.exists_cons_of_ne_nil
    (l := d.suffixes.flatMap Bracketed.tokens ++ u :: us₁) (by simp)
  obtain ⟨f, us₃, hmarks⟩ := List.exists_cons_of_ne_nil
    (l := d.marks.map Subtype.val ++ d.name.token :: v :: us₂) (by simp)
  have htokens : d.tokens ++ t :: us = f :: us₃ := by
    simp [← hmarks, ← hsuffixes, ← hinit, VariableDeclarator.tokens, VariableDeclarator.shown]
  have hstart : f.offset = startOf d.shown := by
    have hfirst := @startOf_append d.shown (d.initializer.tokens ++ t :: us)
      (by simp [VariableDeclarator.shown])
    rw [← hfirst, ← List.append_assoc, ← VariableDeclarator.tokens, htokens, startOf_cons]
  have hshown : collapsedSlice text f.offset
      (stopOf (d.marks.map Subtype.val ++ [d.name.token] ++ d.suffixes.flatMap Bracketed.tokens)) =
        shownText text d.shown := by
    rw [shownText, hstart, VariableDeclarator.shown, List.append_assoc, List.singleton_append]
  rw [htokens] at hc
  refine (readsOne_nextOrEnd c f us₃ P hc).bind ?_
  rintro _ c₁ ⟨rfl, h₁⟩
  refine (yields_throughMarks d.marks hmarks h₁ (by rw [d.name.isIdent]; rfl)).bind ?_
  rintro _ c₂ ⟨rfl, h₂⟩
  rw [if_neg (by simp [d.name.isIdent])]
  refine (readsOne_nextOrEnd c₂ v us₂ P (h₂.plain d.name.isBrace)).bind ?_
  rintro _ c₃ ⟨rfl, h₃⟩
  refine (yields_throughSuffixes (d.marks.map Subtype.val ++ [d.name.token]) d.suffixes
    (stopOf_concat _ _).symm hsuffixes h₃ (by rcases hu with h | h | h | h <;> rw [h] <;> rfl)).bind ?_
  rintro _ c₄ ⟨rfl, h₄⟩
  refine (yields_span _ _).bind ?_
  rintro _ _ ⟨rfl, rfl⟩
  refine (yields_noteExtern h₄.stands hrole _).bind fun _ c₅ h₅ => ?_
  refine (yields_afterInitializer d.initializer hinit (h₄.announcing h₅) ht).bind ?_
  rintro _ c₆ ⟨rfl, h₆⟩
  have hend := hrest c₆ (by rw [← hshown]; exact h₆)
  rcases ht with hkind | hkind
  · simp only [hkind]
    rwa [if_neg (by simp [hkind])] at hend
  · simp only [hkind]
    rw [if_pos hkind] at hend
    exact hagain c₆ Q hend

theorem yields_laterVariables (start : Token) (base : String)
    (more : List (TokenOf .comma × VariableDeclarator)) (semicolon : TokenOf .semicolon)
    (d : VariableDeclarator) (hrole : P.role = .source)
    (hc : c.Stands (d.tokens ++ (listTail VariableDeclarator.tokens more semicolon ++ us)) P) :
    (laterVariables start base).Yields (fun _ c' => c'.Stands us
      (P.announcing ((base ++ " " ++ shownText text d.shown) :: laterAnnounced text base more))) c := by
  induction more generalizing c d P with
  | nil =>
    refine yields_laterVariable d (.inl semicolon.property) hrole hc fun c' h' => ?_
    rw [if_neg (by simp [semicolon.property])]
    exact h'
  | cons later more ih =>
    rw [listTail_cons, List.cons_append, List.append_assoc] at hc
    refine yields_laterVariable d (.inr later.1.property) hrole hc fun c' h' => ?_
    rw [if_pos later.1.property]
    have hlater := ih (P := P.announcing _) later.2 hrole h'
    rwa [Standing.announcing_announcing] at hlater

/-- Reads more of a free declaration: the number of names, the offset of the last one and that of
the first mark, and the token to look at. -/
def freeHeadEnd (start : Token) (s : Nat × Nat × Option Nat) (token : Token) : Parser Unit :=
  freeDeclarationEnd start ⟨s.1, s.2.1, s.2.2, token⟩

section Head

variable {start : Token} {n nameAt : Nat} {markAt : Option Nat}

theorem crosses_freeName (name : PlainName) (hname : isQualified name.token = false) :
    CrossesFrom text (freeHeadEnd start) [name.token] (n, nameAt, markAt)
      (n + 1, name.token.offset, markAt) := by
  refine crossesFrom_token (g := fun u => (⟨n + 1, name.token.offset, markAt, u⟩ : FreeHead)) readsOne_nextOrEnd rfl
    (fun _ => rfl) (fun again => ?_) name.isBrace
  simp only [name.isIdent, name.unreserved, hname, reduceCtorEq, if_false, Bool.false_eq_true]

theorem crosses_freeList (g : AngleGroup) (hn : 0 < n) :
    CrossesFrom text (freeHeadEnd start) g.tokens (n, nameAt, markAt) (n, nameAt, markAt) := by
  refine crossesFrom_recurBy (g := fun _ u => (⟨n, nameAt, markAt, u⟩ : FreeHead)) (passes_throughAngles g).discard
    readsOne_nextOrEnd rfl (fun _ _ _ => rfl) (fun again => ?_) (by rw [g.opener.property]; rfl)
  simp only [g.opener.property, if_pos hn]

theorem crosses_freeWord (w : TypeWord) (hname : isQualified w.name.token = false) :
    CrossesFrom text (freeHeadEnd start) w.tokens (n, nameAt, markAt)
      (n + 1, w.name.token.offset, markAt) := by
  have hword : CrossesFrom text (freeHeadEnd start) [w.name.token] (n, nameAt, markAt)
      (n + 1, w.name.token.offset, markAt) := crosses_freeName w.name hname
  rw [TypeWord.tokens]
  cases w.list? with
  | none => exact hword
  | some g => exact hword.append (crosses_freeList g (Nat.succ_pos n))

theorem crosses_freeWords (words : List TypeWord)
    (hwords : ∀ w ∈ words, isQualified w.name.token = false) :
    ∃ nameAt', CrossesFrom text (freeHeadEnd start) (words.flatMap TypeWord.tokens) (n, nameAt, markAt)
      (n + words.length, nameAt', markAt) := by
  induction words generalizing n nameAt with
  | nil => exact ⟨nameAt, crossesFrom_nil⟩
  | cons w words ih =>
    obtain ⟨nameAt', hrest⟩ := @ih (n + 1) w.name.token.offset
      fun w' hw' => hwords w' (List.mem_cons_of_mem w hw')
    refine ⟨nameAt', (crosses_freeWord w (hwords w List.mem_cons_self)).append ?_⟩
    rwa [List.length_cons, Nat.add_comm words.length, ← Nat.add_assoc]

theorem crosses_freeMarks (marks : List Mark) :
    CrossesFrom text (freeHeadEnd start) (marks.map Subtype.val) (n, nameAt, markAt)
      (n, nameAt, markAt.or (marks.head?.map (·.val.offset))) := by
  induction marks generalizing markAt with
  | nil =>
    rw [List.head?_nil, Option.map_none, Option.or_none]
    exact crossesFrom_nil
  | cons mark marks ih =>
    have hmarkAt : markAt.or (some mark.val.offset) =
        (markAt.or (some mark.val.offset)).or (marks.head?.map (·.val.offset)) := by
      cases markAt <;> rfl
    rw [List.head?_cons, Option.map_some, hmarkAt]
    refine CrossesFrom.cons (crossesFrom_token
      (g := fun u => (⟨n, nameAt, markAt.or (some mark.val.offset), u⟩ : FreeHead)) readsOne_nextOrEnd rfl
      (fun _ => rfl) (fun again => ?_) (isBrace_of_isIndirection mark.property)) ih
    have hmark := mark.property
    cases hkind : mark.val.kind <;> rw [hkind] at hmark <;> 
      first | exact absurd hmark Bool.false_ne_true | simp only [hkind]

theorem crosses_freeSuffixes (suffixes : List Suffix) (hn : 2 ≤ n) :
    CrossesFrom text (freeHeadEnd start) (suffixes.flatMap Bracketed.tokens) (n, nameAt, markAt)
      (n, nameAt, markAt) := by
  induction suffixes with
  | nil => exact crossesFrom_nil
  | cons suffix suffixes ih =>
    rw [List.flatMap_cons]
    refine CrossesFrom.append (crossesFrom_recurBy (g := fun _ u => (⟨n, nameAt, markAt, u⟩ : FreeHead))
      (passes_suffix suffix).discard readsOne_nextOrEnd rfl (fun _ _ _ => rfl) (fun again => ?_)
      (isBrace_opener suffix)) ih
    rcases suffix.kind_opener with hkind | hkind <;> simp only [hkind, if_pos hn]

/-- The head of a declaration is gone through: its type, the marks and the name. -/
theorem crosses_freeHead (type : TypeWords) (marks : List Mark) (name : PlainName)
    (hnames : ∀ t ∈ name.token :: type.words.map (·.name.token), isQualified t = false) :
    ∃ n, 2 ≤ n ∧ CrossesFrom text (freeHeadEnd start)
      (type.tokens ++ (marks.map Subtype.val ++ [name.token])) (0, nameAt, none)
      (n, name.token.offset, marks.head?.map (·.val.offset)) := by
  rw [List.forall_mem_cons, List.forall_mem_map] at hnames
  obtain ⟨nameAt', hwords⟩ := @crosses_freeWords text start 0 nameAt none type.words hnames.2
  rw [Nat.zero_add] at hwords
  refine ⟨type.words.length + 1, by simp [TypeWords.words], hwords.append ?_⟩
  have hmarks := @crosses_freeMarks text start type.words.length nameAt' none marks
  rw [Option.none_or] at hmarks
  exact hmarks.append (crosses_freeName name hnames.1)

end Head

theorem yields_variables (d : VariableDeclaration) {head : FreeHead} (hrole : P.role = .source)
    (hstart : first.offset = startOf d.tokens)
    (hbase : min (head.markAt.getD head.nameAt) head.nameAt = startOf d.first.shown)
    (heq : d.behindFirst ++ us = head.token :: rest) (hc : c.StandsBehind head.token rest P) :
    (freeVariables first head).Yields
      (fun _ c' => c'.Stands us (P.announcing (d.announced text))) c := by
  obtain ⟨u, us₁, hlater, hu⟩ := exists_listTail VariableDeclarator.tokens d.more d.semicolon
  have hinit : d.first.initializer.tokens ++ u :: (us₁ ++ us) = head.token :: rest := by
    rw [← heq, behindFirst, hlater, List.append_assoc, List.cons_append]
  have hbehind : head.token.offset = startOf d.behindFirst := by
    have hfirst := @startOf_append d.behindFirst us (by simp [behindFirst, hlater])
    rw [← hfirst, heq, startOf_cons]
  rw [freeVariables, announced, ← hstart, ← hbehind]
  refine (yields_announce hc.stands hrole _ _).bind fun _ c₁ h₁ => ?_
  refine (yields_afterInitializer d.first.initializer hinit (hc.announcing h₁) hu).bind ?_
  rintro _ c₂ ⟨rfl, h₂⟩
  cases hmore : d.more with
  | nil =>
    rw [hmore] at hlater
    obtain ⟨rfl, rfl⟩ := List.cons.inj hlater
    simp only [d.semicolon.property]
    exact h₂
  | cons later more =>
    rw [hmore, listTail_cons] at hlater
    obtain ⟨rfl, rfl⟩ := List.cons.inj hlater
    simp only [later.1.property]
    refine (yields_span _ _).bind ?_
    rintro _ _ ⟨rfl, rfl⟩
    rw [hbase]
    rw [List.append_assoc] at h₂
    have hlaters := @yields_laterVariables text _ us (P.announcing _) first
      (collapsedSlice text first.offset (startOf d.first.shown)) more d.semicolon later.2 hrole h₂
    rwa [Standing.announcing_announcing] at hlaters

/-- A declaration of variables is read to its end, and each variable is announced. -/
theorem yields_freeVariables (d : VariableDeclaration) (hrole : P.role = .source)
    (heq : d.tokens ++ us = first :: rest) (hc : c.StandsBehind first rest P) :
    (freeDeclaration first first).Yields
      (fun _ c' => c'.Stands us (P.announcing (d.announced text))) c := by
  obtain ⟨u, us₁, hlater, hu⟩ := exists_listTail VariableDeclarator.tokens d.more d.semicolon
  obtain ⟨t, us₂, hinit, ht⟩ := d.first.initializer.exists_first (us₁ ++ us) hu
  obtain ⟨n, hn, hhead⟩ := @crosses_freeHead text first first.offset d.type d.first.marks d.first.name
    d.unqualified
  have hcross := hhead.append (crosses_freeSuffixes d.first.suffixes hn)
  have hsplit : d.behindFirst ++ us = t :: us₂ := by
    rw [← hinit, behindFirst, hlater, List.append_assoc, List.cons_append]
  have htokens : d.type.tokens ++ (d.first.marks.map Subtype.val ++ [d.first.name.token]) ++
      d.first.suffixes.flatMap Bracketed.tokens ++ t :: us₂ = first :: rest := by
    rw [← heq, ← hsplit, tokens, VariableDeclarator.shown]
    simp
  have hstart : first.offset = startOf d.tokens := by
    have hfirst := @startOf_append d.tokens us (by simp [tokens, VariableDeclarator.shown])
    rw [← hfirst, heq, startOf_cons]
  have hpair : d.first.shown.Pairwise fun t u => t.stop ≤ u.offset := by
    refine hc.stands.pairwise.sublist (List.IsInfix.sublist ?_)
    obtain ⟨w, ws, hw⟩ : ∃ w ws, d.type.tokens = w :: ws := ⟨_, _, rfl⟩
    rw [tokens, hw, List.cons_append, List.cons_append, List.cons_append] at heq
    rw [← (List.cons.inj heq).2]
    exact ⟨ws, d.behindFirst ++ us, by simp⟩
  refine hcross _ c first t rest us₂ P htokens hc fun c₁ h₁ => ?_
  have hvariables := @yields_variables text c₁ us us₂ P first d
    ⟨n, d.first.name.token.offset, d.first.marks.head?.map (·.val.offset), t⟩ hrole hstart
    (min_firstMark d.first.marks d.first.name.token _ hpair) hsplit h₁
  refine yields_recurBy fun again _ => ?_
  rcases ht with hkind | hkind | hkind | hkind <;> simp only [hkind, if_pos hn] <;> exact hvariables

theorem exists_behind_params (trailers : List Trailer) (ending : FunctionEnding) (us : List Token) :
    ∃ t rest, trailers.flatMap Trailer.tokens ++ (ending.tokens ++ us) = t :: rest ∧
      t.kind.opensParens = false := by
  cases trailers with
  | nil =>
    cases ending with
    | declared semicolon => exact ⟨semicolon, _, rfl, by rw [semicolon.property]; rfl⟩
    | defined body => exact ⟨body.opener, _, rfl, by rw [body.opener.property]; rfl⟩
  | cons trailer trailers =>
    cases trailer with
    | word name => exact ⟨name, _, rfl, by rw [name.property]; rfl⟩
    | qualifier name isQualifier arguments => exact ⟨name, _, rfl, by rw [name.property]; rfl⟩
    | arrow minus gt => exact ⟨minus, _, rfl, by rw [minus.property]; rfl⟩
    | colons t => exact ⟨t, _, rfl, by rw [t.property]; rfl⟩
    | mark t =>
      refine ⟨t, _, rfl, ?_⟩
      have ht := t.property
      cases hkind : t.val.kind <;> rw [hkind] at ht <;> first | rfl | exact absurd ht Bool.false_ne_true
    | list g => exact ⟨g.opener, _, rfl, by rw [g.opener.property]; rfl⟩

theorem yields_functionEnding (start : Token) (stop : Nat) (ending : FunctionEnding)
    (hrole : P.role = .source) (hc : c.Stands (ending.tokens ++ us) P) :
    (functionEnd start stop).Yields (fun _ c' =>
      c'.Stands us (P.announcing [collapsedSlice text start.offset stop])) c := by
  refine yields_recur fun again _ => ?_
  cases ending with
  | declared semicolon =>
    refine (readsOne_nextOrEnd c semicolon us P hc).bind ?_
    rintro _ c₁ ⟨rfl, h₁⟩
    simp only [semicolon.property]
    exact yields_announce (h₁.plain (by rw [semicolon.property]; rfl)) hrole _ _
  | defined body =>
    refine (readsOne_nextOrEnd c body.opener _ P hc).bind ?_
    rintro _ c₁ ⟨rfl, h₁⟩
    simp only [body.opener.property]
    refine (yields_announce h₁.stands hrole _ _).bind fun _ c₂ h₂ => ?_
    have hbehind := h₁.announcing h₂
    exact ((passesInside_throughBrace body).discard c₂ us _
      (hbehind.depth_of_lBrace body.opener.property) hbehind.scopes_lt
      (hbehind.opened body.opener.property)).mono fun _ _ h => h.2

/-- A trailer is gone through if no parenthesis follows, and the function ends behind it or later. -/
theorem yields_trailer {start : Token} {stop : Nat} {Q : Unit → Reading text → Prop} (before : List Token)
    (trailer : Trailer) (ht : t.kind.opensParens = false)
    (hc : c.Stands (trailer.tokens ++ t :: us) P)
    (hrest : ∀ c', c'.Stands (t :: us) P →
      (functionEnd start (stopOf (before ++ trailer.tokens))).Yields Q c') :
    (functionEnd start stop).Yields Q c := by
  refine yields_recur fun again hagain => ?_
  cases trailer with
  | word name =>
    have hname : name.val.kind.isBrace = false := by rw [name.property]; rfl
    rw [Trailer.tokens, stopOf_concat] at hrest
    refine (passes_nextOrEnd hname c _ P hc).bind ?_
    rintro _ c₁ ⟨rfl, h₁⟩
    simp only [name.property]
    split
    · refine (yields_lookAt (n := 0) h₁ rfl).bind ?_
      rintro _ c₂ ⟨rfl, h₂⟩
      rw [if_neg (by simp [ht])]
      exact hagain _ c₂ Q (hrest c₂ h₂)
    · exact hagain _ c₁ Q (hrest c₁ h₁)
  | qualifier name isQualifier arguments =>
    have hname : name.val.kind.isBrace = false := by rw [name.property]; rfl
    have hopener : arguments.opener.kind.opensParens = true ∧ arguments.opener.kind.isBrace = false := by
      rcases arguments.kind_opener with h | h <;> rw [h] <;> exact ⟨rfl, rfl⟩
    have hstop : stopOf (before ++ (Trailer.qualifier name isQualifier arguments).tokens) =
        arguments.last.stop := by
      rw [Trailer.tokens, ← List.singleton_append, ← List.append_assoc, stopOf_bracketed]
    rw [hstop] at hrest
    refine (passes_nextOrEnd hname c _ P hc).bind ?_
    rintro _ c₁ ⟨rfl, h₁⟩
    simp only [name.property, if_pos isQualifier]
    refine (yields_lookAt (n := 0) h₁ rfl).bind ?_
    rintro _ c₂ ⟨rfl, h₂⟩
    rw [if_pos hopener.1]
    refine (passes_next hopener.2 c₂ _ P h₂).bind ?_
    rintro _ c₃ ⟨rfl, h₃⟩
    refine (passes_parameterList arguments c₃ _ P h₃).bind ?_
    rintro _ c₄ ⟨rfl, h₄⟩
    exact hagain _ c₄ Q (hrest c₄ h₄)
  | arrow minus gt =>
    have hgt : gt.val.kind.isBrace = false := by rw [gt.property]; rfl
    have hstop : stopOf (before ++ (Trailer.arrow minus gt).tokens) = gt.val.stop := by
      rw [Trailer.tokens, ← List.singleton_append, ← List.append_assoc, stopOf_concat]
    rw [hstop] at hrest
    refine (passes_nextOrEnd (by rw [minus.property]; rfl) c _ P hc).bind ?_
    rintro _ c₁ ⟨rfl, h₁⟩
    simp only [minus.property]
    refine (yields_lookAt (n := 0) h₁ rfl).bind ?_
    rintro _ c₂ ⟨rfl, h₂⟩
    rw [if_pos gt.property]
    refine (passes_next hgt c₂ _ P h₂).bind ?_
    rintro _ c₃ ⟨rfl, h₃⟩
    exact hagain _ c₃ Q (hrest c₃ h₃)
  | colons colons =>
    rw [Trailer.tokens, stopOf_concat] at hrest
    refine (passes_nextOrEnd (by rw [colons.property]; rfl) c _ P hc).bind ?_
    rintro _ c₁ ⟨rfl, h₁⟩
    simp only [colons.property]
    exact hagain _ c₁ Q (hrest c₁ h₁)
  | mark mark =>
    have hmark := mark.property
    rw [Trailer.tokens, stopOf_concat] at hrest
    refine (passes_nextOrEnd (isBrace_of_isIndirection hmark) c _ P hc).bind ?_
    rintro _ c₁ ⟨rfl, h₁⟩
    have hnext := hagain _ c₁ Q (hrest c₁ h₁)
    cases hkind : mark.val.kind <;> rw [hkind] at hmark <;>
      first | exact absurd hmark Bool.false_ne_true | exact hnext
  | list g =>
    rw [Trailer.tokens, stopOf_list] at hrest
    refine (passes_nextOrEnd (by rw [g.opener.property]; rfl) c _ P hc).bind ?_
    rintro _ c₁ ⟨rfl, h₁⟩
    simp only [g.opener.property]
    refine (passes_throughAngles g c₁ _ P h₁).bind ?_
    rintro list c₂ ⟨hlist, h₂⟩
    rw [hlist]
    exact hagain _ c₂ Q (hrest c₂ h₂)

theorem yields_functionEnd (start : Token) (before : List Token) (trailers : List Trailer)
    (ending : FunctionEnding) {stop : Nat} (hstop : stop = stopOf before) (hrole : P.role = .source)
    (hc : c.Stands (trailers.flatMap Trailer.tokens ++ (ending.tokens ++ us)) P) :
    (functionEnd start stop).Yields (fun _ c' => c'.Stands us (P.announcing
      [collapsedSlice text start.offset (stopOf (before ++ trailers.flatMap Trailer.tokens))])) c := by
  induction trailers generalizing c before stop with
  | nil =>
    rw [List.flatMap_nil, List.append_nil, ← hstop]
    exact yields_functionEnding start stop ending hrole hc
  | cons trailer trailers ih =>
    obtain ⟨t, rest, heq, ht⟩ := exists_behind_params trailers ending us
    rw [List.flatMap_cons, List.append_assoc, heq] at hc
    refine yields_trailer before trailer ht hc fun c' h' => ?_
    rw [← heq] at h'
    rw [List.flatMap_cons, ← List.append_assoc]
    exact ih (before ++ trailer.tokens) rfl h'

theorem yields_freeFunction (d : FunctionDeclaration) (hrole : P.role = .source)
    (heq : d.tokens ++ us = first :: rest) (hc : c.StandsBehind first rest P) :
    (freeDeclaration first first).Yields
      (fun _ c' => c'.Stands us (P.announcing [shownText text d.shown])) c := by
  obtain ⟨n, hn, hhead⟩ := @crosses_freeHead text first first.offset d.type d.marks d.name d.unqualified
  have htokens : d.type.tokens ++ (d.marks.map Subtype.val ++ [d.name.token]) ++ d.params.opener ::
      (d.params.rest ++ (d.trailers.flatMap Trailer.tokens ++ (d.ending.tokens ++ us))) =
        first :: rest := by
    rw [← heq, FunctionDeclaration.tokens, FunctionDeclaration.shown, Bracketed.tokens]
    simp
  have hstart : first.offset = startOf d.shown := by
    have hfirst := @startOf_append d.shown (d.ending.tokens ++ us) (by simp [FunctionDeclaration.shown])
    rw [← hfirst, ← List.append_assoc, ← FunctionDeclaration.tokens, heq, startOf_cons]
  refine hhead _ c first d.params.opener rest _ P htokens hc fun c₁ h₁ => ?_
  have hfunction : (freeFunction first d.params.opener).Yields
      (fun _ c' => c'.Stands us (P.announcing [shownText text d.shown])) c₁ := by
    have hopener : d.params.opener.kind.isBrace = false := by
      rcases d.params.kind_opener with h | h <;> rw [h] <;> rfl
    refine (passes_parameterList d.params c₁ _ P (h₁.plain hopener)).bind ?_
    rintro _ c₂ ⟨rfl, h₂⟩
    rw [shownText, ← hstart]
    refine yields_functionEnd first _ d.trailers d.ending ?_ hrole h₂
    rw [← List.singleton_append, ← List.append_assoc, ← List.append_assoc, stopOf_bracketed]
  refine yields_recurBy fun again _ => ?_
  rcases d.params.kind_opener with hkind | hkind <;> simp only [hkind, if_pos hn] <;> exact hfunction

end ReflectionTables.Parsing
