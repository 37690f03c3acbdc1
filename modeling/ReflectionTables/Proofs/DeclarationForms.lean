import ReflectionTables.Proofs.BalancedGroups
/-!
# The forms of declarations

Type words, marks, names, array suffixes and initializers. A parser of declarations has read the
token that it looks at, so a form is gone through from behind its first token to behind the first
token after it, and that token may be the brace of a body.
-/

namespace ReflectionTables.Scanning

open Text

structure PlainName where
  token : Token
  isIdent : token.kind = .ident
  unreserved : token.reserved? = none

structure TypeWord where
  name : PlainName
  list? : Option AngleGroup

def TypeWord.tokens (w : TypeWord) : List Token :=
  w.name.token :: (w.list?.map AngleGroup.tokens).getD []

structure TypeWords where
  first : TypeWord
  more : List TypeWord

def TypeWords.words (type : TypeWords) : List TypeWord := type.first :: type.more

def TypeWords.tokens (type : TypeWords) : List Token := type.words.flatMap TypeWord.tokens

abbrev Mark := { t : Token // t.kind.isIndirection = true }

/-- Two brackets with nothing between them, which are one token, or a group. -/
inductive Bracketed (empty opening closing : TokenKind)
  | empty (brackets : TokenOf empty)
  | full (g : Group opening closing)

namespace Bracketed

variable {empty opening closing : TokenKind}

def opener : Bracketed empty opening closing → Token
  | .empty brackets => brackets
  | .full g => g.opener

def rest : Bracketed empty opening closing → List Token
  | .empty _ => []
  | .full g => g.inner ++ [g.closer.val]

def last : Bracketed empty opening closing → Token
  | .empty brackets => brackets
  | .full g => g.closer

def tokens (b : Bracketed empty opening closing) : List Token := b.opener :: b.rest

theorem kind_opener (b : Bracketed empty opening closing) :
    b.opener.kind = empty ∨ b.opener.kind = opening := by
  cases b with
  | empty brackets => exact .inl brackets.property
  | full g => exact .inr g.opener.property

end Bracketed

abbrev Suffix := Bracketed .emptyBrackets .lBracket .rBracket

abbrev ParameterList := Bracketed .emptyParens .lParen .rParen

inductive Initializer
  | absent
  | assigned (sign : TokenOf .eq) (value : List Token) (balanced : Balanced TokenKind.isInitial value)
  | braced (g : Group .lBrace .rBrace)

def Initializer.tokens : Initializer → List Token
  | .absent => []
  | .assigned sign value _ => sign.val :: value
  | .braced g => g.tokens

inductive FunctionEnding
  | declared (semicolon : TokenOf .semicolon)
  | defined (body : Group .lBrace .rBrace)

def FunctionEnding.tokens : FunctionEnding → List Token
  | .declared semicolon => [semicolon.val]
  | .defined body => body.tokens

/-- The tokens from the comma or semicolon behind a declarator on, if more declarators follow. -/
def listTail {α : Type} (tokens : α → List Token) (more : List (TokenOf .comma × α))
    (semicolon : TokenOf .semicolon) : List Token :=
  more.flatMap (fun later => later.1.val :: tokens later.2) ++ [semicolon.val]

/-- The offset where a row of tokens begins. -/
def startOf (ts : List Token) : Nat := (ts.head?.map (·.offset)).getD 0

/-- The offset where a row of tokens ends. -/
def stopOf (ts : List Token) : Nat := (ts.getLast?.map Token.stop).getD 0

def collapsedSlice (text : String) (start stop : Nat) : String :=
  collapse ((slice? text start stop).getD "")

/-- The text of a row of tokens and of what stands between them, with its blanks collapsed. -/
def shownText (text : String) (ts : List Token) : String :=
  collapsedSlice text (startOf ts) (stopOf ts)

variable {t : Token} {ts us : List Token}

@[simp] theorem startOf_cons (t : Token) (ts : List Token) : startOf (t :: ts) = t.offset := rfl

theorem startOf_append (h : ts ≠ []) : startOf (ts ++ us) = startOf ts := by
  cases ts with
  | nil => exact absurd rfl h
  | cons t ts => rfl

@[simp] theorem stopOf_concat (ts : List Token) (t : Token) : stopOf (ts ++ [t]) = t.stop := by
  rw [stopOf, List.getLast?_concat]
  rfl

@[simp] theorem stopOf_bracketed {empty opening closing : TokenKind} (ts : List Token)
    (b : Bracketed empty opening closing) : stopOf (ts ++ b.tokens) = b.last.stop := by
  cases b with
  | empty brackets => exact stopOf_concat ts brackets
  | full g =>
    have h := stopOf_concat (ts ++ g.opener.val :: g.inner) g.closer
    rwa [List.append_assoc] at h

@[simp] theorem stopOf_list (ts : List Token) (g : AngleGroup) :
    stopOf (ts ++ g.tokens) = g.closer.stop := by
  rw [AngleGroup.tokens, ← List.cons_append, ← List.append_assoc, stopOf_concat]

@[simp] theorem listTail_cons {α : Type} (tokens : α → List Token) (later : TokenOf .comma × α)
    (more : List (TokenOf .comma × α)) (semicolon : TokenOf .semicolon) :
    listTail tokens (later :: more) semicolon =
      later.1.val :: (tokens later.2 ++ listTail tokens more semicolon) := by
  simp [listTail]

theorem exists_listTail {α : Type} (tokens : α → List Token) (more : List (TokenOf .comma × α))
    (semicolon : TokenOf .semicolon) : ∃ t ts, listTail tokens more semicolon = t :: ts ∧
      (t.kind = .semicolon ∨ t.kind = .comma) := by
  cases more with
  | nil => exact ⟨semicolon, [], rfl, .inl semicolon.property⟩
  | cons later more => exact ⟨later.1, _, rfl, .inr later.1.property⟩

@[simp] theorem PlainName.isBrace (name : PlainName) : name.token.kind.isBrace = false := by
  rw [name.isIdent]
  rfl

/-- A declarator begins with its first mark, or else with its name. -/
theorem min_firstMark (marks : List Mark) (name : Token) (after : List Token)
    (h : (marks.map Subtype.val ++ name :: after).Pairwise fun t u => t.stop ≤ u.offset) :
    min ((marks.head?.map (·.val.offset)).getD name.offset) name.offset =
      startOf (marks.map Subtype.val ++ name :: after) := by
  cases marks with
  | nil => exact Nat.min_self _
  | cons mark marks =>
    rw [List.map_cons, List.cons_append, List.pairwise_cons] at h
    have hle := h.1 name (by simp)
    exact Nat.min_eq_left (Nat.le_trans (Nat.le_add_right _ _) hle)

theorem Initializer.exists_first (init : Initializer) (us : List Token)
    (ht : t.kind = .semicolon ∨ t.kind = .comma) :
    ∃ u rest, init.tokens ++ t :: us = u :: rest ∧
      (u.kind = .eq ∨ u.kind = .lBrace ∨ u.kind = .comma ∨ u.kind = .semicolon) := by
  cases init with
  | absent => exact ⟨t, us, rfl, by rcases ht with h | h <;> simp [h]⟩
  | assigned sign value balanced => exact ⟨sign, _, rfl, .inl sign.property⟩
  | braced g => exact ⟨g.opener, _, rfl, .inr (.inl g.opener.property)⟩

end ReflectionTables.Scanning

namespace ReflectionTables.Parsing

open Text Scanning Reflected Parsing.Parser

variable {text : String} {α β γ σ : Type} {c : Reading text} {ts us rest : List Token} {P : Standing}
  {t first : Token}

structure Reading.StandsBehind (c : Reading text) (t : Token) (us : List Token) (P : Standing) :
    Prop where
  stands : c.Stands us (P.behind t)
  standsIn : t.StandsIn text
  depth_eq : t.depth = t.kind.ownDepth P.depth
  scopes_lt : ∀ s ∈ P.scopes, s.depth < P.depth

namespace Reading.StandsBehind

theorem plain (h : c.StandsBehind t us P) (ht : t.kind.isBrace = false) : c.Stands us P := by
  have hstands := h.stands
  rwa [Standing.behind_of_isBrace ht] at hstands

theorem opened (h : c.StandsBehind t us P) (ht : t.kind = .lBrace) : c.Stands us P.opened := by
  have hstands := h.stands
  rwa [Standing.behind_of_lBrace ht] at hstands

theorem depth_of_lBrace (h : c.StandsBehind t us P) (ht : t.kind = .lBrace) : t.depth = P.depth := by
  have hdepth := h.depth_eq
  rwa [ht] at hdepth

end Reading.StandsBehind

theorem Reading.Stands.behind (h : c.Stands (t :: us) P) {c' : Reading text}
    (h' : c'.Stands us (P.behind t)) : c'.StandsBehind t us P :=
  ⟨h', h.standsIn, h.nested.2.1, h.scopes_lt⟩

def Parser.ReadsOne (text : String) (read : Parser Token) : Prop :=
  ∀ (c : Reading text) (t : Token) (us : List Token) (P : Standing), c.Stands (t :: us) P →
    read.Yields (fun u c' => u = t ∧ c'.StandsBehind t us P) c

theorem readsOne_next : next.ReadsOne text := fun _ _ _ _ hc =>
  (yields_next hc).mono fun _ _ h => ⟨h.1, hc.behind h.2⟩

theorem readsOne_nextOrEnd : nextOrEnd.ReadsOne text := fun _ _ _ _ hc =>
  (yields_nextOrEnd hc).mono fun _ _ h => ⟨h.1, hc.behind h.2⟩

namespace Parser

/-- Whether a parser that has read a token goes through the given tokens, the one that was read
first, and comes to another state behind the token after them. -/
def CrossesFrom (text : String) (L : σ → Token → Parser β) (ts : List Token) (s s' : σ) : Prop :=
  ∀ (Q : β → Reading text → Prop) (c : Reading text) (t t' : Token) (rest us : List Token)
    (P : Standing), ts ++ t' :: us = t :: rest → c.StandsBehind t rest P →
      (∀ c', c'.StandsBehind t' us P → (L s' t').Yields Q c') → (L s t).Yields Q c

variable {L : σ → Token → Parser β} {s s' s'' : σ}

theorem crossesFrom_nil : CrossesFrom text L [] s s := by
  intro Q c t t' rest us P heq hc h
  obtain ⟨rfl, rfl⟩ := List.cons.inj heq
  exact h c hc

theorem CrossesFrom.append (h : CrossesFrom text L ts s s') (h' : CrossesFrom text L us s' s'') :
    CrossesFrom text L (ts ++ us) s s'' := by
  intro Q c t t' rest vs P heq hc hlast
  rw [List.append_assoc] at heq
  obtain ⟨u, rest', heq'⟩ : ∃ u rest', us ++ t' :: vs = u :: rest' := by
    cases us with
    | nil => exact ⟨t', vs, rfl⟩
    | cons u us => exact ⟨u, us ++ t' :: vs, rfl⟩
  rw [heq'] at heq
  exact h Q c t u rest rest' P heq hc fun c₁ h₁ => h' Q c₁ u t' rest' vs P heq' h₁ hlast

theorem CrossesFrom.cons (h : CrossesFrom text L [t] s s') (h' : CrossesFrom text L us s' s'') :
    CrossesFrom text L (t :: us) s s'' :=
  h.append h'

/-- A round that goes through tokens and reads the next one. -/
theorem crossesFrom_recurBy {measure : α → Nat → Nat} {body : (α → Parser β) → α → Parser β} {a : α}
    {g : γ → Token → α} {sub : Parser γ} {R : γ → Prop} {read : Parser Token}
    (hsub : sub.Passes text ts R) (hread : read.ReadsOne text)
    (hL : L s t = Parser.recurBy measure body a)
    (hL' : ∀ r u, R r → L s' u = Parser.recurBy measure body (g r u))
    (hstep : ∀ again, body again a = sub >>= fun r => read >>= fun u => again (g r u))
    (ht : t.kind.isBrace = false) : CrossesFrom text L (t :: ts) s s' := by
  intro Q c t₁ t' rest us P heq hc hlast
  obtain ⟨rfl, rfl⟩ := List.cons.inj heq
  rw [hL]
  refine yields_recurBy fun again hagain => ?_
  rw [hstep]
  refine (hsub c _ P (hc.plain ht)).bind fun r c₁ h₁ => ?_
  refine (hread c₁ t' us P h₁.2).bind ?_
  rintro _ c₂ ⟨rfl, h₂⟩
  refine hagain _ c₂ Q ?_
  rw [← hL' r _ h₁.1]
  exact hlast c₂ h₂

theorem crossesFrom_token {measure : α → Nat → Nat} {body : (α → Parser β) → α → Parser β} {a : α}
    {g : Token → α} {read : Parser Token} (hread : read.ReadsOne text)
    (hL : L s t = Parser.recurBy measure body a) (hL' : ∀ u, L s' u = Parser.recurBy measure body (g u))
    (hstep : ∀ again, body again a = read >>= fun u => again (g u)) (ht : t.kind.isBrace = false) :
    CrossesFrom text L [t] s s' :=
  have hsub : (pure () : Parser Unit).Passes text [] fun _ => True := passes_pure trivial
  crossesFrom_recurBy hsub hread hL (fun _ u _ => hL' u) hstep ht

end Parser

theorem passes_parameterList (params : ParameterList) :
    (throughParens params.opener).Passes text params.rest (· = params.last) := by
  cases params with
  | empty brackets =>
    rw [throughParens, Bracketed.opener, if_pos brackets.property]
    exact passes_pure rfl
  | full g => exact passes_throughParens g

theorem passes_suffix (suffix : Suffix) :
    (throughBrackets suffix.opener).Passes text suffix.rest (· = suffix.last) := by
  cases suffix with
  | empty brackets =>
    rw [throughBrackets, Bracketed.opener, if_pos brackets.property]
    exact passes_pure rfl
  | full g => exact passes_throughBrackets g

theorem isBrace_of_isIndirection (h : t.kind.isIndirection = true) : t.kind.isBrace = false := by
  cases hkind : t.kind <;> rw [hkind] at h <;> first | rfl | cases h

theorem crosses_throughMarks (marks : List Mark) :
    CrossesFrom text (fun _ : Unit => throughMarks) (marks.map Subtype.val) () () := by
  induction marks with
  | nil => exact crossesFrom_nil
  | cons mark marks ih =>
    refine CrossesFrom.cons (crossesFrom_token (g := id) readsOne_nextOrEnd rfl
      (fun _ => rfl) (fun again => ?_) (isBrace_of_isIndirection mark.property)) ih
    rw [if_pos mark.property]
    rfl

/-- The marks before a name are gone through up to the name. -/
theorem yields_throughMarks (marks : List Mark) (heq : marks.map Subtype.val ++ t :: us = first :: rest)
    (hc : c.StandsBehind first rest P) (ht : t.kind.isIndirection = false) :
    (throughMarks first).Yields (fun u c' => u = t ∧ c'.StandsBehind t us P) c := by
  refine crosses_throughMarks marks _ c first t rest us P heq hc fun c' h' => ?_
  refine yields_recurBy fun again _ => ?_
  rw [if_neg (by simp [ht])]
  exact ⟨rfl, h'⟩

@[simp] theorem opensBrackets_opener (suffix : Suffix) : suffix.opener.kind.opensBrackets = true := by
  rcases suffix.kind_opener with h | h <;> rw [h] <;> rfl

@[simp] theorem isBrace_opener (suffix : Suffix) : suffix.opener.kind.isBrace = false := by
  rcases suffix.kind_opener with h | h <;> rw [h] <;> rfl

theorem crosses_throughSuffixes (suffixes : List Suffix) {before : List Token} :
    CrossesFrom text throughSuffixes (suffixes.flatMap Bracketed.tokens) (stopOf before)
      (stopOf (before ++ suffixes.flatMap Bracketed.tokens)) := by
  induction suffixes generalizing before with
  | nil =>
    rw [List.flatMap_nil, List.append_nil]
    exact crossesFrom_nil
  | cons suffix suffixes ih =>
    rw [List.flatMap_cons, ← List.append_assoc]
    refine CrossesFrom.append (crossesFrom_recurBy (g := fun close u => (close.stop, u)) (passes_suffix suffix)
      readsOne_nextOrEnd rfl (fun close u hclose => ?_) (fun again => ?_) (isBrace_opener suffix)) ih
    · rw [stopOf_bracketed, hclose]
      rfl
    · exact if_pos (opensBrackets_opener suffix)

/-- The array suffixes of a declarator are gone through up to what follows. -/
theorem yields_throughSuffixes (before : List Token) (suffixes : List Suffix) {stop : Nat}
    (hstop : stop = stopOf before)
    (heq : suffixes.flatMap Bracketed.tokens ++ t :: us = first :: rest)
    (hc : c.StandsBehind first rest P) (ht : t.kind.opensBrackets = false) :
    (throughSuffixes stop first).Yields (fun r c' =>
      r = (stopOf (before ++ suffixes.flatMap Bracketed.tokens), t) ∧ c'.StandsBehind t us P) c := by
  rw [hstop]
  refine crosses_throughSuffixes suffixes _ c first t rest us P heq hc fun c' h' => ?_
  refine yields_recurBy fun again _ => ?_
  simp only [ht]
  exact ⟨rfl, h'⟩

/-- Goes through a value that may stand behind a declarator, and reads the token behind it. -/
def throughValue (read : Parser Token) (token : Token) : Parser Token :=
  match token.kind with
  | .eq => throughInitializer
  | .lBrace => do
    discard (throughBrace token)
    read
  | _ => return token

/-- The value of a declarator is gone through up to the comma or the semicolon behind it. -/
theorem yields_throughValue {read : Parser Token} (hread : read.ReadsOne text) (init : Initializer)
    (heq : init.tokens ++ t :: us = first :: rest) (hc : c.StandsBehind first rest P)
    (ht : t.kind = .semicolon ∨ t.kind = .comma) :
    (throughValue read first).Yields (fun u c' => u = t ∧ c'.Stands us P) c := by
  have hbrace : t.kind.isBrace = false := by rcases ht with h | h <;> rw [h] <;> rfl
  cases init with
  | absent =>
    obtain ⟨rfl, rfl⟩ := List.cons.inj heq
    rcases ht with h | h <;> simp only [throughValue, h] <;> exact ⟨rfl, hc.plain hbrace⟩
  | assigned sign value balanced =>
    obtain ⟨rfl, rfl⟩ := List.cons.inj heq
    simp only [throughValue, sign.property]
    refine passes_throughInitializer balanced ht c us P ?_
    have hstands := hc.plain (by rw [sign.property]; rfl)
    simpa using hstands
  | braced g =>
    obtain ⟨rfl, rfl⟩ := List.cons.inj heq
    simp only [throughValue, g.opener.property]
    have hstands := hc.opened g.opener.property
    refine ((passesInside_throughBrace g).discard c (t :: us) P (hc.depth_of_lBrace g.opener.property)
      hc.scopes_lt (by simpa using hstands)).bind fun _ c₁ h₁ => ?_
    exact (hread c₁ t us P h₁.2).mono fun _ _ h₂ => ⟨h₂.1, h₂.2.plain hbrace⟩

theorem yields_span (start stop : Nat) :
    (span start stop).Yields (fun shown c' => shown = collapsedSlice text start stop ∧ c' = c) c := by
  refine (yields_cut (by simp)).bind fun piece c₁ h₁ => ⟨?_, h₁.2⟩
  rw [collapsedSlice, h₁.1]
  rfl

end ReflectionTables.Parsing
