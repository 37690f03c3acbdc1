import ReflectionTables.Proofs.CapturedLists
import ReflectionTables.Proofs.CarefulSkipping
import ReflectionTables.Proofs.DeclarationForms
/-!
# What follows the name of a method

The parser goes through the parameters, the trailers and the end of a method and stops right behind
them: at a semicolon, behind a value, behind a body, or behind the initializers of a constructor and
its body. The rows of tokens that it goes through are a language, one constructor for each kind of
token that it tells apart. Where brackets pair up, the tails that are written for methods belong to
this language.
-/

namespace ReflectionTables.Scanning

variable {t : Token} {ts us : List Token} {n : Nat} {afterName : Bool}

inductive ClosesBrackets : Nat → List Token → Prop
  | closing {t : Token} (hkind : t.kind = .rBracket) : ClosesBrackets 0 [t]
  | closed {n : Nat} {t : Token} {ts : List Token} (hkind : t.kind = .rBracket)
      (hrest : ClosesBrackets n ts) : ClosesBrackets (n + 1) (t :: ts)
  | opened {n : Nat} {t : Token} {ts : List Token} (hkind : t.kind = .lBracket)
      (hrest : ClosesBrackets (n + 1) ts) : ClosesBrackets n (t :: ts)
  | token {n : Nat} {t : Token} {ts : List Token} (hkind : t.kind ≠ .lBracket ∧ t.kind ≠ .rBracket)
      (hrest : ClosesBrackets n ts) : ClosesBrackets n (t :: ts)

/-- Tokens behind one that opens a group in parentheses, up to the end of the group. -/
def BehindParens (opening : Token) (ts : List Token) : Prop :=
  if opening.kind = .emptyParens then ts = [] else ClosesParens 0 ts

def BehindBrackets (opening : Token) (ts : List Token) : Prop :=
  if opening.kind = .emptyBrackets then ts = [] else ClosesBrackets 0 ts

inductive EndsStatement : List Token → Prop
  | semicolon {t : Token} (hkind : t.kind = .semicolon) : EndsStatement [t]
  | block {t : Token} {inner ts : List Token} (hkind : t.kind = .lBrace)
      (hinner : ClosesBrace t.depth inner) (hrest : EndsStatement ts) : EndsStatement (t :: (inner ++ ts))
  | token {t : Token} {ts : List Token}
      (hkind : t.kind ≠ .semicolon ∧ t.kind ≠ .lBrace ∧ t.kind ≠ .rBrace)
      (hrest : EndsStatement ts) : EndsStatement (t :: ts)

def TokenKind.isNaming : TokenKind → Bool
  | .ident | .colonColon => true
  | _ => false

def TokenKind.isBetween : TokenKind → Bool
  | .comma | .dot => true
  | _ => false

/-- The initializers of a constructor and its body, behind a name or not. A group behind a name is the value
of an initializer, and braces behind no name are the body. -/
inductive EndsConstructor : Bool → List Token → Prop
  | body {t : Token} {ts : List Token} (hkind : t.kind = .lBrace) (hbody : ClosesBrace t.depth ts) :
      EndsConstructor false (t :: ts)
  | name {afterName : Bool} {t : Token} {ts : List Token} (hkind : t.kind.isNaming = true)
      (hrest : EndsConstructor true ts) : EndsConstructor afterName (t :: ts)
  | list {afterName : Bool} {t : Token} {inner ts : List Token} (hkind : t.kind = .lt)
      (hinner : ClosesAngles 1 inner) (hrest : EndsConstructor afterName ts) :
      EndsConstructor afterName (t :: (inner ++ ts))
  | parens {t : Token} {inner ts : List Token} (hkind : t.kind.opensParens = true)
      (hinner : BehindParens t inner) (hrest : EndsConstructor false ts) :
      EndsConstructor true (t :: (inner ++ ts))
  | braces {t : Token} {inner ts : List Token} (hkind : t.kind = .lBrace)
      (hinner : ClosesBrace t.depth inner) (hrest : EndsConstructor false ts) :
      EndsConstructor true (t :: (inner ++ ts))
  | between {afterName : Bool} {t : Token} {ts : List Token} (hkind : t.kind.isBetween = true)
      (hrest : EndsConstructor afterName ts) : EndsConstructor afterName (t :: ts)

/-- Whether a token may stand alone between the parameters of a method and its end. -/
def TokenKind.isTrailing : TokenKind → Bool
  | .ident | .colonColon | .amp | .ampAmp | .star | .minus | .gt => true
  | _ => false

inductive EndsMethod : List Token → Prop
  | semicolon {t : Token} (hkind : t.kind = .semicolon) : EndsMethod [t]
  | body {t : Token} {ts : List Token} (hkind : t.kind = .lBrace) (hbody : ClosesBrace t.depth ts) :
      EndsMethod (t :: ts)
  | value {t : Token} {ts : List Token} (hkind : t.kind = .eq) (hrest : EndsStatement ts) :
      EndsMethod (t :: ts)
  | initializers {t : Token} {ts : List Token} (hkind : t.kind = .colon) (hrest : EndsConstructor false ts) :
      EndsMethod (t :: ts)
  | parens {t : Token} {inner ts : List Token} (hkind : t.kind.opensParens = true)
      (hinner : BehindParens t inner) (hrest : EndsMethod ts) : EndsMethod (t :: (inner ++ ts))
  | brackets {t : Token} {inner ts : List Token} (hkind : t.kind.opensBrackets = true)
      (hinner : BehindBrackets t inner) (hrest : EndsMethod ts) : EndsMethod (t :: (inner ++ ts))
  | list {t : Token} {inner ts : List Token} (hkind : t.kind = .lt) (hinner : ClosesAngles 1 inner)
      (hrest : EndsMethod ts) : EndsMethod (t :: (inner ++ ts))
  | token {t : Token} {ts : List Token} (hkind : t.kind.isTrailing = true) (hrest : EndsMethod ts) :
      EndsMethod (t :: ts)

@[simp] theorem closesBrackets_cons : ClosesBrackets n (t :: ts) ↔
    match t.kind, n with
    | .lBracket, n => ClosesBrackets (n + 1) ts
    | .rBracket, 0 => ts = []
    | .rBracket, n + 1 => ClosesBrackets n ts
    | _, n => ClosesBrackets n ts := by
  constructor
  · intro h
    cases h with
    | closing hkind => simp [hkind]
    | closed hkind hrest => simpa [hkind] using hrest
    | opened hkind hrest => simpa [hkind] using hrest
    | token hkind hrest => split <;> simp_all
  · split
    · exact .opened ‹_›
    · rintro rfl
      exact .closing ‹_›
    · exact .closed ‹_›
    · rename_i m _ _ hlBracket hlast hclosed
      refine .token ⟨hlBracket, fun hkind => ?_⟩
      cases m with
      | zero => exact hlast hkind rfl
      | succ m => exact hclosed m hkind rfl

@[simp] theorem endsStatement_cons : EndsStatement (t :: ts) ↔
    match t.kind with
    | .semicolon => ts = []
    | .lBrace => Followed (ClosesBrace t.depth) EndsStatement ts
    | .rBrace => False
    | _ => EndsStatement ts := by
  constructor
  · intro h
    cases h with
    | semicolon hkind => simp [hkind]
    | block hkind hinner hrest =>
      simp only [hkind]
      exact ⟨_, _, rfl, hinner, hrest⟩
    | token hkind hrest => split <;> simp_all
  · split
    · rintro rfl
      exact .semicolon ‹_›
    · rintro ⟨inner, rest, rfl, hinner, hrest⟩
      exact .block ‹_› hinner hrest
    · exact False.elim
    · exact .token ⟨‹_›, ‹_›, ‹_›⟩

@[simp] theorem endsConstructor_cons : EndsConstructor afterName (t :: ts) ↔
    match t.kind, afterName with
    | .ident, _ | .colonColon, _ => EndsConstructor true ts
    | .lt, _ => Followed (ClosesAngles 1) (EndsConstructor afterName) ts
    | .lParen, true | .emptyParens, true => Followed (BehindParens t) (EndsConstructor false) ts
    | .lBrace, true => Followed (ClosesBrace t.depth) (EndsConstructor false) ts
    | .lBrace, false => ClosesBrace t.depth ts
    | .comma, _ | .dot, _ => EndsConstructor afterName ts
    | _, _ => False := by
  constructor
  · intro h
    cases h with
    | body hkind hbody => simpa [hkind] using hbody
    | name hkind hrest => cases hk : t.kind <;> simp_all [TokenKind.isNaming]
    | list hkind hinner hrest =>
      simp only [hkind]
      exact ⟨_, _, rfl, hinner, hrest⟩
    | parens hkind hinner hrest =>
      cases hk : t.kind <;> simp_all [TokenKind.opensParens] <;> exact ⟨_, _, rfl, hinner, hrest⟩
    | braces hkind hinner hrest =>
      simp only [hkind]
      exact ⟨_, _, rfl, hinner, hrest⟩
    | between hkind hrest => cases hk : t.kind <;> simp_all [TokenKind.isBetween]
  · split
    · exact .name (by simp [*, TokenKind.isNaming])
    · exact .name (by simp [*, TokenKind.isNaming])
    · rintro ⟨inner, rest, rfl, hinner, hrest⟩
      exact .list ‹_› hinner hrest
    · rintro ⟨inner, rest, rfl, hinner, hrest⟩
      exact .parens (by simp [*, TokenKind.opensParens]) hinner hrest
    · rintro ⟨inner, rest, rfl, hinner, hrest⟩
      exact .parens (by simp [*, TokenKind.opensParens]) hinner hrest
    · rintro ⟨inner, rest, rfl, hinner, hrest⟩
      exact .braces ‹_› hinner hrest
    · exact .body ‹_›
    · exact .between (by simp [*, TokenKind.isBetween])
    · exact .between (by simp [*, TokenKind.isBetween])
    · exact False.elim

@[simp] theorem endsMethod_cons : EndsMethod (t :: ts) ↔
    match t.kind with
    | .semicolon => ts = []
    | .lBrace => ClosesBrace t.depth ts
    | .eq => EndsStatement ts
    | .colon => EndsConstructor false ts
    | .lParen | .emptyParens => Followed (BehindParens t) EndsMethod ts
    | .lBracket | .emptyBrackets => Followed (BehindBrackets t) EndsMethod ts
    | .lt => Followed (ClosesAngles 1) EndsMethod ts
    | .ident | .colonColon | .amp | .ampAmp | .star | .minus | .gt => EndsMethod ts
    | _ => False := by
  constructor
  · intro h
    cases h with
    | semicolon hkind => simp [hkind]
    | body hkind hbody => simpa [hkind] using hbody
    | value hkind hrest => simpa [hkind] using hrest
    | initializers hkind hrest => simpa [hkind] using hrest
    | parens hkind hinner hrest =>
      cases hk : t.kind <;> simp_all [TokenKind.opensParens] <;> exact ⟨_, _, rfl, hinner, hrest⟩
    | brackets hkind hinner hrest =>
      cases hk : t.kind <;> simp_all [TokenKind.opensBrackets] <;> exact ⟨_, _, rfl, hinner, hrest⟩
    | list hkind hinner hrest =>
      simp only [hkind]
      exact ⟨_, _, rfl, hinner, hrest⟩
    | token hkind hrest => cases hk : t.kind <;> simp_all [TokenKind.isTrailing]
  · split
    · rintro rfl
      exact .semicolon ‹_›
    · exact .body ‹_›
    · exact .value ‹_›
    · exact .initializers ‹_›
    · rintro ⟨inner, rest, rfl, hinner, hrest⟩
      exact .parens (by simp [*, TokenKind.opensParens]) hinner hrest
    · rintro ⟨inner, rest, rfl, hinner, hrest⟩
      exact .parens (by simp [*, TokenKind.opensParens]) hinner hrest
    · rintro ⟨inner, rest, rfl, hinner, hrest⟩
      exact .brackets (by simp [*, TokenKind.opensBrackets]) hinner hrest
    · rintro ⟨inner, rest, rfl, hinner, hrest⟩
      exact .brackets (by simp [*, TokenKind.opensBrackets]) hinner hrest
    · rintro ⟨inner, rest, rfl, hinner, hrest⟩
      exact .list ‹_› hinner hrest
    all_goals first
      | exact False.elim
      | exact .token (by simp [*, TokenKind.isTrailing])

variable {outside : TokenKind → Bool} {depth : Nat}

theorem nested_cons_of_isBrace (hkind : t.kind.isBrace = false) (hnested : Nested depth (t :: ts)) :
    t.depth = depth ∧ Nested depth ts := by
  obtain ⟨-, hdepth, hrest⟩ := hnested
  rw [TokenKind.depthAfter_of_isBrace hkind] at hrest
  refine ⟨?_, hrest⟩
  rw [hdepth, TokenKind.ownDepth, if_neg]
  intro h
  rw [h] at hkind
  cases hkind

@[simp] theorem depthBehind_cons (depth : Nat) (t : Token) (ts : List Token) :
    depthBehind depth (t :: ts) = depthBehind (t.kind.depthAfter depth) ts := rfl

/-- The bracket that closes a group leads back to the place before it. -/
theorem TokenKind.depth_of_closer? {kind kind' : TokenKind} (hpair : kind.closer? = some kind') (depth : Nat) :
    kind.ownDepth depth = depth ∧ depth ≤ kind.depthAfter depth ∧
      kind'.ownDepth (kind.depthAfter depth) = depth ∧ kind'.depthAfter (kind.depthAfter depth) = depth := by
  cases kind <;> simp only [TokenKind.closer?, Option.some.injEq, reduceCtorEq] at hpair <;> subst hpair <;>
    simp [TokenKind.ownDepth, TokenKind.depthAfter]

theorem nested_group {opening closing : Token} {inner : List Token}
    (hpair : opening.kind.closer? = some closing.kind)
    (hnested : Nested depth (opening :: (inner ++ closing :: ts)))
    (hinner : Nested (opening.kind.depthAfter depth) inner →
      depthBehind (opening.kind.depthAfter depth) inner = opening.kind.depthAfter depth) :
    opening.depth = depth ∧ closing.depth = depth ∧ Nested (opening.kind.depthAfter depth) inner ∧
      Nested depth ts ∧
      depthBehind depth (opening :: (inner ++ closing :: ts)) = depthBehind depth ts := by
  obtain ⟨hown, -, hclose, hback⟩ := TokenKind.depth_of_closer? hpair depth
  obtain ⟨-, hopening, hrest⟩ := hnested
  obtain ⟨hnested, hrest⟩ := (nested_append _ _ _).mp hrest
  rw [hinner hnested] at hrest
  obtain ⟨-, hclosing, hts⟩ := hrest
  rw [hback] at hts
  refine ⟨hopening.trans hown, hclosing.trans hclose, hnested, hts, ?_⟩
  rw [depthBehind_cons, depthBehind_append, hinner hnested, depthBehind_cons, hback]

/-- Tokens whose brackets pair up lie as deep as their place or deeper, and lead back to it. -/
theorem Balanced.le_depth (h : Balanced outside ts) (hnested : Nested depth ts) :
    (∀ t ∈ ts, depth ≤ t.depth) ∧ depthBehind depth ts = depth := by
  induction h generalizing depth with
  | nil => exact ⟨by simp, rfl⟩
  | @token outside t ts hkind _ _ ih =>
    have hbrace := TokenKind.isBrace_of_isBracket hkind
    obtain ⟨hdepth, hrest⟩ := nested_cons_of_isBrace hbrace hnested
    obtain ⟨hle, hbehind⟩ := ih hrest
    rw [depthBehind_cons, TokenKind.depthAfter_of_isBrace hbrace]
    exact ⟨List.forall_mem_cons.mpr ⟨Nat.le_of_eq hdepth.symm, hle⟩, hbehind⟩
  | @group outside opening closing inner ts hpair _ _ ihinner ih =>
    obtain ⟨hopening, hclosing, hinner, hts, hbehind⟩ :=
      nested_group hpair hnested fun hinner => (ihinner hinner).2
    obtain ⟨-, hdeeper, -, -⟩ := TokenKind.depth_of_closer? hpair depth
    obtain ⟨hle, hback⟩ := ih hts
    refine ⟨?_, hbehind.trans hback⟩
    rw [List.forall_mem_cons, List.forall_mem_append, List.forall_mem_cons]
    refine ⟨Nat.le_of_eq hopening.symm, fun t ht => ?_, Nat.le_of_eq hclosing.symm, hle⟩
    exact Nat.le_trans hdeeper ((ihinner hinner).1 t ht)

/-- Tokens in front of a row that ends in a brace belong to the row, if they lie deeper. -/
theorem ClosesBrace.append (hts : ∀ t ∈ ts, depth < t.depth) (hus : ClosesBrace depth us) :
    ClosesBrace depth (ts ++ us) := by
  induction ts with
  | nil => exact hus
  | cons t ts ih =>
    obtain ⟨ht, hts⟩ := List.forall_mem_cons.mp hts
    refine .inside (fun hclose => ?_) (ih hts)
    omega

theorem closesBrace_of_balanced {opening closing : Token} {inner : List Token} (hopening : opening.kind = .lBrace)
    (hclosing : closing.kind = .rBrace) (hinner : Balanced outside inner)
    (hnested : Nested depth (opening :: (inner ++ closing :: ts))) :
    ClosesBrace opening.depth (inner ++ [closing]) := by
  have hpair : opening.kind.closer? = some closing.kind := by
    rw [hopening, hclosing]
    rfl
  obtain ⟨hdepth, hcloseDepth, hinside, -, -⟩ := nested_group hpair hnested fun h => (hinner.le_depth h).2
  rw [hopening] at hinside
  apply ClosesBrace.append
  · intro t ht
    have hle := (hinner.le_depth hinside).1 t ht
    rw [hdepth]
    exact hle
  · exact .closing ⟨hclosing, hcloseDepth.trans hdepth.symm⟩

/-- Tokens whose brackets pair up do not end a group in parentheses. -/
theorem Balanced.closesParens (h : Balanced outside ts) (hnested : Nested depth ts) (hus : ClosesParens n us) :
    ClosesParens n (ts ++ us) := by
  induction h generalizing depth n us with
  | nil => exact hus
  | @token outside t ts hkind _ _ ih =>
    obtain ⟨-, hrest⟩ := nested_cons_of_isBrace (TokenKind.isBrace_of_isBracket hkind) hnested
    refine .token ⟨?_, ?_, ?_⟩ (ih hrest hus) <;> intro h <;> rw [h] at hkind <;> cases hkind
  | @group outside opening closing inner ts hpair hbalanced _ ihinner ih =>
    obtain ⟨-, -, hinner, hts, -⟩ := nested_group hpair hnested fun hinner => (hbalanced.le_depth hinner).2
    have hrest := ih hts hus
    rw [List.cons_append, List.append_assoc, List.cons_append]
    cases hopening : opening.kind <;> rw [hopening] at hpair <;>
      simp only [TokenKind.closer?, Option.some.injEq, reduceCtorEq] at hpair
    · have hbrace := closesBrace_of_balanced hopening hpair.symm hbalanced hnested
      have hblock := ClosesParens.block hopening hbrace hrest
      rwa [List.append_assoc, List.singleton_append] at hblock
    · exact .opened hopening (ihinner hinner (.closed hpair.symm hrest))
    · have hclosing : closing.kind ≠ .lParen ∧ closing.kind ≠ .rParen ∧ closing.kind ≠ .lBrace := by
        simp [← hpair]
      exact .token (by simp [hopening]) (ihinner hinner (.token hclosing hrest))

/-- Tokens whose brackets pair up do not end a group in brackets. -/
theorem Balanced.closesBrackets (h : Balanced outside ts) (hus : ClosesBrackets n us) :
    ClosesBrackets n (ts ++ us) := by
  induction h generalizing n us with
  | nil => exact hus
  | @token outside t ts hkind _ _ ih =>
    refine .token ⟨?_, ?_⟩ (ih hus) <;> intro h <;> rw [h] at hkind <;> cases hkind
  | @group outside opening closing inner ts hpair _ _ ihinner ih =>
    have hrest := ih hus
    rw [List.cons_append, List.append_assoc, List.cons_append]
    cases hopening : opening.kind <;> rw [hopening] at hpair <;>
      simp only [TokenKind.closer?, Option.some.injEq, reduceCtorEq] at hpair
    · exact .token (by simp [hopening]) (ihinner (.token (by simp [← hpair]) hrest))
    · exact .token (by simp [hopening]) (ihinner (.token (by simp [← hpair]) hrest))
    · exact .opened hopening (ihinner (.closed hpair.symm hrest))

theorem Group.closesBrace (g : Group .lBrace .rBrace) (hnested : Nested depth g.tokens) :
    ClosesBrace g.opener.val.depth (g.inner ++ [g.closer.val]) :=
  closesBrace_of_balanced g.opener.property g.closer.property g.balanced hnested

theorem behindParens_rest (group : ParameterList) (hnested : Nested depth group.tokens) :
    BehindParens group.opener group.rest := by
  rw [BehindParens]
  cases group with
  | empty brackets => rw [Bracketed.opener, if_pos brackets.property, Bracketed.rest]
  | full g =>
    have hopening : g.opener.val.kind = .lParen := g.opener.property
    have hbrace : g.opener.val.kind.isBrace = false := by rw [hopening]; rfl
    obtain ⟨-, hrest⟩ := nested_cons_of_isBrace hbrace hnested
    rw [Bracketed.opener, if_neg (by simp [hopening]), Bracketed.rest]
    exact g.balanced.closesParens ((nested_append _ _ _).mp hrest).1 (.closing g.closer.property)

theorem behindBrackets_rest (group : Suffix) : BehindBrackets group.opener group.rest := by
  rw [BehindBrackets]
  cases group with
  | empty brackets => rw [Bracketed.opener, if_pos brackets.property, Bracketed.rest]
  | full g =>
    have hopening : g.opener.val.kind = .lBracket := g.opener.property
    rw [Bracketed.opener, if_neg (by simp [hopening]), Bracketed.rest]
    exact g.balanced.closesBrackets (.closing g.closer.property)

@[simp] theorem opensParens_opener (group : ParameterList) : group.opener.kind.opensParens = true := by
  obtain h | h := group.kind_opener <;> rw [h] <;> rfl

/-- What may stand between the parameters of a method and its end. -/
inductive Trailer
  | token (t : Token) (isTrailing : t.kind.isTrailing = true)
  | parens (group : ParameterList)
  | brackets (group : Suffix)
  | list (opening : TokenOf .lt) (inner : List Token) (closes : ClosesAngles 1 inner)

def Trailer.tokens : Trailer → List Token
  | .token t _ => [t]
  | .parens group => group.tokens
  | .brackets group => group.tokens
  | .list opening inner _ => opening.val :: inner

/-- A part of the name of what an initializer is for: a name, `::`, or a list in angle brackets. -/
inductive InitializedPart
  | name (t : Token) (isNaming : t.kind.isNaming = true)
  | list (opening : TokenOf .lt) (inner : List Token) (closes : ClosesAngles 1 inner)

def InitializedPart.tokens : InitializedPart → List Token
  | .name t _ => [t]
  | .list opening inner _ => opening.val :: inner

inductive InitialGroup
  | parens (group : ParameterList)
  | braces (group : Group .lBrace .rBrace)

def InitialGroup.tokens : InitialGroup → List Token
  | .parens group => group.tokens
  | .braces group => group.tokens

/-- An initializer of a constructor. Its name may be qualified and have lists in angle brackets, and dots may
follow its value. -/
structure ConstructorInitializer where
  first : Token
  isNaming : first.kind.isNaming = true
  parts : List InitializedPart
  value : InitialGroup
  dots : List (TokenOf .dot)

def ConstructorInitializer.tokens (init : ConstructorInitializer) : List Token :=
  init.first :: (init.parts.flatMap InitializedPart.tokens ++ (init.value.tokens ++ init.dots.map Subtype.val))

inductive OneStatement : List Token → Prop
  | nil : OneStatement []
  | token {t : Token} {ts : List Token} (hkind : t.kind ≠ .semicolon ∧ t.kind.isBrace = false)
      (hrest : OneStatement ts) : OneStatement (t :: ts)
  | braces {ts : List Token} (g : Group .lBrace .rBrace) (hrest : OneStatement ts) :
      OneStatement (g.tokens ++ ts)

inductive MethodEnding
  | declared (semicolon : TokenOf .semicolon)
  | assigned (sign : TokenOf .eq) (value : List Token) (oneStatement : OneStatement value)
      (semicolon : TokenOf .semicolon)
  | defined (body : Group .lBrace .rBrace)
  | constructed (colon : TokenOf .colon) (init : ConstructorInitializer)
      (more : List (TokenOf .comma × ConstructorInitializer)) (body : Group .lBrace .rBrace)

def MethodEnding.tokens : MethodEnding → List Token
  | .declared semicolon => [semicolon.val]
  | .assigned sign value _ semicolon => sign.val :: (value ++ [semicolon.val])
  | .defined body => body.tokens
  | .constructed colon init more body =>
    colon.val :: (init.tokens ++ (more.flatMap (fun later => later.1.val :: later.2.tokens) ++ body.tokens))

/-- What follows the parameters of a method. -/
structure MethodTail where
  trailers : List Trailer
  ending : MethodEnding

def MethodTail.tokens (tail : MethodTail) : List Token :=
  tail.trailers.flatMap Trailer.tokens ++ tail.ending.tokens

theorem OneStatement.endsStatement (h : OneStatement ts) (hnested : Nested depth ts) (hus : EndsStatement us) :
    EndsStatement (ts ++ us) := by
  induction h generalizing depth with
  | nil => exact hus
  | @token t ts hkind _ ih =>
    obtain ⟨-, hrest⟩ := nested_cons_of_isBrace hkind.2 hnested
    refine .token ⟨hkind.1, ?_, ?_⟩ (ih hrest) <;> intro h <;> rw [h] at hkind <;> cases hkind.2
  | braces g _ ih =>
    obtain ⟨hgroup, hrest⟩ := (nested_append _ _ _).mp hnested
    have hblock := EndsStatement.block g.opener.property (g.closesBrace hgroup) (ih hrest)
    simpa [Group.tokens] using hblock

theorem InitializedPart.endsConstructor (part : InitializedPart) (h : EndsConstructor true ts) :
    EndsConstructor true (part.tokens ++ ts) := by
  cases part with
  | name t isNaming => exact .name isNaming h
  | list opening inner closes => exact .list opening.property closes h

theorem InitialGroup.endsConstructor (group : InitialGroup) (hnested : Nested depth group.tokens)
    (h : EndsConstructor false ts) : EndsConstructor true (group.tokens ++ ts) := by
  cases group with
  | parens group => exact .parens (opensParens_opener group) (behindParens_rest group hnested) h
  | braces group => exact .braces group.opener.property (group.closesBrace hnested) h

theorem endsConstructor_dots (dots : List (TokenOf .dot)) (h : EndsConstructor afterName ts) :
    EndsConstructor afterName (dots.map Subtype.val ++ ts) := by
  induction dots with
  | nil => exact h
  | cons dot dots ih => exact .between (by rw [dot.property]; rfl) ih

theorem endsConstructor_parts (parts : List InitializedPart) (h : EndsConstructor true ts) :
    EndsConstructor true (parts.flatMap InitializedPart.tokens ++ ts) := by
  induction parts with
  | nil => exact h
  | cons part parts ih =>
    rw [List.flatMap_cons, List.append_assoc]
    exact part.endsConstructor ih

/-- An initializer leads to what stands behind it, where the braces of a body may begin. -/
theorem ConstructorInitializer.endsConstructor (init : ConstructorInitializer) (hnested : Nested depth init.tokens)
    (h : EndsConstructor false ts) : EndsConstructor false (init.tokens ++ ts) := by
  obtain ⟨first, isNaming, parts, value, dots⟩ := init
  obtain ⟨-, -, hrest⟩ := hnested
  have hvalue := ((nested_append _ _ _).mp ((nested_append _ _ _).mp hrest).2).1
  have hbehind := value.endsConstructor hvalue (endsConstructor_dots dots h)
  rw [ConstructorInitializer.tokens, List.cons_append, List.append_assoc, List.append_assoc]
  exact .name isNaming (endsConstructor_parts parts hbehind)

theorem endsConstructor_more (more : List (TokenOf .comma × ConstructorInitializer))
    (hnested : Nested depth (more.flatMap fun later => later.1.val :: later.2.tokens))
    (h : EndsConstructor false ts) :
    EndsConstructor false (more.flatMap (fun later => later.1.val :: later.2.tokens) ++ ts) := by
  induction more generalizing depth with
  | nil => exact h
  | cons later more ih =>
    obtain ⟨comma, init⟩ := later
    rw [List.flatMap_cons] at hnested ⊢
    obtain ⟨hfirst, hrest⟩ := (nested_append _ _ _).mp hnested
    obtain ⟨-, -, hinit⟩ := hfirst
    rw [List.append_assoc]
    exact .between (by rw [comma.property]; rfl) (init.endsConstructor hinit (ih hrest))

theorem MethodEnding.endsMethod (ending : MethodEnding) (hnested : Nested depth ending.tokens) :
    EndsMethod ending.tokens := by
  cases ending with
  | declared semicolon => exact .semicolon semicolon.property
  | assigned sign value oneStatement semicolon =>
    obtain ⟨-, -, hrest⟩ := hnested
    have hvalue := ((nested_append _ _ _).mp hrest).1
    exact .value sign.property (oneStatement.endsStatement hvalue (.semicolon semicolon.property))
  | defined body => exact .body body.opener.property (body.closesBrace hnested)
  | constructed colon init more body =>
    obtain ⟨-, -, hrest⟩ := hnested
    obtain ⟨hinit, hrest⟩ := (nested_append _ _ _).mp hrest
    obtain ⟨hmore, hbody⟩ := (nested_append _ _ _).mp hrest
    have hend := EndsConstructor.body body.opener.property (body.closesBrace hbody)
    exact .initializers colon.property (init.endsConstructor hinit (endsConstructor_more more hmore hend))

theorem Trailer.endsMethod (trailer : Trailer) (hnested : Nested depth trailer.tokens) (h : EndsMethod ts) :
    EndsMethod (trailer.tokens ++ ts) := by
  cases trailer with
  | token t isTrailing => exact .token isTrailing h
  | parens group => exact .parens (opensParens_opener group) (behindParens_rest group hnested) h
  | brackets group =>
    have hopens : group.opener.kind.opensBrackets = true := by
      obtain h | h := group.kind_opener <;> rw [h] <;> rfl
    exact .brackets hopens (behindBrackets_rest group) h
  | list opening inner closes => exact .list opening.property closes h

theorem MethodTail.endsMethod (tail : MethodTail) (hnested : Nested depth tail.tokens) :
    EndsMethod tail.tokens := by
  obtain ⟨trailers, ending⟩ := tail
  rw [MethodTail.tokens] at hnested ⊢
  induction trailers generalizing depth with
  | nil => exact ending.endsMethod hnested
  | cons trailer trailers ih =>
    rw [List.flatMap_cons, List.append_assoc] at hnested ⊢
    obtain ⟨htrailer, hrest⟩ := (nested_append _ _ _).mp hnested
    exact trailer.endsMethod htrailer (ih hrest)

end ReflectionTables.Scanning

namespace ReflectionTables.Parsing

open Text Scanning Reflected Parsing.Parser Reading

variable {text : String} {c : Reading text} {opening : Token} {ts us : List Token}

theorem consumes_bracketsEnd (n : Nat) : (bracketsEnd n).Consumes (ClosesBrackets n) c := by
  refine consumes_recur ClosesBrackets ?_ n c
  intro again n c ih
  refine consumes_next_bind (by rintro ⟨⟩) fun t ts hpending => ?_
  have hlt := tokensLeft_advance_lt hpending
  split
  · exact (ih _ _ hlt).congr fun us => by simp [*]
  · exact consumes_pure.congr fun us => by simp [*]
  · exact (ih _ _ hlt).congr fun us => by simp [*]
  · exact (ih _ _ hlt).congr fun us => by simp [*]

theorem consumes_throughBrackets : (throughBrackets opening).Consumes (BehindBrackets opening) c := by
  rw [throughBrackets]
  split
  · exact consumes_pure.congr fun us => by simp [BehindBrackets, *]
  · exact (consumes_bracketsEnd 0).congr fun us => by simp [BehindBrackets, *]

theorem consumes_behindParens : (throughParens opening).Consumes (BehindParens opening) c := by
  rw [throughParens]
  split
  · exact consumes_pure.congr fun us => by simp [BehindParens, *]
  · exact (consumes_parensEnd 0).congr fun us => by simp [BehindParens, *]

/-- A statement that is skipped ends at its first semicolon outside braces. -/
theorem consumes_throughStatement : throughStatement.Consumes EndsStatement c := by
  refine consumes_recur (fun _ => EndsStatement) ?_ () c
  intro again _ c ih
  refine consumes_next_bind (by rintro ⟨⟩) fun t ts hpending => ?_
  have hlt := tokensLeft_advance_lt hpending
  split
  · exact consumes_pure.congr fun us => by simp [*]
  · refine Consumes.congr (consumes_throughBrace.discard_bind fun d hd => ih () d ?_)
      fun us => by simp [*]
    exact Nat.lt_of_le_of_lt (tokensLeft_le_of_pending hd) hlt
  · exact consumes_fail.congr fun us => by simp [*]
  · exact (ih () _ hlt).congr fun us => by simp [*]

theorem consumes_throughConstructorInitializers :
    throughConstructorInitializers.Consumes (EndsConstructor false) c := by
  refine consumes_recur EndsConstructor ?_ false c
  intro again afterName c ih
  refine consumes_next_bind (by rintro ⟨⟩) fun t ts hpending => ?_
  have hlt := tokensLeft_advance_lt hpending
  have hbehind (d : Reading text) (hd : d.pending <:+ (c.advance t ts hpending).pending) :
      d.tokensLeft < c.tokensLeft := Nat.lt_of_le_of_lt (tokensLeft_le_of_pending hd) hlt
  split
  · exact (ih _ _ hlt).congr fun us => by simp [*]
  · exact (ih _ _ hlt).congr fun us => by simp [*]
  · exact Consumes.congr (consumes_throughAngles.discard_bind fun d hd => ih _ d (hbehind d hd))
      fun us => by simp [*]
  · exact Consumes.congr (consumes_behindParens.discard_bind fun d hd => ih _ d (hbehind d hd))
      fun us => by simp [*]
  · exact Consumes.congr (consumes_behindParens.discard_bind fun d hd => ih _ d (hbehind d hd))
      fun us => by simp [*]
  · exact Consumes.congr (consumes_throughBrace.discard_bind fun d hd => ih _ d (hbehind d hd))
      fun us => by simp [*]
  · exact consumes_throughBrace.discard.congr fun us => by simp [*]
  · exact (ih _ _ hlt).congr fun us => by simp [*]
  · exact (ih _ _ hlt).congr fun us => by simp [*]
  · exact consumes_fail.congr fun us => by simp [*]

theorem consumes_methodEnd : methodEnd.Consumes EndsMethod c := by
  refine consumes_recur (fun _ => EndsMethod) ?_ () c
  intro again _ c ih
  refine consumes_next_bind (by rintro ⟨⟩) fun t ts hpending => ?_
  have hlt := tokensLeft_advance_lt hpending
  have hbehind (d : Reading text) (hd : d.pending <:+ (c.advance t ts hpending).pending) :
      d.tokensLeft < c.tokensLeft := Nat.lt_of_le_of_lt (tokensLeft_le_of_pending hd) hlt
  split
  · exact consumes_pure.congr fun us => by simp [*]
  · exact consumes_throughBrace.discard.congr fun us => by simp [*]
  · exact consumes_throughStatement.discard.congr fun us => by simp [*]
  · exact consumes_throughConstructorInitializers.congr fun us => by simp [*]
  · exact Consumes.congr (consumes_behindParens.discard_bind fun d hd => ih _ d (hbehind d hd))
      fun us => by simp [*]
  · exact Consumes.congr (consumes_behindParens.discard_bind fun d hd => ih _ d (hbehind d hd))
      fun us => by simp [*]
  · exact Consumes.congr (consumes_throughBrackets.discard_bind fun d hd => ih _ d (hbehind d hd))
      fun us => by simp [*]
  · exact Consumes.congr (consumes_throughBrackets.discard_bind fun d hd => ih _ d (hbehind d hd))
      fun us => by simp [*]
  · exact Consumes.congr (consumes_throughAngles.discard_bind fun d hd => ih _ d (hbehind d hd))
      fun us => by simp [*]
  all_goals first
    | exact (ih _ _ hlt).congr fun us => by simp [*]
    | exact consumes_fail.congr fun us => by simp [*]

/-- The tail of a method is gone through to its end, and to nowhere else. -/
theorem consumes_throughMethodTail (hopening : opening.kind.opensParens = true) :
    (throughMethodTail opening).Consumes (Followed (BehindParens opening) EndsMethod) c := by
  rw [throughMethodTail]
  simp only [hopening, Bool.not_true, Bool.false_eq_true, if_false]
  exact consumes_behindParens.discard_bind fun _ _ => consumes_methodEnd

/-- The parameters of a method and what follows them are gone through to their end. The parser then stands
right behind them, whatever it had looked at before, and nothing was found, whatever the body says. -/
theorem throughMethodTail_ends {s : ParserState text} {before rest : List Token} (params : ParameterList)
    (tail : MethodTail)
    (htokens : (tokensOf text).1 = before ++ (params.tokens ++ (tail.tokens ++ rest)))
    (hs : s.IsBehind (before.length + 1)) :
    ∃ s', (throughMethodTail params.opener).run ParserState.machine s = .ok ((), s') ∧
      s'.IsBehind (before.length + params.tokens.length + tail.tokens.length) ∧
      (∀ t later, rest = t :: later → ∃ s'', ParserState.machine .next s' = .ok (t, s'')) ∧
      s'.findings = s.findings := by
  have hsplit : (tokensOf text).1 = before ++ params.opener :: ((params.rest ++ tail.tokens) ++ rest) := by
    rw [htokens, Bracketed.tokens, List.append_assoc]
    rfl
  have hrow : Followed (BehindParens params.opener) EndsMethod (params.rest ++ tail.tokens) := by
    have hnested := nested_tokensOf text
    rw [htokens] at hnested
    obtain ⟨hparams, hrest⟩ := (nested_append _ _ _).mp ((nested_append _ _ _).mp hnested).2
    exact ⟨params.rest, tail.tokens, rfl, behindParens_rest params hparams,
      tail.endsMethod ((nested_append _ _ _).mp hrest).1⟩
  obtain ⟨-, hdelivered, hpending⟩ := hs.reading_shownBy hsplit
  have hopens := opensParens_opener params
  have hholds : s.reading.Holds params.opener := by
    refine ⟨by rw [hdelivered, List.head?_cons], fun hbrace => ?_⟩
    obtain h | h := params.kind_opener <;> rw [h] at hbrace <;> cases hbrace
  have hyields := (consumes_throughMethodTail hopens).yields hpending hrow
  obtain ⟨_, s', c', hrun, ⟨-, hfound⟩, -, hbehind, hfindings⟩ := hs.exists_run hsplit
    always_throughMethodTail (meets_throughMethodTail hholds) hyields fun _ _ h => h.1
  have hlength : before.length + 1 + (params.rest ++ tail.tokens).length =
      before.length + params.tokens.length + tail.tokens.length := by
    rw [Bracketed.tokens, List.length_append, List.length_cons]
    omega
  rw [hlength] at hbehind
  refine ⟨s', hrun, hbehind, fun t later hlater => ?_, hfindings.trans hfound⟩
  have hnext : (tokensOf text).1 = (before ++ params.tokens ++ tail.tokens) ++ t :: later := by
    rw [htokens, hlater, List.append_assoc, List.append_assoc]
  have hplace : s'.IsBehind (before ++ params.tokens ++ tail.tokens).length := by
    rw [List.length_append, List.length_append]
    exact hbehind
  obtain ⟨s'', hread, -⟩ := hplace.next hnext
  exact ⟨s'', hread⟩

section Constructor

private theorem balanced_one {t : Token} (hkind : t.kind = .ident ∨ t.kind = .number) :
    Balanced (fun _ => true) [t] := by
  apply Balanced.token
  · obtain h | h := hkind <;> rw [h] <;> rfl
  · rfl
  · exact .nil

def oneParameter : ParameterList := .full {
  opener := ⟨⟨.lParen, "(", 0, 0⟩, rfl⟩
  inner := [⟨.ident, "x", 1, 0⟩]
  closer := ⟨⟨.rParen, ")", 2, 0⟩, rfl⟩
  balanced := balanced_one (.inl rfl) }

/-- The text `a::B<int>(1)` behind `(x) const :`. -/
def baseInitializer : ConstructorInitializer where
  first := ⟨.ident, "a::B", 12, 0⟩
  isNaming := rfl
  parts := [.list ⟨⟨.lt, "<", 16, 0⟩, rfl⟩ [⟨.ident, "int", 17, 0⟩, ⟨.gt, ">", 20, 0⟩]
    (.token (by decide) (.closing (.inl ⟨rfl, rfl⟩)))]
  value := .parens <| .full {
    opener := ⟨⟨.lParen, "(", 21, 0⟩, rfl⟩
    inner := [⟨.number, "1", 22, 0⟩]
    closer := ⟨⟨.rParen, ")", 23, 0⟩, rfl⟩
    balanced := balanced_one (.inr rfl) }
  dots := []

/-- The text `b{2}...` behind the comma. -/
def memberInitializer : ConstructorInitializer where
  first := ⟨.ident, "b", 26, 0⟩
  isNaming := rfl
  parts := []
  value := .braces {
    opener := ⟨⟨.lBrace, "\x7b", 27, 0⟩, rfl⟩
    inner := [⟨.number, "2", 28, 1⟩]
    closer := ⟨⟨.rBrace, "\x7d", 29, 0⟩, rfl⟩
    balanced := balanced_one (.inr rfl) }
  dots := [⟨⟨.dot, ".", 30, 0⟩, rfl⟩, ⟨⟨.dot, ".", 31, 0⟩, rfl⟩, ⟨⟨.dot, ".", 32, 0⟩, rfl⟩]

def bodyWithType : Group .lBrace .rBrace where
  opener := ⟨⟨.lBrace, "\x7b", 34, 0⟩, rfl⟩
  inner := [⟨.ident, "struct", 36, 1⟩, ⟨.ident, "T", 43, 1⟩, ⟨.lBrace, "\x7b", 45, 1⟩,
    ⟨.rBrace, "\x7d", 47, 1⟩, ⟨.semicolon, ";", 48, 1⟩]
  closer := ⟨⟨.rBrace, "\x7d", 50, 0⟩, rfl⟩
  balanced := by
    have hnested : Balanced (fun _ => true)
        (⟨.lBrace, "\x7b", 45, 1⟩ :: ([] ++ ⟨.rBrace, "\x7d", 47, 1⟩ :: [⟨.semicolon, ";", 48, 1⟩])) :=
      .group rfl .nil (.token rfl rfl .nil)
    exact .token rfl rfl (.token rfl rfl hnested)

def constructorTail : MethodTail where
  trailers := [.token ⟨.ident, "const", 4, 0⟩ rfl]
  ending := .constructed ⟨⟨.colon, ":", 10, 0⟩, rfl⟩ baseInitializer
    [(⟨⟨.comma, ",", 24, 0⟩, rfl⟩, memberInitializer)] bodyWithType

/-- The tail of a constructor with initializers, and a type in its body. -/
theorem throughMethodTail_ends_constructor :
    let text := "(x) const : a::B<int>(1), b\x7b2\x7d... \x7b struct T \x7b \x7d; \x7d n"
    ∃ s s' s'' : ParserState text, s.IsBehind 1 ∧
      (throughMethodTail ⟨.lParen, "(", 0, 0⟩).run ParserState.machine s = .ok ((), s') ∧ s'.IsBehind 27 ∧
      s'.findings = s.findings ∧ ParserState.machine .next s' = .ok (⟨.ident, "n", 52, 0⟩, s'') := by
  intro text
  have htokens : (tokensOf text).1 =
      [] ++ (oneParameter.tokens ++ (constructorTail.tokens ++ [⟨.ident, "n", 52, 0⟩])) := by
    decide +kernel
  have hnew : (ParserState.new .header text).IsBehind ([] : List Token).length :=
    ParserState.isBehind_new .header text
  obtain ⟨s, -, hs⟩ := hnew.next htokens
  obtain ⟨s', hrun, hbehind, hnext, hfindings⟩ := throughMethodTail_ends oneParameter constructorTail htokens hs
  obtain ⟨s'', hread⟩ := hnext _ _ rfl
  exact ⟨s, s', s'', hs, hrun, hbehind, hfindings, hread⟩

end Constructor

end ReflectionTables.Parsing
