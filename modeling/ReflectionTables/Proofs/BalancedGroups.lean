import ReflectionTables.Proofs.LeadingParsers
/-!
# Groups whose brackets pair up

Groups whose brackets pair up, and the parsers that go through them. Each of these parsers ends at
the bracket that closes its group, whatever the group says, and leaves no scope open or closed.
-/

namespace ReflectionTables.Scanning

def TokenKind.closer? : TokenKind → Option TokenKind
  | .lParen => some .rParen
  | .lBracket => some .rBracket
  | .lBrace => some .rBrace
  | _ => none

def TokenKind.isBracket : TokenKind → Bool
  | .lParen | .rParen | .lBracket | .rBracket | .lBrace | .rBrace => true
  | _ => false

/-- Token lists in which brackets pair up and each token outside brackets is of an allowed kind. -/
inductive Balanced : (TokenKind → Bool) → List Token → Prop
  | nil {outside : TokenKind → Bool} : Balanced outside []
  | token {outside : TokenKind → Bool} {t : Token} {ts : List Token}
      (hkind : t.kind.isBracket = false) (hallowed : outside t.kind = true)
      (hrest : Balanced outside ts) : Balanced outside (t :: ts)
  | group {outside : TokenKind → Bool} {opening closing : Token} {inner ts : List Token}
      (hpair : opening.kind.closer? = some closing.kind) (hinner : Balanced (fun _ => true) inner)
      (hrest : Balanced outside ts) : Balanced outside (opening :: (inner ++ closing :: ts))

abbrev TokenOf (kind : TokenKind) := { t : Token // t.kind = kind }

structure Group (opening closing : TokenKind) where
  opener : TokenOf opening
  inner : List Token
  closer : TokenOf closing
  balanced : Balanced (fun _ => true) inner

def Group.tokens {opening closing : TokenKind} (g : Group opening closing) : List Token :=
  g.opener :: (g.inner ++ [g.closer.val])

def TokenKind.isListed : TokenKind → Bool
  | .lt | .gt | .gtGt | .ltLt | .semicolon | .lParen | .lBrace | .rBrace => false
  | _ => true

/-- Tokens between two brackets of nested lists in angle brackets, of which so many are open before
and behind the tokens. `>>` closes two lists, and nothing counts inside parentheses. -/
inductive AngleRun : Nat → List Token → Nat → Prop
  | nil {n : Nat} : AngleRun n [] n
  | token {n m : Nat} {t : Token} {ts : List Token} (hkind : t.kind.isListed = true)
      (hrest : AngleRun n ts m) : AngleRun n (t :: ts) m
  | opened {n m : Nat} {t : Token} {ts : List Token} (hkind : t.kind = .lt)
      (hrest : AngleRun (n + 1) ts m) : AngleRun n (t :: ts) m
  | closed {n m : Nat} {t : Token} {ts : List Token} (hkind : t.kind = .gt)
      (hrest : AngleRun (n + 1) ts m) : AngleRun (n + 2) (t :: ts) m
  | closedTwo {n m : Nat} {t : Token} {ts : List Token} (hkind : t.kind = .gtGt)
      (hrest : AngleRun (n + 1) ts m) : AngleRun (n + 3) (t :: ts) m
  | parens {n m : Nat} {ts : List Token} (g : Group .lParen .rParen) (hrest : AngleRun n ts m) :
      AngleRun n (g.tokens ++ ts) m
  | braces {n m : Nat} {opening closing : Token} {inner ts : List Token}
      (hopening : opening.kind = .lBrace) (hclosing : closing.kind = .rBrace)
      (hinner : AngleRun n inner n) (hrest : AngleRun n ts m) :
      AngleRun n (opening :: (inner ++ closing :: ts)) m

structure AngleGroup where
  opener : TokenOf .lt
  inner : List Token
  closer : Token
  /-- The number of lists that the last bracket closes. -/
  closed : Nat
  run : AngleRun 1 inner closed
  closes : closer.kind = .gt ∧ closed = 1 ∨ closer.kind = .gtGt ∧ closed = 2

def AngleGroup.tokens (g : AngleGroup) : List Token := g.opener :: (g.inner ++ [g.closer])

/-- Kinds that neither end an initializer nor open a list in it. -/
def TokenKind.isInitial (kind : TokenKind) : Bool :=
  kind != .semicolon && kind != .comma && kind != .lt

theorem TokenKind.isBrace_of_isBracket {kind : TokenKind} (h : kind.isBracket = false) :
    kind.isBrace = false := by
  cases kind <;> first | rfl | cases h

end ReflectionTables.Scanning

namespace ReflectionTables.Parsing

open Text Scanning Reflected Parsing.Parser

variable {text : String} {α β σ : Type} {c : Reading text} {us ts inner : List Token} {P : Standing}
  {opening closing t : Token} {outside : TokenKind → Bool} {floor : Nat} {p p' : Parser β}

/-- The bracket that closes a group leads back to the place before it. -/
theorem Reading.Stands.behind_closing (h : c.Stands (closing :: us) (P.behind opening))
    (hpair : opening.kind.closer? = some closing.kind) (hscopes : ∀ s ∈ P.scopes, s.depth < P.depth) :
    closing.depth = P.depth ∧ (P.behind opening).behind closing = P := by
  have hplain : opening.kind.isBrace = false → closing.kind.isBrace = false → closing.depth = P.depth ∧
      (P.behind opening).behind closing = P := by
    intro hopening hclosing
    rw [Standing.behind_of_isBrace hopening] at h ⊢
    rw [Standing.behind_of_isBrace hclosing]
    refine ⟨?_, rfl⟩
    rw [h.nested.2.1, TokenKind.ownDepth, if_neg]
    intro hkind
    rw [hkind] at hclosing
    cases hclosing
  cases hopening : opening.kind <;> rw [hopening] at hpair <;>
    simp only [TokenKind.closer?, Option.some.injEq, reduceCtorEq] at hpair
  · rw [Standing.behind_of_lBrace hopening] at h ⊢
    exact h.behind_of_rBrace [] hpair.symm rfl rfl (by simp) hscopes
  · exact hplain (by rw [hopening]; rfl) (by rw [← hpair]; rfl)
  · exact hplain (by rw [hopening]; rfl) (by rw [← hpair]; rfl)

theorem Reading.Stands.depth_of_opening (h : c.Stands (opening :: us) P)
    (hpair : opening.kind.closer? = some closing.kind) : opening.depth = P.depth := by
  rw [h.nested.2.1, TokenKind.ownDepth, if_neg]
  intro hkind
  rw [hkind] at hpair
  cases hpair

theorem TokenKind.le_depthAfter_of_closer? {kind kind' : TokenKind}
    (hpair : kind.closer? = some kind') (depth : Nat) : depth ≤ kind.depthAfter depth := by
  cases kind <;> first | exact Nat.le_refl _ | exact Nat.le_succ _ | cases hpair

namespace Parser

/-- Whether a parser that reads a token goes on as another one. It may depend on the token that at
least `floor` braces are open around it. -/
def Takes (text : String) (floor : Nat) (t : Token) (p p' : Parser β) : Prop :=
  ∀ (Q : β → Reading text → Prop) (c : Reading text) (us : List Token) (P : Standing),
    floor ≤ t.depth → c.Stands (t :: us) P → (∀ c', c'.Stands us (P.behind t) → p'.Yields Q c') →
      p.Yields Q c

/-- Whether a parser goes through tokens, inside at least `floor` braces, and goes on as another
one. -/
def Crosses (text : String) (floor : Nat) (ts : List Token) (p p' : Parser β) : Prop :=
  ∀ (Q : β → Reading text → Prop) (c : Reading text) (us : List Token) (P : Standing),
    floor ≤ P.depth → c.Stands (ts ++ us) P → (∀ c', c'.Stands us P → p'.Yields Q c') →
      p.Yields Q c

theorem crosses_nil : p.Crosses text floor [] p := fun _ c _ _ _ hc h => h c hc

theorem Crosses.append {p'' : Parser β} (h : p.Crosses text floor ts p')
    (h' : p'.Crosses text floor us p'') : p.Crosses text floor (ts ++ us) p'' := by
  intro Q c vs P hfloor hc hrest
  rw [List.append_assoc] at hc
  exact h Q c _ P hfloor hc fun c₁ h₁ => h' Q c₁ vs P hfloor h₁ hrest

theorem Leads.crosses (h : p.Leads text ts p') : p.Crosses text floor ts p' :=
  fun _ c us P _ hc hrest => (h c us P hc).yields hrest

theorem Crosses.passes {Q : β → Prop} (h : p.Crosses text 0 ts p') (hp : p'.Passes text us Q) :
    p.Passes text (ts ++ us) Q := by
  intro c vs P hc
  rw [List.append_assoc] at hc
  exact h _ c _ P (Nat.zero_le _) hc fun c₁ h₁ => hp c₁ vs P h₁

/-- A parser that reads the brackets of a group one by one goes through the group. -/
theorem crosses_pair (hpair : opening.kind.closer? = some closing.kind)
    (hopen : p.Takes text floor opening p') (hinner : p'.Crosses text floor inner p')
    (hclose : p'.Takes text floor closing p) :
    p.Crosses text floor (opening :: (inner ++ [closing])) p := by
  intro Q c us P hfloor hc hrest
  have hopening : opening.depth = P.depth := hc.depth_of_opening hpair
  rw [List.cons_append, List.append_assoc, List.singleton_append] at hc
  refine hopen Q c _ P (by omega) hc fun c₁ h₁ => ?_
  have hle := TokenKind.le_depthAfter_of_closer? hpair P.depth
  refine hinner Q c₁ _ _ (Nat.le_trans hfloor hle) h₁ fun c₂ h₂ => ?_
  obtain ⟨hclosing, hbehind⟩ := h₂.behind_closing hpair hc.scopes_lt
  refine hclose Q c₂ us _ (by omega) h₂ fun c₃ h₃ => ?_
  rw [hbehind] at h₃
  exact hrest c₃ h₃

/-- A parser that goes through single tokens and through groups goes through balanced tokens. -/
theorem crosses_balanced {L : σ → Parser β}
    (htoken : ∀ s t, t.kind.isBracket = false → (L s).Crosses text floor [t] (L s))
    (hgroup : ∀ s opening closing inner, opening.kind.closer? = some closing.kind →
      Balanced (fun _ => true) inner → (∀ s', (L s').Crosses text floor inner (L s')) →
        (L s).Crosses text floor (opening :: (inner ++ [closing])) (L s))
    (h : Balanced outside ts) (s : σ) : (L s).Crosses text floor ts (L s) := by
  induction h generalizing s with
  | nil => exact crosses_nil
  | @token outside t ts hkind _ _ ih => exact (htoken s t hkind).append (ih s)
  | @group outside opening closing inner ts hpair hinner _ ihinner ih =>
    have happend := (hgroup s opening closing inner hpair hinner ihinner).append (ih s)
    simpa using happend

end Parser

section Recur

variable {body : (α → Parser β) → α → Parser β} {a b : α}
  {f : (α → Parser β) → Token → Parser β}

theorem takes_recur (hbody : ∀ again, body again a = next >>= f again)
    (hstep : ∀ again, floor ≤ t.depth → f again t = again b) :
    (recur body a).Takes text floor t (recur body b) := by
  intro Q c us P hfloor hc hrest
  refine yields_recur fun again hagain => ?_
  rw [hbody]
  refine (yields_next hc).bind ?_
  rintro _ c₁ ⟨rfl, h₁⟩
  rw [hstep again hfloor]
  exact hagain b c₁ Q (hrest c₁ h₁)

end Recur

theorem takes_throughBrace (hinside : opening.depth < floor) :
    (throughBrace opening).Takes text floor t (throughBrace opening) :=
  takes_recur (fun _ => rfl) fun again hfloor => by
    rw [if_neg]
    rintro ⟨-, hdepth⟩
    omega

theorem crosses_throughBrace (h : Balanced outside ts) (hinside : opening.depth < floor) :
    (throughBrace opening).Crosses text floor ts (throughBrace opening) :=
  crosses_balanced (L := fun _ : Unit => throughBrace opening)
    (fun _ t ht => Leads.crosses (leads_token (fun _ => rfl) (fun _ => if_neg fun hclose => by
      rw [hclose.1] at ht
      cases ht) (TokenKind.isBrace_of_isBracket ht)))
    (fun _ _ _ _ hpair _ hinner => crosses_pair hpair (takes_throughBrace hinside) (hinner ())
      (takes_throughBrace hinside)) h ()

theorem passesInside_next (closing : TokenOf .rBrace) :
    next.PassesInside text opening [closing.val] fun t =>
      t = closing.val ∧ t.depth = opening.depth := by
  intro c us P hdepth hscopes hc
  refine (yields_next hc).mono ?_
  rintro _ c₁ ⟨rfl, h₁⟩
  obtain ⟨hclosing, hbehind⟩ := hc.behind_of_rBrace [] closing.property rfl rfl (by simp) hscopes
  rw [hbehind] at h₁
  exact ⟨⟨rfl, hclosing.trans hdepth.symm⟩, h₁⟩

theorem passesInside_throughBrace (g : Group .lBrace .rBrace) :
    (throughBrace g.opener.val).PassesInside text g.opener.val (g.inner ++ [g.closer.val])
      (· = g.closer.val) := by
  intro c us P hdepth hscopes hc
  rw [List.append_assoc] at hc
  refine crosses_throughBrace g.balanced (Nat.lt_succ_self _) _ c _ _ (Nat.le_of_eq (congrArg _ hdepth))
    hc fun c₁ h₁ => ?_
  rw [throughBrace]
  refine yields_loop fun again _ => (passesInside_next g.closer c₁ us P hdepth hscopes h₁).bind ?_
  rintro _ c₂ ⟨⟨rfl, hclosing⟩, h₂⟩
  rw [if_pos ⟨g.closer.property, hclosing⟩]
  exact ⟨rfl, h₂⟩

theorem crosses_parensEnd (h : Balanced outside ts) (n : Nat) :
    (parensEnd n).Crosses text floor ts (parensEnd n) := by
  refine crosses_balanced (L := parensEnd) (fun n t ht => ?_) (fun n opening closing inner hpair hinner ih => ?_)
    h n
  · refine Leads.crosses (leads_token (fun _ => rfl) (fun again => ?_) (TokenKind.isBrace_of_isBracket ht))
    cases hkind : t.kind <;> first | rfl | (rw [hkind] at ht; cases ht)
  · cases hopening : opening.kind <;> rw [hopening] at hpair <;>
      simp only [TokenKind.closer?, Option.some.injEq, reduceCtorEq] at hpair
    · have hinside := @passesInside_throughBrace text
        ⟨⟨opening, hopening⟩, inner, ⟨closing, hpair.symm⟩, hinner⟩
      exact Leads.crosses (leads_recur_lBrace hinside.discard (fun _ => rfl) (fun again => by simp only [hopening])
        hopening)
    · exact crosses_pair (by rw [hopening, ← hpair]; rfl)
        (takes_recur (b := n + 1) (fun _ => rfl) fun again _ => by simp only [hopening]) (ih (n + 1))
        (takes_recur (fun _ => rfl) fun again _ => by simp only [← hpair])
    · exact crosses_pair (by rw [hopening, ← hpair]; rfl)
        (takes_recur (b := n) (fun _ => rfl) fun again _ => by simp only [hopening]) (ih n)
        (takes_recur (fun _ => rfl) fun again _ => by simp only [← hpair])

theorem passes_throughParens (g : Group .lParen .rParen) :
    (throughParens g.opener.val).Passes text (g.inner ++ [g.closer.val]) (· = g.closer.val) := by
  rw [throughParens, if_neg (by rw [g.opener.property]; simp)]
  refine (crosses_parensEnd g.balanced 0).passes (passes_recur fun again _ => ?_)
  refine passes_next_bind (by rw [g.closer.property]; rfl) ?_
  simp only [g.closer.property]
  exact passes_pure rfl

theorem crosses_bracketsEnd (h : Balanced outside ts) (n : Nat) :
    (bracketsEnd n).Crosses text floor ts (bracketsEnd n) := by
  refine crosses_balanced (L := bracketsEnd) (fun n t ht => ?_)
    (fun n opening closing inner hpair hinner ih => ?_) h n
  · refine Leads.crosses (leads_token (fun _ => rfl) (fun again => ?_) (TokenKind.isBrace_of_isBracket ht))
    cases hkind : t.kind <;> first | rfl | (rw [hkind] at ht; cases ht)
  · cases hopening : opening.kind <;> rw [hopening] at hpair <;>
      simp only [TokenKind.closer?, Option.some.injEq, reduceCtorEq] at hpair
    · exact crosses_pair (by rw [hopening, ← hpair]; rfl)
        (takes_recur (b := n) (fun _ => rfl) fun again _ => by simp only [hopening]) (ih n)
        (takes_recur (fun _ => rfl) fun again _ => by simp only [← hpair])
    · exact crosses_pair (by rw [hopening, ← hpair]; rfl)
        (takes_recur (b := n) (fun _ => rfl) fun again _ => by simp only [hopening]) (ih n)
        (takes_recur (fun _ => rfl) fun again _ => by simp only [← hpair])
    · exact crosses_pair (by rw [hopening, ← hpair]; rfl)
        (takes_recur (b := n + 1) (fun _ => rfl) fun again _ => by simp only [hopening]) (ih (n + 1))
        (takes_recur (fun _ => rfl) fun again _ => by simp only [← hpair])

theorem passes_throughBrackets (g : Group .lBracket .rBracket) :
    (throughBrackets g.opener.val).Passes text (g.inner ++ [g.closer.val]) (· = g.closer.val) := by
  rw [throughBrackets, if_neg (by rw [g.opener.property]; simp)]
  refine (crosses_bracketsEnd g.balanced 0).passes (passes_recur fun again _ => ?_)
  refine passes_next_bind (by rw [g.closer.property]; rfl) ?_
  simp only [g.closer.property]
  exact passes_pure rfl

theorem crosses_anglesEnd {n m : Nat} (h : AngleRun n ts m) (hn : 0 < n) :
    (anglesEnd opening n).Crosses text 0 ts (anglesEnd opening m) := by
  induction h with
  | nil => exact crosses_nil
  | @token n m t ts hkind _ ih =>
    refine (Leads.crosses (leads_token (b := (n : Int)) (fun _ => rfl) (fun again => ?_) ?_)).append (ih hn)
    · cases hk : t.kind <;> first | rfl | (rw [hk] at hkind; cases hkind)
    · cases hk : t.kind <;> first | rfl | (rw [hk] at hkind; cases hkind)
  | @opened n m t ts hkind _ ih =>
    refine (Leads.crosses (leads_token (b := ((n + 1 : Nat) : Int)) (fun _ => rfl) (fun again => ?_) ?_)).append
      (ih (by omega))
    · simp only [hkind]
      rfl
    · rw [hkind]
      rfl
  | @closed n m t ts hkind _ ih =>
    refine (Leads.crosses (leads_token (b := ((n + 1 : Nat) : Int)) (fun _ => rfl) (fun again => ?_) ?_)).append
      (ih (by omega))
    · have hdepth : ((n + 2 : Nat) : Int) - 1 = ((n + 1 : Nat) : Int) := by omega
      simp only [hkind, hdepth]
      rw [if_neg (by omega), if_neg (by omega)]
    · rw [hkind]
      rfl
  | @closedTwo n m t ts hkind _ ih =>
    refine (Leads.crosses (leads_token (b := ((n + 1 : Nat) : Int)) (fun _ => rfl) (fun again => ?_) ?_)).append
      (ih (by omega))
    · have hdepth : ((n + 3 : Nat) : Int) - 2 = ((n + 1 : Nat) : Int) := by omega
      simp only [hkind, hdepth]
      rw [if_neg (by omega), if_neg (by omega)]
    · rw [hkind]
      rfl
  | @parens n m ts g _ ih =>
    have hparens := (@passes_throughParens text g).discard
    refine Crosses.append
      (Leads.crosses (leads_recur (b := (n : Int)) hparens (fun _ => rfl) (fun again => ?_) ?_)) (ih hn)
    · simp only [g.opener.property]
    · rw [g.opener.property]
      rfl
  | @braces n m first last inner ts hfirst hlast _ _ ihinner ih =>
    have hpair : first.kind.closer? = some last.kind := by
      rw [hfirst, hlast]
      rfl
    have hopen : (anglesEnd opening n).Takes text 0 first (anglesEnd opening n) :=
      takes_recur (fun _ => rfl) fun again _ => by simp only [hfirst]
    have hclose : (anglesEnd opening n).Takes text 0 last (anglesEnd opening n) :=
      takes_recur (fun _ => rfl) fun again _ => by simp only [hlast]
    have hgroup := (crosses_pair hpair hopen (ihinner hn) hclose).append (ih hn)
    simpa using hgroup

theorem passes_throughAngles (g : AngleGroup) :
    (throughAngles g.opener.val).Passes text (g.inner ++ [g.closer]) (·.stop = g.closer.stop) := by
  have hcloser : g.closer.kind.isBrace = false := by
    rcases g.closes with ⟨hkind, -⟩ | ⟨hkind, -⟩ <;> rw [hkind] <;> rfl
  intro c us P hc
  rw [List.append_assoc] at hc
  refine crosses_anglesEnd g.run Nat.one_pos _ c _ P (Nat.zero_le _) hc fun c₁ h₁ => ?_
  refine yields_recur fun again _ => (passes_next hcloser c₁ us P h₁).bind ?_
  rintro _ c₂ ⟨rfl, h₂⟩
  have hlist : ∀ offset, offset + 1 = g.closer.stop → (do
      return ⟨← cut .list g.opener.val.stop offset, offset + 1⟩ : Parser AngleList).Yields
        (fun list c' => list.stop = g.closer.stop ∧ c'.Stands us P) c₂ := by
    intro offset hoffset
    refine (yields_cut (by simp)).bind fun piece c₃ h₃ => ⟨hoffset, ?_⟩
    rw [h₃.2]
    exact h₂
  rcases g.closes with ⟨hkind, hclosed⟩ | ⟨hkind, hclosed⟩
  · simp only [hkind, hclosed]
    exact hlist _ (h₁.standsIn.stop_of_gt hkind).symm
  · simp only [hkind, hclosed]
    exact hlist _ (h₁.standsIn.isBoundary_of_gtGt hkind).1.symm

theorem crosses_initializerEnd (h : Balanced TokenKind.isInitial ts) (afterName : Bool) :
    ∃ afterName', (initializerEnd ⟨0, afterName⟩).Crosses text 0 ts (initializerEnd ⟨0, afterName'⟩) := by
  generalize houtside : TokenKind.isInitial = outside at h
  induction h generalizing afterName with
  | nil => exact ⟨afterName, crosses_nil⟩
  | @token outside t ts hkind hallowed _ ih =>
    subst houtside
    obtain ⟨afterName', hrest⟩ := ih (t.kind == .ident) rfl
    have htoken : (initializerEnd ⟨0, afterName⟩).Crosses text 0 [t]
        (initializerEnd ⟨0, t.kind == .ident⟩) := by
      refine Leads.crosses (leads_token (fun _ => rfl) (fun again => ?_) (TokenKind.isBrace_of_isBracket hkind))
      cases hk : t.kind <;>
        first
        | rfl
        | (rw [hk] at hkind; exact absurd hkind (by decide))
        | (rw [hk] at hallowed; exact absurd hallowed (by decide))
    exact ⟨afterName', htoken.append hrest⟩
  | @group outside opening closing inner ts hpair hinner _ _ ih =>
    subst houtside
    obtain ⟨afterName', hrest⟩ := ih false rfl
    refine ⟨afterName', ?_⟩
    have hgroup : (initializerEnd ⟨0, afterName⟩).Crosses text 0 (opening :: (inner ++ [closing]))
        (initializerEnd ⟨0, false⟩) := by
      cases hopening : opening.kind <;> rw [hopening] at hpair <;>
        simp only [TokenKind.closer?, Option.some.injEq, reduceCtorEq] at hpair
      · have hinside := @passesInside_throughBrace text
          ⟨⟨opening, hopening⟩, inner, ⟨closing, hpair.symm⟩, hinner⟩
        exact Leads.crosses (leads_recur_lBrace hinside.discard (fun _ => rfl)
          (fun again => by simp only [hopening]; rfl) hopening)
      · have hparens := @passes_throughParens text
          ⟨⟨opening, hopening⟩, inner, ⟨closing, hpair.symm⟩, hinner⟩
        exact Leads.crosses (leads_recur hparens.discard (fun _ => rfl)
          (fun again => by simp only [hopening]; rfl) (by rw [hopening]; rfl))
      · have hbrackets := @passes_throughBrackets text
          ⟨⟨opening, hopening⟩, inner, ⟨closing, hpair.symm⟩, hinner⟩
        exact Leads.crosses (leads_recur hbrackets.discard (fun _ => rfl)
          (fun again => by simp only [hopening]; rfl) (by rw [hopening]; rfl))
    simpa using hgroup.append hrest

theorem passes_throughInitializer (h : Balanced TokenKind.isInitial ts)
    (ht : t.kind = .semicolon ∨ t.kind = .comma) :
    throughInitializer.Passes text (ts ++ [t]) (· = t) := by
  obtain ⟨afterName, hcrosses⟩ := @crosses_initializerEnd text ts h false
  refine hcrosses.passes (passes_recur fun again _ => ?_)
  rcases ht with hkind | hkind
  · refine passes_next_bind (by rw [hkind]; rfl) ?_
    simp only [hkind]
    exact passes_pure rfl
  · refine passes_next_bind (by rw [hkind]; rfl) ?_
    simp only [hkind]
    exact passes_pure rfl

end ReflectionTables.Parsing
