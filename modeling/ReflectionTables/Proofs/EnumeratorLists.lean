import ReflectionTables.Proofs.InitializerEnds
import ReflectionTables.Proofs.StreamPlaces
/-!
# Lists of enumerators

The bodies of enumerations. Where the brackets of a body pair up, its names are read exactly if the
body is a list of enumerators, and the parser ends behind the closing brace. A list of enumerators
is read item by item. Any other body begins with some items and goes on with a token that may not
stand there, at which the parser fails.
-/

namespace ReflectionTables.Scanning

variable {t : Token} {ts : List Token} {outside : TokenKind → Bool}

def TokenKind.encloses : TokenKind → Bool
  | .lParen | .rParen | .lBrace | .rBrace => true
  | _ => false

/-- Token lists in which parentheses and braces pair up and each token outside them is of an allowed
kind. A square bracket is a token like any other. -/
inductive Grouped (outside : TokenKind → Bool) : List Token → Prop
  | nil : Grouped outside []
  | token {t : Token} {ts : List Token} (hkind : t.kind.encloses = false)
      (hallowed : outside t.kind = true) (hrest : Grouped outside ts) : Grouped outside (t :: ts)
  | parens {ts : List Token} (g : Group .lParen .rParen) (hrest : Grouped outside ts) :
      Grouped outside (g.tokens ++ ts)
  | braces {ts : List Token} (g : Group .lBrace .rBrace) (hrest : Grouped outside ts) :
      Grouped outside (g.tokens ++ ts)

theorem Grouped.append {us : List Token} (h : Grouped outside ts) (h' : Grouped outside us) :
    Grouped outside (ts ++ us) := by
  induction h with
  | nil => exact h'
  | token hkind hallowed _ ih => exact .token hkind hallowed ih
  | parens g _ ih =>
    rw [List.append_assoc]
    exact .parens g ih
  | braces g _ ih =>
    rw [List.append_assoc]
    exact .braces g ih

theorem TokenKind.encloses_of_isBracket {kind : TokenKind} (h : kind.isBracket = false) :
    kind.encloses = false := by
  cases kind <;> first | rfl | cases h

theorem TokenKind.isBrace_of_encloses {kind : TokenKind} (h : kind.encloses = false) :
    kind.isBrace = false := by
  cases kind <;> first | rfl | cases h

/-- Where all brackets pair up, parentheses and braces do. -/
theorem Balanced.grouped (h : Balanced outside ts) : Grouped (fun _ => true) ts := by
  induction h with
  | nil => exact .nil
  | token hkind _ _ ih => exact .token (TokenKind.encloses_of_isBracket hkind) rfl ih
  | @group outside opening closing inner ts hpair hinner _ ihinner ih =>
    cases hopening : opening.kind <;> rw [hopening] at hpair <;>
      simp only [TokenKind.closer?, Option.some.injEq, reduceCtorEq] at hpair
    · have hgroup := Grouped.braces ⟨⟨opening, hopening⟩, inner, ⟨closing, hpair.symm⟩, hinner⟩ ih
      simpa [Group.tokens] using hgroup
    · have hgroup := Grouped.parens ⟨⟨opening, hopening⟩, inner, ⟨closing, hpair.symm⟩, hinner⟩ ih
      simpa [Group.tokens] using hgroup
    · have hclosing : closing.kind.encloses = false := by rw [← hpair]; rfl
      exact .token (by rw [hopening]; rfl) rfl (ihinner.append (.token hclosing rfl ih))

/-- Behind a token that opens no group the rest is of the same form. -/
theorem Grouped.tail (h : Grouped outside (t :: ts)) (hkind : t.kind ≠ .lParen ∧ t.kind ≠ .lBrace) :
    Grouped outside ts := by
  cases h with
  | token _ _ hrest => exact hrest
  | parens g => exact absurd g.opener.property hkind.1
  | braces g => exact absurd g.opener.property hkind.2

/-- The first token closes nothing. -/
theorem Grouped.ne_rBrace (h : Grouped outside (t :: ts)) : t.kind ≠ .rBrace := by
  intro hclosing
  cases h with
  | token hkind =>
    rw [hclosing] at hkind
    exact absurd hkind (by decide)
  | parens g => exact absurd (g.opener.property.symm.trans hclosing) (by decide)
  | braces g => exact absurd (g.opener.property.symm.trans hclosing) (by decide)

def CutAtComma (outside : TokenKind → Bool) (ts : List Token) : Prop :=
  Grouped (· != .comma) ts ∨ ∃ (value : List Token) (comma : TokenOf .comma) (rest : List Token),
    ts = value ++ comma.val :: rest ∧ Grouped (· != .comma) value ∧ Grouped outside rest

theorem CutAtComma.behind {us : List Token} (h : CutAtComma outside ts)
    (hus : ∀ ws, Grouped (· != .comma) ws → Grouped (· != .comma) (us ++ ws)) :
    CutAtComma outside (us ++ ts) := by
  rcases h with hts | ⟨value, comma, rest, rfl, hvalue, hrest⟩
  · exact .inl (hus ts hts)
  · exact .inr ⟨us ++ value, comma, rest, by rw [List.append_assoc], hus value hvalue, hrest⟩

theorem Grouped.cutAtComma (h : Grouped outside ts) : CutAtComma outside ts := by
  induction h with
  | nil => exact .inl .nil
  | @token t ts hkind hallowed hrest ih =>
    by_cases hcomma : t.kind = .comma
    · exact .inr ⟨[], ⟨t, hcomma⟩, ts, rfl, .nil, hrest⟩
    · have hvalue : ∀ ws, Grouped (· != .comma) ws → Grouped (· != .comma) ([t] ++ ws) :=
        fun ws hws => .token hkind (by simpa using hcomma) hws
      exact ih.behind hvalue
  | parens g _ ih => exact ih.behind fun ws hws => .parens g hws
  | braces g _ ih => exact ih.behind fun ws hws => .braces g hws

/-- The value of an enumerator: any tokens without a comma outside parentheses and braces. -/
structure EnumeratorValue where
  eq : TokenOf .eq
  inner : List Token
  grouped : Grouped (· != .comma) inner

structure Enumerator where
  name : TokenOf .ident
  value? : Option EnumeratorValue

def EnumeratorValue.tokens (value : EnumeratorValue) : List Token := value.eq.val :: value.inner

def Enumerator.tokens (e : Enumerator) : List Token :=
  e.name.val :: (e.value?.map EnumeratorValue.tokens).getD []

/-- The names and the tokens of a list of enumerators with a comma behind each but the last one, which
may have one too. -/
inductive EnumeratorList : List String → List Token → Prop
  | nil : EnumeratorList [] []
  | last (e : Enumerator) : EnumeratorList [e.name.val.text] e.tokens
  | cons (e : Enumerator) (comma : TokenOf .comma) {names : List String} {ts : List Token}
      (hrest : EnumeratorList names ts) :
      EnumeratorList (e.name.val.text :: names) (e.tokens ++ comma.val :: ts)

/-- Tokens that begin like a list of enumerators and go on with a token that may not stand there: one
that is no name, or one behind a name that begins neither a value nor another item. -/
inductive BreaksList : List Token → Prop
  | noName {t : Token} {ts : List Token} (hkind : t.kind ≠ .ident ∧ t.kind ≠ .rBrace) :
      BreaksList (t :: ts)
  | behindName (name : TokenOf .ident) {t : Token} {ts : List Token}
      (hkind : t.kind ≠ .comma ∧ t.kind ≠ .eq ∧ t.kind ≠ .rBrace) :
      BreaksList (name.val :: t :: ts)
  | cons (e : Enumerator) (comma : TokenOf .comma) {ts : List Token} (hrest : BreaksList ts) :
      BreaksList (e.tokens ++ comma.val :: ts)

/-- Either a list of enumerators stands between parentheses and braces that pair up, or such a list is
broken there. -/
theorem Grouped.list_or_breaks (h : Grouped (fun _ => true) ts) :
    (∃ names, EnumeratorList names ts) ∨ BreaksList ts := by
  induction hlength : ts.length using Nat.strongRecOn generalizing ts with
  | ind length ih =>
    have hitem : ∀ (e : Enumerator) (comma : TokenOf .comma) (rest : List Token),
        ts = e.tokens ++ comma.val :: rest → Grouped (fun _ => true) rest →
          (∃ names, EnumeratorList names ts) ∨ BreaksList ts := by
      rintro e comma rest rfl hrest
      have hlt : rest.length < length := by
        rw [← hlength, List.length_append, List.length_cons]
        omega
      rcases ih rest.length hlt hrest rfl with ⟨names, hnames⟩ | hbreaks
      · exact .inl ⟨_, .cons e comma hnames⟩
      · exact .inr (.cons e comma hbreaks)
    cases ts with
    | nil => exact .inl ⟨[], .nil⟩
    | cons t ts =>
      by_cases hname : t.kind = .ident
      · obtain ⟨name, rfl⟩ : ∃ name : TokenOf .ident, name.val = t := ⟨⟨t, hname⟩, rfl⟩
        have hbehind := h.tail (by simp [hname])
        cases ts with
        | nil => exact .inl ⟨_, .last ⟨name, none⟩⟩
        | cons u ts =>
          by_cases hcomma : u.kind = .comma
          · exact hitem ⟨name, none⟩ ⟨u, hcomma⟩ ts rfl (hbehind.tail (by simp [hcomma]))
          by_cases heq : u.kind = .eq
          · rcases (hbehind.tail (by simp [heq])).cutAtComma with
              hvalue | ⟨value, comma, rest, rfl, hvalue, hrest⟩
            · exact .inl ⟨_, .last ⟨name, some ⟨⟨u, heq⟩, ts, hvalue⟩⟩⟩
            · exact hitem ⟨name, some ⟨⟨u, heq⟩, value, hvalue⟩⟩ comma rest rfl hrest
          · exact .inr (.behindName name ⟨hcomma, heq, hbehind.ne_rBrace⟩)
      · exact .inr (.noName ⟨hname, h.ne_rBrace⟩)

end ReflectionTables.Scanning

namespace ReflectionTables.Parsing

open Text Scanning Reflected Parsing.Parser

variable {text : String} {c : Reading text} {us ts : List Token} {P : Standing} {α β : Type}
  {opening t : Token} {names : List String}

namespace Parser

def Fails (p : Parser α) (c : Reading text) : Prop :=
  ∃ failure, p.run Reading.machine c = .error failure

theorem fails_fail {fault : ParseFault} : (fail t fault : Parser α).Fails c := ⟨_, rfl⟩

theorem Fails.bind {p : Parser α} {f : α → Parser β} (h : p.Fails c) : (p >>= f).Fails c := by
  obtain ⟨failure, hrun⟩ := h
  exact ⟨failure, by rw [run_bind, hrun]⟩

theorem Yields.fails {q : Parser α} {f : α → Parser β} {S : α → Reading text → Prop}
    (h : q.Yields S c) (hf : ∀ a c', S a c' → (f a).Fails c') : (q >>= f).Fails c := by
  rcases h.cases with ⟨a, c', hrun, hS⟩ | ⟨failure, hrun, -⟩
  · obtain ⟨failure, hfailure⟩ := hf a c' hS
    exact ⟨failure, by rw [run_bind, hrun]; exact hfailure⟩
  · exact Fails.bind ⟨failure, hrun⟩

theorem LeadsTo.fails {p p' : Parser β} {Q : Reading text → Prop} (h : p.LeadsTo c p' Q)
    (h' : ∀ c', Q c' → p'.Fails c') : p.Fails c := by
  rcases h with ⟨failure, hrun, -⟩ | ⟨c', hQ, hrun⟩
  · exact ⟨failure, hrun⟩
  · rw [Fails, hrun]
    exact h' c' hQ

theorem fails_recur {body : (α → Parser β) → α → Parser β} {a : α}
    (h : ∀ again, (body again a).Fails c) : (recur body a).Fails c := by
  obtain ⟨again, hrun, -⟩ := run_recurBy_or (fun _ left => left) body a c
  rw [Fails, recur, hrun]
  exact h again

end Parser

namespace Parser

theorem Leads.passes {p p' : Parser β} {R : β → Prop} (h : p.Leads text ts p')
    (h' : p'.Passes text us R) : p.Passes text (ts ++ us) R := by
  intro c vs P hc
  rw [List.append_assoc] at hc
  exact (h c _ P hc).yields fun c₁ h₁ => h' c₁ vs P h₁

theorem Leads.passesInside {p p' : Parser β} {R : β → Prop} (h : p.Leads text ts p')
    (h' : p'.PassesInside text opening us R) : p.PassesInside text opening (ts ++ us) R := by
  intro c vs P hdepth hscopes hc
  rw [List.append_assoc] at hc
  exact (h c _ _ hc).yields fun c₁ h₁ => h' c₁ vs P hdepth hscopes h₁

theorem Passes.bind_inside {p : Parser α} {f : α → Parser β} {Q : α → Prop} {R : β → Prop}
    (h : p.Passes text ts Q) (hf : ∀ a, Q a → (f a).PassesInside text opening us R) :
    (p >>= f).PassesInside text opening (ts ++ us) R := by
  intro c vs P hdepth hscopes hc
  rw [List.append_assoc] at hc
  exact (h c _ _ hc).bind fun a c₁ h₁ => hf a h₁.1 c₁ vs P hdepth hscopes h₁.2

/-- What is done with the answer behind the closing brace. -/
theorem PassesInside.bind_end {p : Parser α} {f : α → Parser β} {Q : α → Prop} {R : β → Prop}
    (h : p.PassesInside text opening ts Q) (hf : ∀ a, Q a → (f a).Passes text [] R) :
    (p >>= f).PassesInside text opening ts R := by
  simpa using h.bind hf

theorem passesInside_recur {body : (α → Parser β) → α → Parser β} {a : α} {R : β → Prop}
    (h : ∀ again, (body again a).PassesInside text opening ts R) :
    (recur body a).PassesInside text opening ts R :=
  fun c us P hdepth hscopes hc => yields_recur fun again _ => h again c us P hdepth hscopes hc

end Parser

theorem leads_throughEnumeratorValue (h : Grouped (· != .comma) ts) :
    (throughEnumeratorValue opening).Leads text ts (throughEnumeratorValue opening) := by
  induction h with
  | nil => exact leads_nil
  | @token t ts hkind hallowed _ ih =>
    have htoken : (throughEnumeratorValue opening).Leads text [t] (throughEnumeratorValue opening) := by
      refine leads_token (fun _ => rfl) (fun again => ?_) (TokenKind.isBrace_of_encloses hkind)
      cases hk : t.kind <;>
        first
        | (rw [hk] at hkind; exact absurd hkind (by decide))
        | (rw [hk] at hallowed; exact absurd hallowed (by decide))
        | rfl
    exact htoken.append ih
  | parens g _ ih =>
    refine Leads.append (leads_recur (@passes_throughParens text g).discard (fun _ => rfl)
      (fun again => ?_) ?_) ih
    · simp only [g.opener.property]
    · rw [g.opener.property]
      rfl
  | braces g _ ih =>
    refine Leads.append (leads_recur_lBrace (@passesInside_throughBrace text g).discard (fun _ => rfl)
      (fun again => ?_) g.opener.property) ih
    simp only [g.opener.property]

theorem passes_throughEnumeratorValue (h : Grouped (· != .comma) ts) (comma : TokenOf .comma) :
    (throughEnumeratorValue opening).Passes text (ts ++ [comma.val]) (· = false) := by
  refine (leads_throughEnumeratorValue h).passes (passes_recur fun again _ => ?_)
  refine passes_next_bind (by rw [comma.property]; rfl) ?_
  simp only [comma.property]
  exact passes_pure rfl

theorem passesInside_throughEnumeratorValue (h : Grouped (· != .comma) ts) (closing : TokenOf .rBrace) :
    (throughEnumeratorValue opening).PassesInside text opening (ts ++ [closing.val]) (· = true) := by
  refine (leads_throughEnumeratorValue h).passesInside (passesInside_recur fun again => ?_)
  refine (passesInside_next closing).bind_end ?_
  rintro _ ⟨rfl, hdepth⟩
  simp only [closing.property, if_pos hdepth]
  exact passes_pure rfl

/-- What a parser of enumerators does with the token behind a name, the last one of those given. -/
def behindName (opening : Token) (again : List String → Parser (List String)) (names : List String)
    (after : Token) : Parser (List String) :=
  match after.kind with
  | .comma => again names
  | .rBrace =>
    if after.depth = opening.depth then return names
    else fail after (.expected .enumeratorSeparator after)
  | .eq => do if ← throughEnumeratorValue opening then return names else again names
  | _ => fail after (.expected .enumeratorSeparator after)

def enumeratorRound (opening : Token) (again : List String → Parser (List String))
    (names : List String) : Parser (List String) := do
  let token ← next
  if token.kind = .rBrace ∧ token.depth = opening.depth then return names
  if token.kind ≠ .ident then fail token (.expected .enumeratorName token)
  let after ← next
  behindName opening again (names ++ [token.text]) after

def enumeratorsFrom (opening : Token) (names : List String) : Parser (List String) :=
  recur (enumeratorRound opening) names

theorem enumeratorNames_eq (opening : Token) :
    enumeratorNames opening = enumeratorsFrom opening [] := rfl

variable {again : List String → Parser (List String)}

theorem leads_enumeratorRound (name : TokenOf .ident) :
    (enumeratorRound opening again names).Leads text [name.val]
      (next >>= behindName opening again (names ++ [name.val.text])) := by
  intro c us P hc
  refine (passes_next (by rw [name.property]; rfl) c us P hc).leadsTo ?_
  rintro _ c₁ ⟨rfl, h₁⟩
  rw [if_neg (by simp [name.property]), if_neg (by simp [name.property])]
  exact leadsTo_self h₁

/-- An enumerator with the comma behind it leads to the rest of the list. -/
theorem leads_enumerator (e : Enumerator) (comma : TokenOf .comma) :
    (enumeratorsFrom opening names).Leads text (e.tokens ++ [comma.val])
      (enumeratorsFrom opening (names ++ [e.name.val.text])) := by
  obtain ⟨name, value?⟩ := e
  intro c us P hc
  refine leadsTo_recurBy fun again hagain => ?_
  have hgoOn : ∀ c' : Reading text, c'.Stands us P →
      (again (names ++ [name.val.text])).LeadsTo c' (enumeratorsFrom opening (names ++ [name.val.text]))
        (·.Stands us P) := fun c' h' => (hagain _ c').trans fun _ heq => leadsTo_self (heq ▸ h')
  refine (leads_enumeratorRound name c _ P hc).trans fun c₁ h₁ => ?_
  cases value? with
  | none =>
    refine (passes_next (by rw [comma.property]; rfl) c₁ us P h₁).leadsTo ?_
    rintro _ c₂ ⟨rfl, h₂⟩
    simp only [behindName, comma.property]
    exact hgoOn c₂ h₂
  | some value =>
    refine (passes_next (by rw [value.eq.property]; rfl) c₁ _ P h₁).leadsTo ?_
    rintro _ c₂ ⟨rfl, h₂⟩
    simp only [behindName, value.eq.property]
    refine (passes_throughEnumeratorValue value.grouped comma c₂ us P h₂).leadsTo ?_
    rintro _ c₃ ⟨rfl, h₃⟩
    exact hgoOn c₃ h₃

/-- An enumerator without a comma ends the list. -/
theorem passesInside_enumerator (e : Enumerator) (closing : TokenOf .rBrace) :
    (enumeratorsFrom opening names).PassesInside text opening (e.tokens ++ [closing.val])
      (· = names ++ [e.name.val.text]) := by
  obtain ⟨name, value?⟩ := e
  refine passesInside_recur fun again => ?_
  refine (leads_enumeratorRound name).passesInside ?_
  cases value? with
  | none =>
    refine (passesInside_next closing).bind_end ?_
    rintro _ ⟨rfl, hdepth⟩
    simp only [behindName, closing.property, if_pos hdepth]
    exact passes_pure rfl
  | some value =>
    refine (passes_next (by rw [value.eq.property]; rfl)).bind_inside ?_
    rintro _ rfl
    simp only [behindName, value.eq.property]
    refine (passesInside_throughEnumeratorValue value.grouped closing).bind_end ?_
    rintro _ rfl
    exact passes_pure rfl

/-- A list of enumerators is read up to the brace that closes the body. -/
theorem passesInside_enumerators {names' : List String} (h : EnumeratorList names' ts)
    (closing : TokenOf .rBrace) :
    (enumeratorsFrom opening names).PassesInside text opening (ts ++ [closing.val])
      (· = names ++ names') := by
  induction h generalizing names with
  | nil =>
    refine passesInside_recur fun again => (passesInside_next closing).bind_end ?_
    rintro _ ⟨rfl, hdepth⟩
    rw [if_pos ⟨closing.property, hdepth⟩, List.append_nil]
    exact passes_pure rfl
  | last e => exact passesInside_enumerator e closing
  | @cons e comma names' ts _ ih =>
    have hrest : (enumeratorsFrom opening (names ++ [e.name.val.text])).PassesInside text opening _
        (· = names ++ [e.name.val.text] ++ names') := ih
    simpa using (leads_enumerator e comma).passesInside hrest

/-- Where a list is broken the parser fails, whatever follows. -/
theorem fails_enumerators (h : BreaksList ts) (hc : c.Stands (ts ++ us) P) :
    (enumeratorsFrom opening names).Fails c := by
  induction h generalizing c names with
  | @noName t ts hkind =>
    refine fails_recur fun again => (yields_next hc).fails ?_
    rintro _ c₁ ⟨rfl, -⟩
    rw [if_neg fun hclose => hkind.2 hclose.1, if_pos hkind.1]
    exact fails_fail.bind
  | @behindName name u ts hkind =>
    refine fails_recur fun again => (leads_enumeratorRound name c _ P hc).fails fun c₁ h₁ => ?_
    refine (yields_next h₁).fails ?_
    rintro _ c₂ ⟨rfl, -⟩
    rw [Parsing.behindName]
    split
    · exact absurd ‹_› hkind.1
    · exact absurd ‹_› hkind.2.2
    · exact absurd ‹_› hkind.2.1
    · exact fails_fail
  | @cons e comma ts _ ih =>
    have hc' : c.Stands (e.tokens ++ [comma.val] ++ (ts ++ us)) P := by simpa using hc
    exact (leads_enumerator e comma c _ P hc').fails fun c₁ h₁ => ih h₁

section Bodies

variable {s s' : ParserState text} {before inner rest : List Token} {opening : TokenOf .lBrace}
  {closing : TokenOf .rBrace}

theorem exists_enumeratorNames_run
    (htokens : (tokensOf text).1 = before ++ opening.val :: (inner ++ closing.val :: rest))
    (hs : s.IsBehind (before.length + 1)) (hnames : EnumeratorList names inner) :
    ∃ s', (enumeratorNames opening.val).run ParserState.machine s = .ok (names, s') ∧
      s'.IsBehind (before.length + 1 + inner.length + 1) ∧ s'.findings = s.findings := by
  have hsplit : (tokensOf text).1 = before ++ opening.val :: ((inner ++ [closing.val]) ++ rest) := by
    rw [htokens, List.append_assoc, List.singleton_append]
  obtain ⟨P, hdepth, hscopes, hfound, hstands⟩ := hs.reading_stands hsplit
  have hpasses : (enumeratorsFrom opening.val []).PassesInside text opening.val
      (inner ++ [closing.val]) (· = names) := passesInside_enumerators hnames closing
  have hyields := hpasses s.reading rest P hdepth (by simp [hscopes]) hstands
  rw [← enumeratorNames_eq] at hyields
  obtain ⟨_, s', c', hrun, ⟨rfl, hend⟩, -, hbehind, hfindings⟩ := hs.exists_run hsplit
    always_enumeratorNames meets_enumeratorNames hyields fun _ _ h => h.2.pending_eq
  rw [List.length_append, List.length_singleton, ← Nat.add_assoc] at hbehind
  exact ⟨s', hrun, hbehind, by rw [hfindings, hend.findings_eq, hfound]⟩

theorem enumeratorList_of_run
    (htokens : (tokensOf text).1 = before ++ opening.val :: (inner ++ closing.val :: rest))
    (hpaired : Balanced (fun _ => true) inner) (hs : s.IsBehind (before.length + 1))
    (hrun : (enumeratorNames opening.val).run ParserState.machine s = .ok (names, s')) :
    EnumeratorList names inner := by
  rcases hpaired.grouped.list_or_breaks with ⟨names', hnames'⟩ | hbreaks
  · obtain ⟨_, hrun', -⟩ := exists_enumeratorNames_run htokens hs hnames'
    rw [hrun] at hrun'
    cases hrun'
    exact hnames'
  · obtain ⟨hshown, -⟩ := hs.reading_shownBy htokens
    obtain ⟨P, -, -, -, hstands⟩ := hs.reading_stands htokens
    obtain ⟨c', hrun', -⟩ := hshown.exists_reading_run always_enumeratorNames hrun
    have hfails : (enumeratorNames opening.val).Fails s.reading := fails_enumerators hbreaks hstands
    obtain ⟨failure, hfailure⟩ := hfails
    rw [hrun'] at hfailure
    cases hfailure

end Bodies

/-- Where the brackets of a body pair up, its names are read exactly if it is a list of enumerators.
They are then the names of the list, the parser stands behind the closing brace, and nothing was
found. -/
theorem enumeratorNames_iff {s : ParserState text} {before inner rest : List Token}
    (opening : TokenOf .lBrace) (closing : TokenOf .rBrace)
    (htokens : (tokensOf text).1 = before ++ opening.val :: (inner ++ closing.val :: rest))
    (hpaired : Balanced (fun _ => true) inner) (hs : s.IsBehind (before.length + 1)) :
    (∀ names, (∃ s', (enumeratorNames opening.val).run ParserState.machine s = .ok (names, s')) ↔
      EnumeratorList names inner) ∧
      ∀ names s', (enumeratorNames opening.val).run ParserState.machine s = .ok (names, s') →
        s'.IsBehind (before.length + 1 + inner.length + 1) ∧ s'.findings = s.findings := by
  refine ⟨fun names => ⟨?_, fun hnames => ?_⟩, fun names s' hrun => ?_⟩
  · rintro ⟨s', hrun⟩
    exact enumeratorList_of_run htokens hpaired hs hrun
  · obtain ⟨s', hrun, -⟩ := exists_enumeratorNames_run htokens hs hnames
    exact ⟨s', hrun⟩
  · have hnames := enumeratorList_of_run htokens hpaired hs hrun
    obtain ⟨s₁, hrun₁, hend⟩ := exists_enumeratorNames_run htokens hs hnames
    rw [hrun] at hrun₁
    cases hrun₁
    exact hend

theorem enumeratorNames_iff_called :
    let text := "\x7b A = f(1, 2), \x7d"
    let opening : TokenOf .lBrace := ⟨⟨.lBrace, "\x7b", 0, 0⟩, rfl⟩
    let name : TokenOf .ident := ⟨⟨.ident, "A", 2, 1⟩, rfl⟩
    let eq : TokenOf .eq := ⟨⟨.eq, "=", 4, 1⟩, rfl⟩
    let call : Token := ⟨.ident, "f", 6, 1⟩
    let first : TokenOf .lParen := ⟨⟨.lParen, "(", 7, 1⟩, rfl⟩
    let arguments : List Token := [⟨.number, "1", 8, 1⟩, ⟨.comma, ",", 9, 1⟩, ⟨.number, "2", 11, 1⟩]
    let last : TokenOf .rParen := ⟨⟨.rParen, ")", 12, 1⟩, rfl⟩
    let comma : TokenOf .comma := ⟨⟨.comma, ",", 13, 1⟩, rfl⟩
    let closing : TokenOf .rBrace := ⟨⟨.rBrace, "\x7d", 15, 0⟩, rfl⟩
    let inner := name.val :: eq.val :: call :: first.val :: (arguments ++ last.val :: [comma.val])
    (tokensOf text).1 = [] ++ opening.val :: (inner ++ closing.val :: []) ∧
      Balanced (fun _ => true) inner ∧ EnumeratorList ["A"] inner ∧
      ∃ s s' : ParserState text, ParserState.machine .next (.new .header text) = .ok (opening.val, s) ∧
        s.IsBehind 1 ∧ (enumeratorNames opening.val).run ParserState.machine s = .ok (["A"], s') ∧
          s'.IsBehind 11 := by
  intro text opening name eq call first arguments last comma closing inner
  have htokens : (tokensOf text).1 = [] ++ opening.val :: (inner ++ closing.val :: []) := by
    decide +kernel
  have harguments : Balanced (fun _ => true) arguments :=
    .token rfl rfl (.token rfl rfl (.token rfl rfl .nil))
  have hpaired : Balanced (fun _ => true) inner :=
    .token rfl rfl (.token rfl rfl (.token rfl rfl (.group rfl harguments (.token rfl rfl .nil))))
  have hvalue : Grouped (· != .comma) (call :: (Group.tokens ⟨first, arguments, last, harguments⟩ ++ [])) :=
    .token rfl rfl (.parens _ .nil)
  have hlist : EnumeratorList ["A"] inner := .cons ⟨name, some ⟨eq, _, hvalue⟩⟩ comma .nil
  have hnew : (ParserState.new .header text).IsBehind ([] : List Token).length :=
    ParserState.isBehind_new .header text
  obtain ⟨s, hnext, hs⟩ := hnew.next htokens
  have hiff := enumeratorNames_iff opening closing htokens hpaired hs
  obtain ⟨s', hrun⟩ := (hiff.1 ["A"]).2 hlist
  exact ⟨htokens, hpaired, hlist, s, s', hnext, hs, hrun, (hiff.2 _ _ hrun).1⟩

end ReflectionTables.Parsing
