import ReflectionTables.Proofs.ParserResults
/-!
# Parsers that lead to others

A parser that reads some tokens and then does what another parser does, from where these tokens end. A repetition
whose round reads a token leads to the next round.
-/

namespace ReflectionTables.Parsing

open Text Scanning Reflected Parsing.Parser

variable {text : String} {c : Reading text} {us : List Token} {P : Standing} {σ β : Type} {t : Token}

namespace Parser

/-- Whether a parser, if it fails in no way that is not expected, runs on as another one does from a
reading of which something is known. -/
def LeadsTo (p : Parser β) (c : Reading text) (p' : Parser β) (Q : Reading text → Prop) : Prop :=
  (∃ failure, p.run Reading.machine c = .error failure ∧ ¬failure.Expected) ∨
    ∃ c', Q c' ∧ p.run Reading.machine c = p'.run Reading.machine c'

variable {p p' p'' : Parser β} {Q R : Reading text → Prop}

theorem leadsTo_self (h : Q c) : p.LeadsTo c p Q := .inr ⟨c, h, rfl⟩

theorem LeadsTo.trans (h : p.LeadsTo c p' Q) (h' : ∀ c', Q c' → p'.LeadsTo c' p'' R) :
    p.LeadsTo c p'' R := by
  rcases h with hfailure | ⟨c', hc', hrun⟩
  · exact .inl hfailure
  · rw [LeadsTo, hrun]
    exact h' c' hc'

theorem LeadsTo.bind {γ : Type} (h : p.LeadsTo c p' Q) (f : β → Parser γ) :
    (p >>= f).LeadsTo c (p' >>= f) Q := by
  rcases h with ⟨failure, hrun, hfailure⟩ | ⟨c', hc', hrun⟩
  · exact .inl ⟨failure, by rw [run_bind, hrun], hfailure⟩
  · exact .inr ⟨c', hc', by rw [run_bind, run_bind, hrun]⟩

/-- Behind one parser, those that lead to others may be replaced by them. -/
theorem leadsTo_bind {γ : Type} {q : Parser γ} {f f' : γ → Parser β}
    (h : ∀ a (d : Reading text), (f a).LeadsTo d (f' a) (· = d)) :
    (q >>= f).LeadsTo c (q >>= f') (· = c) := by
  rw [LeadsTo, run_bind]
  cases hrun : q.run Reading.machine c with
  | ok result =>
    rcases h result.1 result.2 with hfailure | ⟨_, rfl, heq⟩
    · exact .inl hfailure
    · exact .inr ⟨c, rfl, by rw [run_bind, hrun]; exact heq⟩
  | error failure => exact .inr ⟨c, rfl, by rw [run_bind, hrun]⟩

theorem Yields.leadsTo {γ : Type} {q : Parser γ} {f : γ → Parser β} {S : γ → Reading text → Prop}
    (h : q.Yields S c) (hf : ∀ a c', S a c' → (f a).LeadsTo c' p' Q) : (q >>= f).LeadsTo c p' Q := by
  rcases h.cases with ⟨a, c', hrun, hS⟩ | ⟨failure, hrun, hfailure⟩
  · have hq : (q >>= f).LeadsTo c (f a) (· = c') := .inr ⟨c', rfl, by rw [run_bind, hrun]⟩
    refine hq.trans ?_
    rintro _ rfl
    exact hf a _ hS
  · exact .inl ⟨failure, by rw [run_bind, hrun], hfailure⟩

theorem leadsTo_recurBy {α : Type} {measure : α → Nat → Nat} {body : (α → Parser β) → α → Parser β}
    {a : α} (h : ∀ again : α → Parser β, (∀ b (d : Reading text),
      (again b).LeadsTo d (Parser.recurBy measure body b) (· = d)) → (body again a).LeadsTo c p' Q) :
    (Parser.recurBy measure body a).LeadsTo c p' Q := by
  obtain ⟨again, hrun, hagain⟩ := run_recurBy_or measure body a c
  rw [LeadsTo, hrun]
  refine h again fun b d => ?_
  rcases hagain b d with heq | hstalled
  · exact .inr ⟨d, rfl, heq⟩
  · exact .inl ⟨.stalled, hstalled, id⟩

theorem LeadsTo.yields (h : p.LeadsTo c p' Q) {S : β → Reading text → Prop}
    (hrest : ∀ c', Q c' → p'.Yields S c') : p.Yields S c := by
  rcases h with ⟨failure, hrun, hfailure⟩ | ⟨c', hc', hrun⟩
  · rw [Yields, hrun]
    exact hfailure
  · rw [Yields, hrun]
    exact hrest c' hc'

theorem LeadsTo.exists_of_run (h : p.LeadsTo c p' Q) {r : β × Reading text}
    (hrun : p.run Reading.machine c = .ok r) : ∃ c', Q c' ∧ p'.run Reading.machine c' = .ok r := by
  rcases h with ⟨failure, hfails, -⟩ | ⟨c', hc', heq⟩
  · rw [hfails] at hrun
    cases hrun
  · exact ⟨c', hc', by rw [← heq, hrun]⟩

/-- Whether a parser goes through tokens and leads to another one behind them. -/
def Leads (text : String) (ts : List Token) (p p' : Parser β) : Prop :=
  ∀ (c : Reading text) (us : List Token) (P : Standing), c.Stands (ts ++ us) P →
    p.LeadsTo c p' (·.Stands us P)

variable {ts : List Token}

theorem leads_nil : p.Leads text [] p := fun _ _ _ hc => leadsTo_self hc

theorem Leads.append (h : p.Leads text ts p') (h' : p'.Leads text us p'') :
    p.Leads text (ts ++ us) p'' := by
  intro c vs P hc
  rw [List.append_assoc] at hc
  exact (h c _ P hc).trans fun c' hc' => h' c' vs P hc'

end Parser

section Recur

variable {body : (σ → Parser β) → σ → Parser β} {f : (σ → Parser β) → Token → Parser β} {a b : σ}

/-- A repetition whose round reads a token leads to the next round, behind what the round goes
through. -/
theorem leads_recur {γ : Type} {ts : List Token} {sub : Parser γ}
    (hsub : sub.Passes text ts fun _ => True) (hbody : ∀ again, body again a = next >>= f again)
    (hstep : ∀ again, f again t = sub >>= fun _ => again b) (ht : t.kind.isBrace = false) :
    (recur body a).Leads text (t :: ts) (recur body b) := by
  intro c us P hc
  refine leadsTo_recurBy fun again hagain => ?_
  rw [hbody]
  refine (passes_next ht c _ P hc).leadsTo ?_
  rintro _ c₁ ⟨rfl, h₁⟩
  rw [hstep]
  refine (hsub c₁ us P h₁).leadsTo fun _ c₂ h₂ => (hagain b c₂).trans ?_
  rintro _ rfl
  exact leadsTo_self h₂.2

theorem leads_token (hbody : ∀ again, body again a = next >>= f again)
    (hstep : ∀ again, f again t = again b) (ht : t.kind.isBrace = false) :
    (recur body a).Leads text [t] (recur body b) :=
  have hsub : (pure () : Parser Unit).Passes text [] fun _ => True := passes_pure trivial
  leads_recur hsub hbody hstep ht

/-- A repetition whose round goes through braces leads to the next round behind them. -/
theorem leads_recur_lBrace {γ : Type} {ts : List Token} {sub : Parser γ}
    (hsub : sub.PassesInside text t ts fun _ => True) (hbody : ∀ again, body again a = next >>= f again)
    (hstep : ∀ again, f again t = sub >>= fun _ => again b) (ht : t.kind = .lBrace) :
    (recur body a).Leads text (t :: ts) (recur body b) := by
  intro c us P hc
  refine leadsTo_recurBy fun again hagain => ?_
  rw [hbody]
  refine (yields_next hc).leadsTo ?_
  rintro _ c₁ ⟨rfl, h₁⟩
  rw [Standing.behind_of_lBrace ht] at h₁
  rw [hstep]
  refine (hsub c₁ us P (hc.depth_of_lBrace ht) hc.scopes_lt h₁).leadsTo fun _ c₂ h₂ => ?_
  refine (hagain b c₂).trans ?_
  rintro _ rfl
  exact leadsTo_self h₂.2

end Recur

end ReflectionTables.Parsing
