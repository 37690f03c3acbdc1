import ReflectionTables.Proofs.AnyAnswers
import ReflectionTables.Proofs.ParserContracts
/-!
# Relations between the ends of a run

What the runs of a parser that end have in common, on a machine and from any state. A relation
between the state before, the result and the state behind is put together along the steps of a
parser. A repetition has a relation if each round has it, where a parser that is called again does
what the repetition would do.
-/

namespace ReflectionTables.Parsing

open Scanning Reflected

variable {σ τ α β : Type}

namespace Machine

/-- A machine whose states say which role the file has. No answer changes it. -/
class HasRole (m : Machine σ) where
  roleOf : σ → FileRole
  fits : ∀ {request : Request} {s : σ} {answer : request.Answer} {s' : σ}, m request s = .ok (answer, s') →
    request.Fits (roleOf s) answer ∧ roleOf s' = roleOf s

abbrev roleOf (m : Machine σ) [HasRole m] (s : σ) : FileRole := HasRole.roleOf m s

instance {text : String} : HasRole (ParserState.machine : Machine (ParserState text)) where
  roleOf := ParserState.role
  fits := ParserState.fits_machine

/-- Whether a second machine, from what is seen of the states of the first, gives all answers that the first
one gives. -/
def Follows (m : Machine σ) (m' : Machine τ) (view : σ → τ) : Prop :=
  ∀ request s answer s', m request s = .ok (answer, s') → m' request (view s) = .ok (answer, view s')

instance (request : Request) : DecidableEq request.Answer := by
  cases request <;> exact inferInstance

/-- Two machines side by side, which have to give the same answers. -/
def beside (m : Machine σ) (m' : Machine τ) : Machine (σ × τ) := fun request s =>
  match m request s.1, m' request s.2 with
  | .ok (answer, s'), .ok (answer', t') =>
    if answer = answer' then .ok (answer, (s', t')) else .error .stalled
  | .error failure, _ => .error failure
  | _, .error failure => .error failure

theorem beside_eq_ok {m : Machine σ} {m' : Machine τ} {request : Request} {s s' : σ × τ}
    {answer : request.Answer} :
    m.beside m' request s = .ok (answer, s') ↔
      m request s.1 = .ok (answer, s'.1) ∧ m' request s.2 = .ok (answer, s'.2) := by
  obtain ⟨s', t'⟩ := s'
  rw [beside]
  cases m request s.1 with
  | error => simp
  | ok first =>
    cases m' request s.2 with
    | error => simp
    | ok second =>
      obtain ⟨answer₁, s₁⟩ := first
      obtain ⟨answer₂, t₂⟩ := second
      simp only [Except.ok.injEq, Prod.mk.injEq]
      grind

theorem beside_follows_left (m : Machine σ) (m' : Machine τ) : (m.beside m').Follows m Prod.fst :=
  fun _ _ _ _ h => (beside_eq_ok.1 h).1

theorem beside_follows_right (m : Machine σ) (m' : Machine τ) : (m.beside m').Follows m' Prod.snd :=
  fun _ _ _ _ h => (beside_eq_ok.1 h).2

instance (m : Machine σ) (m' : Machine τ) [HasRole m] : HasRole (m.beside m') where
  roleOf s := m.roleOf s.1
  fits h := HasRole.fits (beside_eq_ok.1 h).1

end Machine

namespace Parser

/-- Whether a relation holds of every run of a parser that ends. -/
def Relates (m : Machine σ) (R : σ → α → σ → Prop) (p : Parser α) : Prop :=
  ∀ s a s', p.run m s = .ok (a, s') → R s a s'

/-- Whether the runs of a parser that end are runs of a second one. -/
def RunsAs (m : Machine σ) (p q : Parser α) : Prop :=
  p.Relates m fun s a s' => q.run m s = .ok (a, s')

variable {m : Machine σ} {R : σ → α → σ → Prop} {S : σ → β → σ → Prop}

theorem Relates.mono {R' : σ → α → σ → Prop} {p : Parser α} (hp : p.Relates m R)
    (hR : ∀ s a s', R s a s' → R' s a s') : p.Relates m R' :=
  fun s a s' hrun => hR s a s' (hp s a s' hrun)

theorem Relates.bind {T : σ → β → σ → Prop} {S : α → σ → β → σ → Prop} {p : Parser α} {f : α → Parser β}
    (hp : p.Relates m R) (hf : ∀ a, (f a).Relates m (S a))
    (hT : ∀ s a s₁ b s', R s a s₁ → S a s₁ b s' → T s b s') : (p >>= f).Relates m T := by
  intro s b s' hrun
  obtain ⟨a, s₁, hfirst, hrest⟩ := exists_of_run_bind hrun
  exact hT s a s₁ b s' (hp s a s₁ hfirst) (hf a s₁ b s' hrest)

theorem relates_pure {a : α} (h : ∀ s, R s a s) : (pure a : Parser α).Relates m R := by
  intro s b s' hrun
  cases hrun
  exact h s

theorem answered_of_run {r : Request} {s s' : σ} {answer : r.Answer}
    (h : (request r).run m s = .ok (answer, s')) : m r s = .ok (answer, s') := by
  rw [request, Parser.run] at h
  split at h
  · rename_i hanswer
    cases h
    exact hanswer
  · cases h

theorem run_stop_ne_ok {r : Request} (hstop : r.Answer → False) {f : r.Answer → Parser α} {s : σ}
    {result : α × σ} : (ask r f).run m s ≠ .ok result := by
  intro hrun
  rw [Parser.run] at hrun
  split at hrun
  · exact hstop ‹_›
  · cases hrun

theorem relates_fail {token : Token} {fault : ParseFault} :
    (fail token fault : Parser α).Relates m R := by
  intro s a s' hrun
  exact (run_stop_ne_ok Empty.elim hrun).elim

theorem relates_fail_bind {token : Token} {fault : ParseFault} {f : α → Parser β} :
    (fail token fault >>= f).Relates m S := by
  have hnever : (fail token fault : Parser α).Relates m fun _ _ _ => False := relates_fail
  exact hnever.bind (S := fun _ _ _ _ => True) (fun _ _ _ _ _ => trivial) fun _ _ _ _ _ h _ => h.elim

/-- What is known of a run of a parser that asks for the number of tokens first. -/
theorem exists_of_run_tokensLeft {f : Nat → Parser α} {s s' : σ} {a : α}
    (h : (ask .tokensLeft f).run m s = .ok (a, s')) :
    ∃ left s₁, m .tokensLeft s = .ok (left, s₁) ∧ (f left).run m s₁ = .ok (a, s') := by
  rw [Parser.run] at h
  split at h
  · exact ⟨_, _, ‹_›, h⟩
  · cases h

/-- A repetition that is called again has run as one that begins. -/
theorem CallsAgain.runsAs {measure : α → Nat → Nat} {body : (α → Parser β) → α → Parser β}
    {again : α → Parser β} (h : CallsAgain measure body again) (a : α) :
    (again a).RunsAs m (Parser.recurBy measure body a) := by
  obtain ⟨bound, hagain⟩ := h
  intro s b s' hrun
  rw [hagain] at hrun
  obtain ⟨left, s₁, hanswer, hrest⟩ := exists_of_run_tokensLeft hrun
  rw [Parser.recurBy, Parser.run, hanswer]
  split at hrest
  · exact hrest
  · exact (run_stop_ne_ok Empty.elim hrest).elim

/-- The rule for repetition. The parser that a round calls again has the relation, and where it ends it has
run as the repetition. -/
theorem relates_recurBy {measure : α → Nat → Nat} {body : (α → Parser β) → α → Parser β}
    (R : α → σ → β → σ → Prop)
    (hleft : ∀ s left s₁ a b s', m .tokensLeft s = .ok (left, s₁) → R a s₁ b s' → R a s b s')
    (round : ∀ again, (∀ a, (again a).Relates m (R a)) →
      (∀ a, (again a).RunsAs m (Parser.recurBy measure body a)) → ∀ a, (body again a).Relates m (R a))
    (a : α) : (Parser.recurBy measure body a).Relates m (R a) := by
  apply recurBy_induction fun a p => p.Relates m (R a)
  · intro a f hf s b s' hrun
    obtain ⟨left, s₁, hanswer, hrest⟩ := exists_of_run_tokensLeft hrun
    exact hleft s left s₁ a b s' hanswer (hf left s₁ b s' hrest)
  · intro a f s b s' hrun
    exact (run_stop_ne_ok Empty.elim hrun).elim
  · exact fun again hagain ih => round again ih hagain.runsAs

/-- What each allowed request may come before, and what holds where nothing is done, holds of the run of a
parser that only makes such requests. -/
theorem Always.run_induction [m.HasRole] {allowed : Request → Prop} {T : σ → σ → Prop} (hrefl : ∀ s, T s s)
    (hstep : ∀ request s answer s₁ s', allowed request → m request s = .ok (answer, s₁) → T s₁ s' → T s s')
    {p : Parser α} {Q : α → Prop} {s s' : σ} {a : α} (h : p.Always (m.roleOf s) allowed Q)
    (hrun : p.run m s = .ok (a, s')) : T s s' := by
  induction p generalizing s with
  | done b =>
    cases hrun
    exact hrefl _
  | ask request next ih =>
    rw [Parser.run] at hrun
    split at hrun
    · rename_i answer s₁ hanswer
      obtain ⟨hfit, hrole⟩ := Machine.HasRole.fits hanswer
      have hrest := h.2 answer hfit
      rw [Machine.roleOf, ← hrole] at hrest
      exact hstep request s answer s₁ s' h.1 hanswer (ih answer hrest hrun)
    · cases hrun

theorem run_of_follows {m' : Machine τ} {view : σ → τ} (hview : m.Follows m' view) {p : Parser α} {s s' : σ}
    {a : α} (hrun : p.run m s = .ok (a, s')) : p.run m' (view s) = .ok (a, view s') := by
  induction p generalizing s with
  | done b =>
    cases hrun
    rfl
  | ask request next ih =>
    rw [Parser.run] at hrun
    split at hrun
    · rename_i answer s₁ hanswer
      rw [Parser.run, hview request s answer s₁ hanswer]
      exact ih answer hrun
    · cases hrun

end Parser

end ReflectionTables.Parsing
