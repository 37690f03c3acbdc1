import ReflectionTables.Proofs.CursorAnswers
import ReflectionTables.Proofs.RunRelations
/-!
# Tokens in hand count as tokens to come

Tokens that are delivered may be put back, so a parser does not just lower the number of tokens to
come. What a parser was given and has not put back is its credit: from any state, the tokens to come
and the credit together never become more. Looking ahead fills the queue from the scanner and
changes nothing, and the mark of the end, which is delivered again and again, is no token.
-/

namespace ReflectionTables.Scanning

variable {text : String}

/-- The number of tokens that a cursor shows. The mark of the end is none. -/
def TokenCursor.size (c : TokenCursor) : Nat := c.tokens.countP fun t => t.kind ≠ .endOfText

@[simp] theorem TokenCursor.size_cons (t : Token) (tokens : List Token) (ending : Except ScanError Token) :
    (TokenCursor.mk (t :: tokens) ending).size = t.count + (TokenCursor.mk tokens ending).size := by
  rw [size, size, List.countP_cons, Nat.add_comm, Token.count]
  by_cases hend : t.kind = .endOfText <;> simp [hend]

namespace Scanner

variable {s s' : Scanner text} {t : Token}

@[simp] theorem size_cons (s : Scanner text) (t : Token) (queue : List Token) :
    (s.cursor (t :: queue)).size = t.count + (s.cursor queue).size :=
  TokenCursor.size_cons ..

/-- A read takes one token off, unless it reads the mark of the end. -/
theorem size_read (h : s.read = (.ok t, s')) :
    t.count + (s'.cursor []).size = (s.cursor []).size := by
  by_cases hend : t.kind = .endOfText
  · have hread := s.read_cursor
    have htokens := tokens_of_read_end h hend
    rw [h, cursor, htokens] at hread
    have hstays : s'.cursor [] = ⟨[], .ok t⟩ := (congrArg Prod.snd hread).symm
    rw [hstays, cursor, htokens, Token.count, if_pos hend]
    rfl
  · rw [cursor, cursor, tokens_of_read h hend]
    exact (TokenCursor.size_cons ..).symm

/-- Looking ahead moves tokens from the scanner to the queue. -/
@[simp] theorem size_fill (s : Scanner text) (n : Nat) (queue : List Token) :
    ((s.fill n queue).2.1.cursor (s.fill n queue).2.2).size = (s.cursor queue).size := by
  fun_induction Scanner.fill s n queue with
  | case1 s t queue => rfl
  | case2 s n t queue answer scanner queue' hfill ih =>
    rw [hfill] at ih
    rw [size_cons, size_cons, ih]
  | case3 s t s' hread => rw [size_cons, size_read hread]
  | case4 s e s' hread => rw [(cursor_of_failed hread).1]
  | case5 s n t s' hread answer scanner queue' hfill ih =>
    rw [hfill] at ih
    rw [size_cons, ih, size_read hread]
  | case6 s n e s' hread => rw [(cursor_of_failed hread).1]

end Scanner

theorem TokenStream.size_read {s s' : TokenStream text} {t : Token} (h : s.read = (.ok t, s')) :
    t.count + s'.cursor.size = s.cursor.size := by
  obtain ⟨scanner, _ | ⟨u, queue⟩, delivered⟩ := s
  · rw [TokenStream.read] at h
    rcases hscan : scanner.read with ⟨_ | v, scanner'⟩ <;> rw [hscan] at h <;> cases h
    exact Scanner.size_read hscan
  · cases h
    exact (Scanner.size_cons _ _ _).symm

@[simp] theorem TokenStream.size_lookAt (s : TokenStream text) (n : Nat) :
    (s.lookAt n).2.cursor.size = s.cursor.size :=
  Scanner.size_fill s.scanner n s.queue

@[simp] theorem Scanner.size_enter (s : Scanner text) (segment : String) (depth : Nat) (queue : List Token) :
    ((s.enter segment depth).cursor queue).size = (s.cursor queue).size := by
  have htokens : (s.enter segment depth).tokens = s.tokens := s.tokens_withScopes _
  rw [cursor, cursor, htokens]

end ReflectionTables.Scanning

namespace ReflectionTables.Parsing

open Scanning Reflected Parsing.Parser

variable {text : String} {α β : Type}

/-- The number of tokens that were not delivered, or were put back: those in the queue and those to scan. -/
def ParserState.undelivered (s : ParserState text) : Nat := s.stream.cursor.size

theorem undelivered_new (role : FileRole) (text : String) :
    (ParserState.new role text).undelivered ≤ (tokensOf text).1.length :=
  List.countP_le_length

section Machine

variable {s s' : ParserState text} {t : Token}

theorem undelivered_nextOrEnd (h : ParserState.machine .nextOrEnd s = .ok (t, s')) :
    t.count + s'.undelivered = s.undelivered := by
  simp only [ParserState.machine, ParserState.take] at h
  split at h
  · rename_i hread
    cases h
    exact TokenStream.size_read hread
  · cases h

theorem undelivered_next (h : ParserState.machine .next s = .ok (t, s')) :
    t.kind ≠ .endOfText ∧ 1 + s'.undelivered = s.undelivered := by
  simp only [ParserState.machine] at h
  split at h
  · rename_i hstep
    split at h
    · cases h
    · rename_i hkind
      cases h
      have htaken := undelivered_nextOrEnd hstep
      rw [Token.count, if_neg hkind] at htaken
      exact ⟨hkind, htaken⟩
  · cases h

def Request.Takes : Request → Prop
  | .putBack _ => False
  | _ => True

instance (role : FileRole) : Request.AdmitsForward role Request.Takes where
  of_forward request h := by
    cases request with
    | putBack => exact h.elim
    | _ => trivial

/-- Where nothing is put back, the tokens to come do not become more. -/
theorem undelivered_of_takes {request : Request} {answer : request.Answer} (htakes : request.Takes)
    (h : ParserState.machine request s = .ok (answer, s')) : s'.undelivered ≤ s.undelivered := by
  cases request with
  | putBack => exact htakes.elim
  | next =>
    have := (undelivered_next h).2
    omega
  | nextOrEnd =>
    have := undelivered_nextOrEnd h
    omega
  | lookAt n =>
    simp only [ParserState.machine, ParserState.take] at h
    split at h
    · rename_i hlook
      cases h
      have hsize := s.stream.size_lookAt n
      rw [hlook] at hsize
      exact Nat.le_of_eq hsize
    · cases h
  | enter segment opening =>
    cases h
    exact Nat.le_of_eq (Scanner.size_enter _ _ _ _)
  | cut what start stop =>
    simp only [ParserState.machine] at h
    split at h <;> cases h
    exact Nat.le_refl _
  | reject | abort | stall => cases h
  | role | enclosingName | depth | tokensLeft | note =>
    cases h
    exact Nat.le_refl _

end Machine

/-- Whether a parser, begun with some tokens in hand, ends with as many in hand as its result says, and the
tokens to come together with those in hand have not become more. -/
def Parser.Conserves (text : String) (held : Nat) (kept : α → Nat) (p : Parser α) : Prop :=
  p.Relates (ParserState.machine : Machine (ParserState text)) fun s a s' =>
    s'.undelivered + kept a ≤ s.undelivered + held

section Conserves

variable {held held' more : Nat} {kept : α → Nat} {kept' : β → Nat} {t : Token}

namespace Parser

theorem Conserves.bind {p : Parser α} {f : α → Parser β} (hp : p.Conserves text held kept)
    (hf : ∀ a, (f a).Conserves text (kept a) kept') : (p >>= f).Conserves text held kept' := by
  refine Relates.bind hp hf ?_
  intros
  omega

/-- What is in hand besides stays in hand. -/
theorem Conserves.add {p : Parser α} (hp : p.Conserves text held kept) (more : Nat) :
    p.Conserves text (held + more) fun a => kept a + more := by
  exact Relates.mono hp fun _ _ _ hspent => by dsimp only; omega

theorem Conserves.mono {p : Parser α} {kept₁ : α → Nat} (hp : p.Conserves text held kept)
    (hheld : held ≤ held') (hkept : ∀ a, kept₁ a ≤ kept a) : p.Conserves text held' kept₁ := by
  refine Relates.mono hp ?_
  intro s a s' hspent
  have hless := hkept a
  omega

theorem Conserves.from_le {p : Parser α} (hp : p.Conserves text held kept) (hheld : held ≤ held') :
    p.Conserves text held' kept :=
  hp.mono hheld fun _ => Nat.le_refl _

end Parser

theorem conserves_pure {a : α} (h : kept a ≤ held) : (pure a : Parser α).Conserves text held kept :=
  relates_pure fun _ => Nat.add_le_add_left h _

theorem conserves_fail {fault : ParseFault} : (fail t fault : Parser α).Conserves text held kept :=
  relates_fail

theorem conserves_fail_bind {fault : ParseFault} {f : α → Parser β} :
    (fail t fault >>= f).Conserves text held kept' :=
  relates_fail_bind

theorem conserves_nextOrEnd : nextOrEnd.Conserves text 0 Token.count := by
  intro s t s' hrun
  have htaken := undelivered_nextOrEnd (answered_of_run hrun)
  omega

theorem conserves_next : next.Conserves text 0 fun _ => 1 := by
  intro s t s' hrun
  have htaken := (undelivered_next (answered_of_run hrun)).2
  dsimp only
  omega

theorem conserves_putBack : (putBack t).Conserves text t.count fun _ => 0 := by
  intro s u s' hrun
  cases answered_of_run hrun
  have hsize := Scanner.size_cons s.stream.scanner t s.stream.queue
  rw [Nat.add_comm] at hsize
  exact Nat.le_of_eq hsize

/-- What puts nothing back takes nothing from hand. -/
theorem conserves_of_always {p : Parser α} {Q : FileRole → α → Prop}
    (h : ∀ role, p.Always role Request.Takes (Q role)) : p.Conserves text held fun _ => held := by
  intro s a s' hrun
  have hle : s'.undelivered ≤ s.undelivered := by
    apply Always.run_induction (m := (ParserState.machine : Machine (ParserState text)))
      (T := fun s s' => s'.undelivered ≤ s.undelivered) _ _ (h s.role) hrun
    · exact fun _ => Nat.le_refl _
    · intro request s answer s₁ s' htakes hanswer hrest
      exact Nat.le_trans hrest (undelivered_of_takes htakes hanswer)
  exact Nat.add_le_add_right hle held

theorem conserves_bind_of_always {p : Parser α} {f : α → Parser β} {Q : FileRole → α → Prop}
    (h : ∀ role, p.Always role Request.Takes (Q role)) (hf : ∀ a, (f a).Conserves text held kept') :
    (p >>= f).Conserves text held kept' :=
  (conserves_of_always h).bind hf

theorem conserves_next_bind {f : Token → Parser β} (hf : ∀ t, (f t).Conserves text (1 + held) kept') :
    (next >>= f).Conserves text held kept' := by
  have hnext : next.Conserves text (0 + held) fun _ => 1 + held := conserves_next.add held
  rw [Nat.zero_add] at hnext
  exact hnext.bind hf

theorem conserves_nextOrEnd_bind {f : Token → Parser β}
    (hf : ∀ t, (f t).Conserves text (t.count + held) kept') : (nextOrEnd >>= f).Conserves text held kept' := by
  have hnext : nextOrEnd.Conserves text (0 + held) fun t => t.count + held := conserves_nextOrEnd.add held
  rw [Nat.zero_add] at hnext
  exact hnext.bind hf

theorem conserves_putBack_bind {f : Unit → Parser β} (hf : (f ()).Conserves text held kept') :
    (putBack t >>= f).Conserves text (t.count + held) kept' := by
  have hput : (putBack t).Conserves text (t.count + held) fun _ => 0 + held := conserves_putBack.add held
  simp only [Nat.zero_add] at hput
  exact hput.bind fun _ => hf

theorem conserves_recurBy {measure : α → Nat → Nat} {body : (α → Parser β) → α → Parser β}
    (owed : α → Nat) (round : ∀ again, (∀ a, (again a).Conserves text (owed a) kept') →
      ∀ a, (body again a).Conserves text (owed a) kept') (a : α) :
    (Parser.recurBy measure body a).Conserves text (owed a) kept' := by
  apply relates_recurBy (m := (ParserState.machine : Machine (ParserState text)))
    fun a s b s' => s'.undelivered + kept' b ≤ s.undelivered + owed a
  · intro s left s₁ a b s' hanswer h
    cases hanswer
    exact h
  · intro again hagain _ a
    exact round again hagain a

theorem conserves_loop {body : Parser β → Parser β}
    (round : ∀ again, again.Conserves text held kept' → (body again).Conserves text held kept') :
    (loop body).Conserves text held kept' :=
  conserves_recurBy (fun _ => held) (fun again ih a => round (again a) (ih a)) ()

theorem conserves_request {r : Request} (h : r.Takes) :
    (request r).Conserves text held fun _ => held :=
  conserves_of_always (Q := r.Fits) fun _ => ⟨h, fun _ hfits => hfits⟩

theorem conserves_note {finding : Finding} : (note finding).Conserves text held fun _ => held := by
  have htakes : Request.Takes (.note finding) := trivial
  exact conserves_request htakes

theorem conserves_enter {segment : String} {opening : Token} :
    (enter segment opening).Conserves text held fun _ => held := by
  have htakes : Request.Takes (.enter segment opening) := trivial
  exact conserves_request htakes

end Conserves

end ReflectionTables.Parsing
