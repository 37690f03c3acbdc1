import ReflectionTables.Proofs.CursorAnswers
import ReflectionTables.Proofs.VisitedItems
/-!
# Parsers that read on from a place in the tokens

Parsers that read on, from wherever they stand in the tokens of a text. Such a parser asks for one
token after the other and for nothing that depends on the queue of its stream or on its scopes. So
it runs on the stream as it does on a reading that stands behind as many tokens, with an empty queue
and no scope.
-/

namespace ReflectionTables.Parsing

open Text Scanning Reflected TokenCursor Parsing.Parser

variable {text : String} {role : FileRole} {α : Type} {Q : α → Prop} {a : α} {p : Parser α}
  {s s' : ParserState text} {c c' : Reading text} {t : Token} {ts : List Token} {n : Nat}

/-- Whether a parser stands behind so many tokens of its text: it has delivered as many, and its stream
shows the others in order, whatever part of them is in the queue. -/
structure ParserState.IsBehind (s : ParserState text) (n : Nat) : Prop where
  delivered_eq : s.stream.delivered = n
  shows : ∀ m, s.stream.cursor.lookAt m = tokenAt text (n + m)

/-- Whether a reading tells where a parser stands, its scopes apart. -/
structure Reading.ShownBy (c : Reading text) (s : ParserState text) : Prop where
  role_eq : s.role = c.role
  findings_eq : s.findings = c.findings
  isBehind : s.IsBehind c.delivered.length

theorem TokenStream.delivered_read (s : TokenStream text) (h : s.read.1 = .ok t) :
    s.read.2.delivered = s.delivered + t.count := by
  obtain ⟨scanner, _ | ⟨u, queue⟩, delivered⟩ := s
  · rw [TokenStream.read] at h ⊢
    dsimp only at h ⊢
    split at h <;> cases h
    rfl
  · cases h
    rfl

theorem tokenAt_of_append {before after : List Token} (h : (tokensOf text).1 = before ++ t :: after) :
    tokenAt text before.length = .ok t := by
  rw [tokenAt, h, List.getElem?_append_right (Nat.le_refl _), Nat.sub_self]
  rfl

namespace ParserState

theorem isBehind_new (role : FileRole) (text : String) : (new role text).IsBehind 0 where
  delivered_eq := rfl
  shows := (TokenPlace.matches_start role text).shows

namespace IsBehind

theorem place (h : s.IsBehind n) : TokenPlace.Matches ⟨n, []⟩ s := ⟨h.shows, trivial⟩

theorem toCome_eq {before after : List Token} (h : s.IsBehind before.length)
    (htokens : (tokensOf text).1 = before ++ after) : s.toCome = after := by
  rw [toCome, h.delivered_eq, htokens, List.drop_left]

/-- A read delivers the token behind which the parser stands next. -/
theorem take_read (h : s.IsBehind n) (ht : tokenAt text n = .ok t) :
    s.take (·.read) = .ok (t, { s with stream := s.stream.read.2 }) ∧
      { s with stream := s.stream.read.2 }.IsBehind (n + t.count) := by
  have hread : s.stream.read.1 = .ok t := h.place.read_eq.trans ht
  refine ⟨?_, ?_, h.place.shows_behind ht⟩
  · rw [take]
    rcases hstream : s.stream.read with ⟨_, stream⟩
    rw [hstream] at hread
    cases hread
    rfl
  · rw [← h.delivered_eq]
    exact TokenStream.delivered_read _ hread

theorem take_read_failed {e : ScanError} (h : s.IsBehind n) (he : tokenAt text n = .error e) :
    s.take (·.read) = .error (.ofScan e) := by
  have hread : s.stream.read.1 = .error e := h.place.read_eq.trans he
  rw [take]
  rcases hstream : s.stream.read with ⟨_, stream⟩
  rw [hstream] at hread
  cases hread
  rfl

/-- A parser that stands in front of a token gets behind it. -/
theorem next {before after : List Token} (h : s.IsBehind before.length)
    (htokens : (tokensOf text).1 = before ++ t :: after) :
    ∃ s', machine .next s = .ok (t, s') ∧ s'.IsBehind (before.length + 1) := by
  have hmem : t ∈ (tokensOf text).1 := by
    rw [htokens]
    exact List.mem_append_right _ List.mem_cons_self
  have hend : t.kind ≠ .endOfText := (standsIn_of_mem_tokensOf hmem).kind_ne_end
  obtain ⟨htake, hbehind⟩ := h.take_read (tokenAt_of_append htokens)
  rw [Token.count, if_neg hend] at hbehind
  exact ⟨_, by simp only [machine, htake, if_neg hend], hbehind⟩

end IsBehind

def AtEnd (s : ParserState text) : Prop :=
  ∃ t s', machine .nextOrEnd s = .ok (t, s') ∧ t.kind = .endOfText

/-- A parser that stands behind all tokens of a text that is scanned to its end has come there. -/
theorem IsBehind.atEnd (h : s.IsBehind (tokensOf text).1.length) (hending : (tokensOf text).2 = .ok t) :
    s.AtEnd := by
  have hat : tokenAt text (tokensOf text).1.length = .ok t := by
    rw [tokenAt, List.getElem?_eq_none_iff.2 (Nat.le_refl _)]
    exact hending
  exact ⟨t, _, (h.take_read hat).1, by rw [ending_tokensOf hending]⟩

/-- The reading that tells where a parser stands. -/
def reading (s : ParserState text) : Reading text where
  role := s.role
  delivered := ((tokensOf text).1.take s.stream.delivered).reverse
  pending := s.toCome
  ahead := 0
  scopes := []
  findings := s.findings
  delivered_pending := by rw [List.reverse_reverse, toCome, List.take_append_drop]
  ahead_le := Nat.zero_le _
  ahead_clear := by simp
  scopes_nest := by simp

/-- The reading has delivered the tokens behind which the parser stands. -/
theorem IsBehind.reading_behind {before after : List Token} (h : s.IsBehind before.length)
    (htokens : (tokensOf text).1 = before ++ after) :
    s.reading.ShownBy s ∧ s.reading.delivered = before.reverse ∧ s.reading.pending = after := by
  have hdelivered : s.reading.delivered = before.reverse := by
    refine congrArg List.reverse ?_
    rw [h.delivered_eq, htokens, List.take_left]
  refine ⟨⟨rfl, rfl, ?_⟩, hdelivered, h.toCome_eq htokens⟩
  rwa [hdelivered, List.length_reverse]

theorem IsBehind.reading_shownBy {before after : List Token} (h : s.IsBehind (before.length + 1))
    (htokens : (tokensOf text).1 = before ++ t :: after) :
    s.reading.ShownBy s ∧ s.reading.delivered = t :: before.reverse ∧ s.reading.pending = after := by
  have hsnoc : (tokensOf text).1 = (before ++ [t]) ++ after := by rw [htokens, List.append_assoc]; rfl
  have hbehind : s.IsBehind (before ++ [t]).length := by rwa [List.length_append]
  have hreverse : (before ++ [t]).reverse = t :: before.reverse := by rw [List.reverse_append]; rfl
  rw [← hreverse]
  exact hbehind.reading_behind hsnoc

theorem IsBehind.reading_stands {opening : TokenOf .lBrace} {before after : List Token}
    (h : s.IsBehind (before.length + 1))
    (htokens : (tokensOf text).1 = before ++ opening.val :: after) :
    ∃ P : Standing, opening.val.depth = P.depth ∧ P.scopes = [] ∧ P.found = s.findings ∧
      s.reading.Stands after P.opened := by
  obtain ⟨-, hdelivered, hpending⟩ := h.reading_shownBy htokens
  have hnested := nested_tokensOf text
  rw [htokens, nested_append] at hnested
  have hdepth := hnested.2.2.1
  rw [opening.property] at hdepth
  refine ⟨⟨s.role, opening.val.depth, [], s.findings⟩, rfl, rfl, rfl, rfl, hpending, ?_, rfl, rfl⟩
  rw [Reading.depth, hdelivered, Reading.depthBehind_snoc, List.reverse_reverse, opening.property, hdepth]
  rfl

end ParserState

namespace Reading.ShownBy

theorem tokenAt_cons (c : Reading text) (hpending : c.pending = t :: ts) :
    tokenAt text c.delivered.length = .ok t := by
  have htokens := c.delivered_pending
  rw [hpending] at htokens
  rw [← c.delivered.length_reverse]
  exact tokenAt_of_append htokens.symm

theorem tokenAt_nil (c : Reading text) (hpending : c.pending = []) :
    tokenAt text c.delivered.length = (tokensOf text).2 := by
  have htokens := c.delivered_pending
  rw [hpending, List.append_nil] at htokens
  rw [tokenAt, ← htokens, List.getElem?_eq_none_iff.2 (by rw [List.length_reverse])]

/-- One request of a parser that reads on is answered from the stream as from the reading. -/
theorem machine (h : c.ShownBy s) {request : Request} (hreads : request.ReadsOn) :
    match Reading.machine request c with
    | .ok (answer, c') => ∃ s', ParserState.machine request s = .ok (answer, s') ∧ c'.ShownBy s'
    | .error failure => ParserState.machine request s = .error failure := by
  cases request with
  | next =>
    simp only [Reading.machine, ParserState.machine]
    cases hpending : c.pending with
    | cons t ts =>
      have hend : t.kind ≠ .endOfText := (delivers_advance hpending).holds.kind_ne
      obtain ⟨htake, hbehind⟩ := h.isBehind.take_read (tokenAt_cons c hpending)
      rw [Token.count, if_neg hend] at hbehind
      simp only [read_of_pending hpending, htake, if_neg hend]
      exact ⟨_, rfl, h.role_eq, h.findings_eq, hbehind⟩
    | nil =>
      rw [read_of_pending_nil hpending]
      have hat := tokenAt_nil c hpending
      cases hending : (tokensOf text).2 with
      | ok t =>
        have hend : t.kind = .endOfText := by rw [ending_tokensOf hending]
        obtain ⟨htake, -⟩ := h.isBehind.take_read (hat.trans hending)
        simp only [htake, if_pos hend]
      | error e => simp only [h.isBehind.take_read_failed (hat.trans hending)]
  | tokensLeft =>
    refine ⟨s, ?_, h⟩
    simp only [ParserState.machine, TokenStream.tokensLeft, h.isBehind.delivered_eq]
    rfl
  | cut what start stop =>
    simp only [Reading.machine, ParserState.machine]
    cases slice? text start stop with
    | some piece => exact ⟨s, rfl, h⟩
    | none => rfl
  | reject | stall => rfl
  | _ => exact hreads.elim

/-- A parser that reads on runs on the stream as it does on the reading. -/
theorem run (h : c.ShownBy s) (hp : p.Always role Request.ReadsOn Q) :
    match p.run Reading.machine c with
    | .ok (a, c') => ∃ s', p.run ParserState.machine s = .ok (a, s') ∧ c'.ShownBy s'
    | .error failure => p.run ParserState.machine s = .error failure := by
  induction p generalizing c s with
  | done a => exact ⟨s, rfl, h⟩
  | ask request next ih =>
    obtain ⟨hreads, hnext⟩ := hp
    have hanswer := h.machine hreads
    simp only [Parser.run]
    cases hc : Reading.machine request c with
    | ok answer =>
      rw [hc] at hanswer
      obtain ⟨s', hs, h'⟩ := hanswer
      simp only [hs]
      refine ih answer.1 h' (hnext answer.1 ?_)
      cases request <;> trivial
    | error failure =>
      rw [hc] at hanswer
      simp only [hanswer]

theorem exists_run (h : c.ShownBy s) (hp : p.Always c.role Request.ReadsOn Q)
    (hrun : p.run Reading.machine c = .ok (a, c')) :
    ∃ s', p.run ParserState.machine s = .ok (a, s') ∧ c'.ShownBy s' := by
  have hboth := h.run hp
  rwa [hrun] at hboth

theorem exists_reading_run (h : c.ShownBy s) (hp : p.Always c.role Request.ReadsOn Q)
    (hrun : p.run ParserState.machine s = .ok (a, s')) :
    ∃ c', p.run Reading.machine c = .ok (a, c') ∧ c'.ShownBy s' := by
  have hboth := h.run hp
  cases hc : p.run Reading.machine c with
  | ok result =>
    rw [hc] at hboth
    obtain ⟨s₁, hs, h'⟩ := hboth
    rw [hrun] at hs
    cases hs
    exact ⟨_, rfl, h'⟩
  | error failure =>
    rw [hc] at hboth
    rw [hrun] at hboth
    cases hboth

end Reading.ShownBy

/-- Where the tokens to come are the last ones of the text, all others were delivered. -/
theorem Reading.delivered_of_pending {before after : List Token}
    (htokens : (tokensOf text).1 = before ++ after) (hpending : c.pending = after) :
    c.delivered.reverse = before := by
  have hdelivered := c.delivered_pending
  rw [hpending, htokens] at hdelivered
  exact List.append_cancel_right hdelivered

/-- What a parser that reads on yields behind a token, it ends with on the stream. It then stands behind
the tokens that it went through. -/
theorem ParserState.IsBehind.exists_run {before us : List Token} {allowed : Request → Reading text → Prop}
    {S P : α → Reading text → Prop} (h : s.IsBehind (before.length + 1))
    (htokens : (tokensOf text).1 = before ++ t :: (ts ++ us))
    (hp : p.Always s.role Request.ReadsOn Q) (hmeets : p.Obeys allowed S s.reading)
    (hyields : p.Yields P s.reading) (hP : ∀ a c', P a c' → c'.pending = us) :
    ∃ a s' c', p.run machine s = .ok (a, s') ∧ P a c' ∧
      c'.delivered.reverse = before ++ t :: ts ∧ s'.IsBehind (before.length + 1 + ts.length) ∧
      s'.findings = c'.findings := by
  obtain ⟨hshown, -⟩ := h.reading_shownBy htokens
  obtain ⟨a, c', hrun, ha⟩ := hyields.exists_run hmeets
  obtain ⟨s', hrun', hshown'⟩ := hshown.exists_run hp hrun
  have hsplit : (tokensOf text).1 = (before ++ t :: ts) ++ us := by
    rw [htokens, List.append_assoc, List.cons_append]
  have hdelivered := Reading.delivered_of_pending hsplit (hP a c' ha)
  have hbehind := hshown'.isBehind
  rw [← List.length_reverse, hdelivered, List.length_append, List.length_cons, Nat.add_comm ts.length,
    ← Nat.add_assoc] at hbehind
  exact ⟨a, s', c', hrun', ha, hdelivered, hbehind, hshown'.findings_eq⟩

end ReflectionTables.Parsing
