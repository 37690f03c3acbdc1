import ReflectionTables.Proofs.ParserContracts
import ReflectionTables.ReservedWords
/-!
# Contracts of the steps of parsers

Contracts of the steps that parsers are built from. Each says which token is delivered and where the
reading stands afterwards. Tokens that were delivered stay in order, so the offsets of any two of
them can be cut between.
-/

namespace ReflectionTables.Scanning

theorem Token.kind_of_reserved? {t : Token} {word : ReservedWord} (h : t.reserved? = some word) :
    t.kind = .ident := by
  rw [Token.reserved?] at h
  split at h
  · assumption
  · cases h

theorem Token.mem_table_of_reserved? {t : Token} {word : ReservedWord}
    (h : t.reserved? = some word) : (t.text, word) ∈ ReservedWord.table := by
  rw [Token.reserved?, if_pos (Token.kind_of_reserved? h)] at h
  obtain ⟨before, after, htable, -⟩ := List.lookup_eq_some_iff.1 h
  simp [htable]

theorem Token.isWord_of_reserved? {t : Token} {word : ReservedWord} {spelling : String}
    (h : t.reserved? = some word)
    (hspelling : ∀ entry ∈ ReservedWord.table, entry.2 = word → entry.1 = spelling) :
    t.isWord spelling = true := by
  have htext : t.text = spelling := hspelling _ (Token.mem_table_of_reserved? h) rfl
  simp [Token.isWord, Token.kind_of_reserved? h, htext]

end ReflectionTables.Scanning

namespace ReflectionTables.Parsing

open Text Scanning Reflected

variable {text : String} {α β : Type} {c c' : Reading text} {l : List Token} {t u : Token}

namespace Reading

structure Past (c : Reading text) (l : List Token) (t : Token) : Prop where
  holds : c.Holds t
  tail : l <:+ c.delivered.tail

/-- Whether a token was delivered last, and the reading stands behind the given tokens, of which it
may be the last. -/
structure At (c : Reading text) (l : List Token) (t : Token) : Prop where
  holds : c.Holds t
  behind : c.Behind l

structure Delivers (c : Reading text) (t : Token) (c' : Reading text) : Prop where
  pending_eq : c.pending = t :: c'.pending
  delivered_eq : c'.delivered = t :: c.delivered
  holds : c'.Holds t

/-- Whether the end of the text was reached, and `t` is its mark. -/
structure Ended (c : Reading text) (t : Token) : Prop where
  pending_eq : c.pending = []
  ending_eq : (tokensOf text).2 = .ok t

/-- Whether a token is at hand: it was delivered last, or is the mark of the end. A closing brace
was delivered after the given tokens, so it can be put back. -/
def Bears (c : Reading text) (l : List Token) (t : Token) : Prop :=
  c.Behind l ∧ (c.Ended t ∨ c.Holds t ∧ (t.kind = .rBrace → l <:+ c.delivered.tail))

/-- What it means to read on: a token is delivered, or the end of the text is reached. -/
def Comes (c : Reading text) (t : Token) (c' : Reading text) : Prop :=
  c.Delivers t c' ∨ c' = c ∧ c.Ended t

/-- Whether a token begins at an offset, and one that begins there or later was delivered. -/
def Reached (c : Reading text) (offset : Nat) : Prop :=
  BeginsToken text offset ∧ ∃ t ∈ c.delivered, offset ≤ t.offset

/-- What it means to look at the token `n` places ahead. -/
structure Sees (c : Reading text) (n : Nat) (t : Token) (c' : Reading text) : Prop where
  delivered_eq : c'.delivered = c.delivered
  seen : c.pending[n]? = some t ∨ c.pending[n]? = none ∧ (tokensOf text).2 = .ok t

/-- Whether the next tokens are neither braces nor semicolons. -/
def Clear (c : Reading text) (n : Nat) : Prop :=
  ∀ t ∈ c.pending.take n, t.kind.isBrace = false ∧ t.kind ≠ .semicolon

def SameBut (c c' : Reading text) : Prop := ∃ findings, c' = { c with findings }

theorem Ended.kind_eq (h : c.Ended t) : t.kind = .endOfText := by rw [ending_tokensOf h.ending_eq]

theorem Ended.offset_eq (h : c.Ended t) : t.offset = text.utf8ByteSize := by
  rw [ending_tokensOf h.ending_eq]

theorem Ended.text_eq (h : c.Ended t) : t.text = "" := by rw [ending_tokensOf h.ending_eq]

theorem Ended.ahead_eq (h : c.Ended t) : c.ahead = 0 := by
  have := c.ahead_le
  rw [h.pending_eq, List.length_nil] at this
  omega

theorem Holds.delivered_eq (h : c.Holds t) : c.delivered = t :: c.delivered.tail := by
  have := h.1
  cases hd : c.delivered <;> simp_all

theorem Holds.mem (h : c.Holds t) : t ∈ c.delivered := by
  rw [h.delivered_eq]
  exact List.mem_cons_self

theorem isTokenOf (h : t ∈ c.delivered) : IsTokenOf text t := .inl (c.mem_tokensOf (.inl h))

theorem Holds.isTokenOf (h : c.Holds t) : IsTokenOf text t := Reading.isTokenOf h.mem

theorem Sees.isTokenOf {n : Nat} (h : c.Sees n t c') : IsTokenOf text t := by
  rcases h.seen with hseen | ⟨-, hend⟩
  · exact .inl (c.mem_tokensOf (.inr (List.mem_of_getElem? hseen)))
  · exact .inr hend

theorem standsIn (h : t ∈ c.delivered) : t.StandsIn text :=
  standsIn_of_mem_tokensOf (c.mem_tokensOf (.inl h))

theorem Holds.standsIn (h : c.Holds t) : t.StandsIn text := c.standsIn h.mem

theorem Holds.kind_ne (h : c.Holds t) : t.kind ≠ .endOfText := h.standsIn.kind_ne_end

theorem begins_offset (h : t ∈ c.delivered) : BeginsToken text t.offset :=
  ⟨t, c.mem_tokensOf (.inl h), rfl⟩

theorem edge_stop (h : t ∈ c.delivered) : IsEdge text t.stop :=
  .inr (.inl ⟨t, c.mem_tokensOf (.inl h), rfl⟩)

theorem Holds.inItem (h : c.Holds t) (hkind : t.kind ≠ .semicolon) : c.InItem := by
  intro u hu
  rw [h.1, Option.some.injEq] at hu
  rwa [← hu]

theorem Past.mem (h : c.Past l t) : t ∈ c.delivered := h.holds.mem

theorem Past.behind (h : c.Past l t) : c.Behind l := h.tail.trans (List.tail_suffix _)

theorem Past.trans (h : c'.Past c.delivered t) (hl : c.Behind l) : c'.Past l t :=
  ⟨h.holds, List.IsSuffix.trans hl h.tail⟩

theorem Past.at (h : c.Past l t) : c.At l t := ⟨h.holds, h.behind⟩

theorem Holds.at (h : c.Holds t) : c.At c.delivered t := ⟨h, .refl c⟩

theorem At.trans (h : c'.At c.delivered t) (hl : c.Behind l) : c'.At l t :=
  ⟨h.holds, h.behind.trans hl⟩

theorem At.mem (h : c.At l t) : t ∈ c.delivered := h.holds.mem

theorem Past.onward (h : c'.Past c.delivered t) : c.Onward c' := by
  refine ⟨h.behind, ?_⟩
  have hle := h.tail.length_le
  rw [h.holds.delivered_eq, List.length_cons]
  omega

/-- Where more was delivered, the last token comes after all that was delivered before. -/
theorem Onward.exists_last (h : c.Onward c') :
    ∃ u, c'.delivered = u :: c'.delivered.tail ∧ c.delivered <:+ c'.delivered.tail := by
  obtain ⟨k, hk⟩ := h.behind
  cases k with
  | nil =>
    have := h.length_lt
    rw [← hk] at this
    exact absurd this (Nat.lt_irrefl _)
  | cons u k =>
    rw [← hk]
    exact ⟨u, rfl, k, rfl⟩

theorem Onward.past (h : c.Onward c') (ht : c'.Holds t) : c'.Past c.delivered t := by
  obtain ⟨_, -, htail⟩ := h.exists_last
  exact ⟨ht, htail⟩

theorem pending_eq_of_delivered_eq (h : c'.delivered = c.delivered) : c'.pending = c.pending := by
  have heq := c'.delivered_pending.trans c.delivered_pending.symm
  rw [h] at heq
  exact List.append_cancel_left heq

theorem Past.bears (h : c.Past l t) : c.Bears l t :=
  ⟨h.behind, .inr ⟨h.holds, fun _ => h.tail⟩⟩

theorem Holds.bears (h : c.Holds t) (hl : c.Behind l) (hkind : t.kind ≠ .rBrace) : c.Bears l t :=
  ⟨hl, .inr ⟨h, fun heq => absurd heq hkind⟩⟩

theorem Bears.holds (h : c.Bears l t) (hkind : t.kind ≠ .endOfText) : c.Holds t := by
  rcases h.2 with hend | h
  · exact absurd hend.kind_eq hkind
  · exact h.1

theorem Bears.edge_offset (h : c.Bears l t) : IsEdge text t.offset := by
  rcases h.2 with hend | h
  · exact .inr (.inr ⟨⟨t, hend.ending_eq⟩, hend.offset_eq⟩)
  · exact (begins_offset h.1.mem).isEdge

theorem Bears.edge_stop (h : c.Bears l t) : IsEdge text t.stop := by
  rcases h.2 with hend | h
  · rw [Token.stop, hend.offset_eq, hend.text_eq]
    exact .inr (.inr ⟨⟨t, hend.ending_eq⟩, rfl⟩)
  · exact Reading.edge_stop h.1.mem

theorem SameBut.delivered_eq (h : c.SameBut c') : c'.delivered = c.delivered := by
  obtain ⟨_, rfl⟩ := h
  rfl

theorem SameBut.bears (h : c.SameBut c') (hbears : c.Bears l t) : c'.Bears l t := by
  obtain ⟨_, rfl⟩ := h
  exact ⟨hbears.1, hbears.2.imp (fun hend => ⟨hend.pending_eq, hend.ending_eq⟩)
    fun hholds => hholds⟩

theorem Delivers.past (h : c.Delivers t c') : c'.Past c.delivered t := by
  refine ⟨h.holds, ?_⟩
  rw [h.delivered_eq]
  exact List.suffix_rfl

/-- A token that was looked at is delivered in its turn. -/
theorem Sees.delivers (h : c.Sees 0 t c') (hkind : t.kind ≠ .endOfText) {c₁ c₂ : Reading text}
    (heq : c₁.delivered = c.delivered) (hu : c₁.Delivers u c₂) : u = t := by
  rcases h.seen with hseen | ⟨-, hend⟩
  · rw [← pending_eq_of_delivered_eq heq, hu.pending_eq] at hseen
    exact Option.some.inj hseen
  · exact absurd (by rw [ending_tokensOf hend]) hkind

theorem clear_zero (c : Reading text) : c.Clear 0 := by simp [Clear]

/-- One may look past a token that was looked at and is neither a brace nor a semicolon. -/
theorem Sees.clear {n : Nat} (h : c.Sees n t c') (hclear : c.Clear n)
    (hbrace : t.kind.isBrace = false) (hsemicolon : t.kind ≠ .semicolon) : c'.Clear (n + 1) := by
  rw [Clear, pending_eq_of_delivered_eq h.delivered_eq, List.take_add_one]
  intro u hu
  rcases List.mem_append.1 hu with hu | hu
  · exact hclear u hu
  · rcases h.seen with hseen | ⟨hnone, -⟩
    · rw [hseen] at hu
      rw [List.mem_singleton.1 hu]
      exact ⟨hbrace, hsemicolon⟩
    · rw [hnone] at hu
      cases hu

theorem Holds.of_delivered_eq (h : c.Holds t) (heq : c'.delivered = c.delivered)
    (hkind : t.kind.isBrace = false) : c'.Holds t :=
  ⟨by rw [heq, h.1], by simp [hkind]⟩

theorem Past.of_delivered_eq (h : c.Past l t) (heq : c'.delivered = c.delivered)
    (hkind : t.kind.isBrace = false) : c'.Past l t :=
  ⟨h.holds.of_delivered_eq heq hkind, by rw [heq]; exact h.tail⟩

theorem InItem.of_delivered_eq (h : c.InItem) (heq : c'.delivered = c.delivered) : c'.InItem := by
  rwa [InItem, heq]

theorem length_pending_le (c : Reading text) : c.pending.length ≤ c.tokensLeft := by
  have hlength := length_tokensOf_le text
  rw [← c.delivered_pending, List.length_append, List.length_reverse] at hlength
  rw [tokensLeft]
  omega

/-- Tokens that were delivered before another one end before it. -/
theorem stop_le_of_delivered (h : c.delivered = t :: l) (hu : u ∈ l) : u.stop ≤ t.offset := by
  have hpairs := pairwise_tokensOf text
  rw [← c.delivered_pending, h, List.pairwise_append, List.pairwise_reverse,
    List.pairwise_cons] at hpairs
  exact hpairs.1.1 u hu

theorem Past.stop_le (h : c.Past l t) (hu : u ∈ l) : u.stop ≤ t.offset :=
  stop_le_of_delivered h.holds.delivered_eq (h.tail.subset hu)

theorem Delivers.behind (h : c.Delivers t c') (hl : c.Behind l) : c'.Behind l :=
  h.past.behind.trans hl

theorem Past.offset_le (h : c.Past l t) (hu : u ∈ l) : u.offset ≤ t.offset :=
  Nat.le_trans (Nat.le_add_right _ _) (h.stop_le hu)

theorem Past.offset_le_stop (h : c.Past l t) (hu : u ∈ l) : u.offset ≤ t.stop :=
  Nat.le_trans (h.offset_le hu) (Nat.le_add_right _ _)

/-- Tokens that are delivered later come no earlier than the next one. -/
theorem Past.next_offset_le (h : c'.Past c.delivered u) {ts : List Token}
    (hpending : c.pending = t :: ts) : t.offset ≤ u.offset := by
  obtain ⟨k, hk⟩ := h.tail
  have hdelivered : c'.delivered = u :: (k ++ c.delivered) := by
    rw [hk]
    exact h.holds.delivered_eq
  have heq := c'.delivered_pending.trans c.delivered_pending.symm
  rw [hdelivered, hpending] at heq
  simp only [List.reverse_cons, List.reverse_append, List.append_assoc] at heq
  have heq := List.append_cancel_left heq
  cases hrev : k.reverse with
  | nil =>
    rw [hrev] at heq
    cases heq
    exact Nat.le_refl _
  | cons v vs =>
    rw [hrev] at heq
    cases heq
    have hmem : t ∈ k := by
      rw [← List.mem_reverse, hrev]
      exact List.mem_cons_self
    exact Nat.le_trans (Nat.le_add_right _ _)
      (stop_le_of_delivered hdelivered (List.mem_append_left _ hmem))

theorem Delivers.onward (h : c.Delivers t c') : c.Onward c' := h.past.onward

theorem tokensLeft_le (h : c'.Behind c.delivered) : c'.tokensLeft ≤ c.tokensLeft := by
  have := h.length_le
  simp only [tokensLeft]
  omega

theorem Comes.bears (h : c.Comes t c') (hl : c.Behind l) : c'.Bears l t := by
  rcases h with h | ⟨rfl, h⟩
  · exact (h.past.trans hl).bears
  · exact ⟨hl, .inl h⟩

theorem Comes.behind (h : c.Comes t c') : c'.Behind c.delivered := (h.bears (.refl c)).1

theorem Comes.delivers (h : c.Comes t c') (hkind : t.kind ≠ .endOfText) : c.Delivers t c' :=
  h.resolve_right fun hend => hkind hend.2.kind_eq

theorem Comes.stop_le (h : c.Comes t c') (hu : u ∈ c.delivered) : u.stop ≤ t.offset := by
  rcases h with h | ⟨rfl, h⟩
  · exact h.past.stop_le hu
  · rw [h.offset_eq]
    exact (c'.standsIn hu).stop_le

theorem Comes.offset_le (h : c.Comes t c') (hu : u ∈ c.delivered) : u.offset ≤ t.offset :=
  Nat.le_trans (Nat.le_add_right _ _) (h.stop_le hu)

/-- A token that comes counts as one that is left until it is used. -/
theorem Comes.leftWith_eq (h : c.Comes t c') : leftWith t c'.tokensLeft = c.tokensLeft := by
  rcases h with h | ⟨rfl, h⟩
  · have hlength := congrArg List.length h.delivered_eq
    have := c'.length_delivered_le
    simp only [leftWith, Token.count, if_neg h.holds.kind_ne, tokensLeft, List.length_cons]
      at hlength ⊢
    omega
  · simp [leftWith, Token.count, h.kind_eq]

theorem Comes.leftWith_lt {c₀ : Reading text} (h : c.Comes t c') (hbehind : c.Behind c₀.delivered)
    (hu : u.kind ≠ .endOfText) : leftWith t c'.tokensLeft < leftWith u c₀.tokensLeft := by
  have := tokensLeft_le hbehind
  rw [h.leftWith_eq, leftWith, Token.count, if_neg hu]
  omega

theorem Reached.trans {offset : Nat} (h : c.Reached offset) (hbehind : c'.Behind c.delivered) :
    c'.Reached offset := by
  obtain ⟨hbegins, t, ht, hle⟩ := h
  exact ⟨hbegins, t, hbehind.subset ht, hle⟩

theorem Reached.lt_of_comes {offset : Nat} (h : c.Reached offset) (ht : c.Comes t c') :
    offset < t.offset := by
  obtain ⟨-, u, hu, hle⟩ := h
  have hstop := (c.standsIn hu).offset_lt_stop
  have hnext := ht.stop_le hu
  omega

theorem Reached.lt_stop {offset : Nat} (h : c.Reached offset) (ht : c'.Past c.delivered t) :
    offset < t.stop := by
  obtain ⟨-, u, hu, hle⟩ := h
  exact Nat.lt_of_le_of_lt (Nat.le_trans hle (ht.offset_le hu)) ht.holds.standsIn.offset_lt_stop

theorem reached_offset (h : t ∈ c.delivered) : c.Reached t.offset :=
  ⟨begins_offset h, t, h, Nat.le_refl _⟩

/-- Of the tokens that were looked at, the first is a brace only if it is alone. -/
private theorem ahead_le_one {ts : List Token} (h : c.pending = t :: ts)
    (hbrace : t.kind.isBrace = true) : c.ahead ≤ 1 := by
  refine Nat.le_of_not_lt fun hahead => ?_
  obtain ⟨n, hn⟩ : ∃ n, c.ahead = n + 1 + 1 := ⟨c.ahead - 2, by omega⟩
  have hle := c.ahead_le
  rw [h, hn, List.length_cons] at hle
  have hclear := c.ahead_clear t (by
    rw [h, hn, List.take_succ_cons, List.dropLast_cons_of_ne_nil]
    · exact List.mem_cons_self
    · cases ts <;> simp_all)
  rw [hbrace] at hclear
  cases hclear

theorem delivers_advance {ts : List Token} (h : c.pending = t :: ts) :
    c.Delivers t (c.advance t ts h) := by
  refine ⟨h, rfl, rfl, fun hbrace => ⟨?_, ?_⟩⟩
  · have := ahead_le_one h hbrace
    simp only [advance]
    omega
  · have hnested := c.nested_pending
    rw [h] at hnested
    have hdepth : t.depth = t.kind.ownDepth c.depth := hnested.2.1
    by_cases hkind : t.kind = .rBrace
    · intro s hs
      have hlt := (c.advance t ts h).scopes_lt s hs
      rw [depth, advance, depthBehind_snoc, hkind] at hlt
      rw [hdepth, hkind]
      exact hlt
    · intro s hs
      have hlt := c.scopes_lt s (by simpa [advance, scopesBehind, hkind] using hs)
      have hown : t.depth = c.depth := by simp [hdepth, TokenKind.ownDepth, hkind]
      omega

theorem read_of_pending {ts : List Token} (h : c.pending = t :: ts) :
    c.read = .ok (t, c.advance t ts h) := by
  rw [read]
  split
  · rename_i heq
    cases h.symm.trans heq
    rfl
  · rename_i heq
    cases h.symm.trans heq

theorem read_of_pending_nil (h : c.pending = []) :
    c.read = match (tokensOf text).2 with
      | .ok t => .ok (t, c)
      | .error e => .error (.ofScan e) := by
  rw [read]
  split
  · rename_i heq
    cases h.symm.trans heq
  · rfl

/-- Reading delivers a token, or marks the end, or fails. -/
theorem read_cases (c : Reading text) :
    (∃ t c', c.read = .ok (t, c') ∧ c.Delivers t c') ∨
      (∃ t, c.read = .ok (t, c) ∧ c.Ended t) ∨ ∃ e, c.read = .error (.ofScan e) := by
  cases hpending : c.pending with
  | cons t ts => exact .inl ⟨t, _, read_of_pending hpending, delivers_advance hpending⟩
  | nil =>
    have hread := read_of_pending_nil hpending
    cases hend : (tokensOf text).2 with
    | ok t =>
      rw [hend] at hread
      exact .inr (.inl ⟨t, hread, hpending, hend⟩)
    | error e =>
      rw [hend] at hread
      exact .inr (.inr ⟨e, hread⟩)

end Reading

open Parsing.Parser Reading

theorem Failure.expected_ofScan (e : ScanError) : (Failure.ofScan e).Expected := by
  rw [Failure.ofScan]
  split
  · exact .inl rfl
  · trivial

theorem meets_next : next.Meets (fun t c' => c.Delivers t c') c := by
  rw [next, Parser.request, Meets, obeys_ask]
  refine ⟨trivial, ?_⟩
  rcases c.read_cases with ⟨t, c', hread, h⟩ | ⟨t, hread, h⟩ | ⟨e, hread⟩
  · simp only [machine, hread, if_neg h.holds.kind_ne]
    exact h
  · simp only [machine, hread, if_pos h.kind_eq]
    trivial
  · simp only [machine, hread]
    exact Failure.expected_ofScan e

theorem obeys_nextOrEnd {allowed : Request → Reading text → Prop} (h : allowed .nextOrEnd c) :
    nextOrEnd.Obeys allowed (fun t c' => c.Delivers t c' ∨ c' = c ∧ c.Ended t) c := by
  rw [nextOrEnd, Parser.request, obeys_ask]
  refine ⟨h, ?_⟩
  rcases c.read_cases with ⟨t, c', hread, h⟩ | ⟨t, hread, h⟩ | ⟨e, hread⟩
  · simp only [machine, hread]
    exact .inl h
  · simp only [machine, hread]
    exact .inr ⟨rfl, h⟩
  · simp only [machine, hread]
    exact Failure.expected_ofScan e

theorem meets_nextOrEnd (h : c.InItem) : nextOrEnd.Meets (fun t c' => c.Comes t c') c :=
  obeys_nextOrEnd (.inl h)

theorem meets_nextOrEnd_operator (h : c.BehindOperator) :
    nextOrEnd.Meets (fun t c' => c.Comes t c') c :=
  obeys_nextOrEnd (.inr h)

theorem meets_lookAt {n : Nat} (hitem : c.InItem) (hclear : c.Clear n) :
    (lookAt n).Meets (fun t c' => c.Sees n t c') c := by
  have hbraces : ∀ t ∈ c.pending.take n, t.kind.isBrace = false := fun t ht => (hclear t ht).1
  rw [lookAt, Parser.request, Meets, obeys_ask]
  refine ⟨⟨hitem, fun t ht => (hclear t ht).2⟩, ?_⟩
  simp only [machine, dif_pos hbraces]
  cases hseen : c.pending[n]? with
  | some t => exact ⟨rfl, .inl hseen⟩
  | none =>
    cases hend : (tokensOf text).2 with
    | ok t =>
      exact ⟨rfl, .inr ⟨hseen, hend⟩⟩
    | error e => exact Failure.expected_ofScan e

theorem meets_lookAt_zero (hitem : c.InItem) :
    (lookAt 0).Meets (fun t c' => c.Sees 0 t c') c :=
  meets_lookAt hitem c.clear_zero

theorem meets_putBack (h : c.Holds t) :
    (putBack t).Meets (fun _ c' => c'.delivered = c.delivered.tail ∧ c'.pending = t :: c.pending)
      c := by
  rw [putBack, Parser.request, Meets, obeys_ask]
  refine ⟨trivial, ?_⟩
  simp only [machine, dif_pos h]
  exact ⟨rfl, rfl⟩

/-- A closing brace or the mark of the end can be left to the caller. -/
theorem meets_putBack_bears (h : c.Bears l t) (hkind : t.kind = .rBrace ∨ t.kind = .endOfText) :
    (putBack t).Meets (fun _ c' => c'.Behind l) c := by
  by_cases hholds : c.Holds t
  · refine (meets_putBack hholds).mono fun _ c' hc' => ?_
    rcases h.2 with hend | ⟨-, htail⟩
    · exact absurd hend.kind_eq hholds.kind_ne
    · rw [Behind, hc'.1]
      exact htail (hkind.resolve_right hholds.kind_ne)
  · have hend : c.Ended t := h.2.resolve_right fun h => hholds h.1
    rw [putBack, Parser.request, Meets, obeys_ask]
    refine ⟨trivial, ?_⟩
    have hmark : c.pending = [] ∧ (tokensOf text).2.toOption = some t :=
      ⟨hend.pending_eq, by rw [hend.ending_eq]; rfl⟩
    simp only [machine, dif_neg hholds, if_pos hmark]
    exact h.1

theorem meets_fail {Q : α → Reading text → Prop} {fault : ParseFault} (h : IsTokenOf text t) :
    (fail t fault : Parser α).Meets Q c := by
  rw [fail, Meets, obeys_ask]
  exact ⟨h, trivial⟩

theorem meets_fail_bind {Q : β → Reading text → Prop} {fault : ParseFault} {f : α → Parser β}
    (h : IsTokenOf text t) : (fail t fault >>= f).Meets Q c :=
  (meets_fail (Q := fun _ _ => False) h).bind fun _ _ h => h.elim

theorem meets_abort {Q : α → Reading text → Prop} :
    (abort .parameterName : Parser α).Meets Q c := by
  rw [abort, Meets, obeys_ask]
  exact ⟨trivial, .inr rfl⟩

theorem meets_nextIf {skips : Bool} (h : c.Past l t) :
    (nextIf skips t).Meets (fun u c' => c'.Past l u ∧
      if skips then c.Delivers u c' else c' = c ∧ u = t) c := by
  rw [nextIf]
  split
  · exact meets_next.mono fun u c' hu => ⟨hu.past.trans h.behind, hu⟩
  · exact ⟨h, rfl, rfl⟩

theorem meets_expect {kind : TokenKind} {what : Expectation} :
    (expect kind what).Meets (fun t c' => c.Delivers t c' ∧ t.kind = kind) c := by
  rw [expect]
  refine meets_next.bind fun t c' h => ?_
  split
  · rename_i hkind
    exact ⟨h, hkind⟩
  · exact meets_fail h.holds.isTokenOf

theorem meets_roleOfFile : roleOfFile.Meets (fun _ c' => c' = c) c := by
  rw [roleOfFile, Parser.request, Meets, obeys_ask]
  exact ⟨trivial, rfl⟩

theorem meets_cut {what : Cut} {start stop : Nat} (hcut : (Request.cut what start stop).Careful c)
    (hle : start ≤ stop) (hstart : IsBoundary text start) (hstop : IsBoundary text stop) :
    (cut what start stop).Meets (fun piece c' => c' = c ∧ slice? text start stop = some piece)
      c := by
  rw [cut, Parser.request, Meets, obeys_ask]
  refine ⟨hcut, ?_⟩
  obtain ⟨piece, hpiece⟩ := Option.ne_none_iff_exists'.1 (slice?_ne_none_iff.2 ⟨hle, hstart, hstop⟩)
  simp only [machine, hpiece]
  exact ⟨rfl, rfl⟩

/-- A span is collapsed, and there is something to show if it is longer than nothing. -/
theorem meets_span {start stop : Nat} (hle : start ≤ stop) (hstart : BeginsToken text start)
    (hstop : IsEdge text stop) : (span start stop).Meets (fun shown c' => c' = c ∧
      collapse shown = shown ∧ (start < stop → shown ≠ "")) c := by
  have hcut : (Request.cut .span start stop).Careful c := ⟨hstart, hstop⟩
  rw [span]
  refine (meets_cut hcut hle hstart.isBoundary hstop.isBoundary).bind fun piece c' h => ?_
  refine ⟨h.1, collapse_collapse piece, fun hlt => ?_⟩
  obtain ⟨first, rest, hpiece, hword⟩ := hstart.exists_word hlt h.2
  exact collapse_ne_empty hpiece hword

theorem meets_note {finding : Finding} (h : (Request.note finding).Careful c) :
    (note finding).Meets (fun _ c' => c.SameBut c') c := by
  rw [note, Parser.request, Meets, obeys_ask]
  exact ⟨h, _, rfl⟩

theorem meets_remark {r : Remark} (h : (Finding.remark r).Clean) :
    (remark r).Meets (fun _ c' => c.SameBut c') c :=
  meets_note h

theorem meets_remarkUnparsed {start stop : Nat} (hle : start ≤ stop)
    (hstart : BeginsToken text start) (hstop : IsEdge text stop) :
    (remarkUnparsed start stop).Meets (fun _ c' => c.SameBut c') c := by
  rw [remarkUnparsed]
  refine (meets_span hle hstart hstop).bind fun shown c' h => ?_
  obtain ⟨rfl, hshown, -⟩ := h
  exact meets_remark hshown

theorem meets_noteType {type : ReflectedType} :
    (noteType type).Meets (fun _ c' => c.SameBut c') c :=
  meets_note trivial

theorem meets_noteExtern {declaration : String} (hclean : (Finding.announced declaration).Clean) :
    (noteExtern declaration).Meets (fun _ c' => c.SameBut c') c := by
  rw [noteExtern]
  refine meets_roleOfFile.bind fun role c' h => ?_
  subst h
  split
  · exact meets_note hclean
  · exact ⟨_, rfl⟩

/-- What it means to enter a body whose qualified name is declared. -/
structure Reading.Announces (c : Reading text) (tag : TypeTag) (qualified : String)
    (c' : Reading text) : Prop where
  delivered_eq : c'.delivered = c.delivered
  findings_eq : c'.findings = c.findings.add (.declaration ⟨tag, qualified⟩)
  enclosingName_eq : c'.enclosingName = qualified

/-- Entering a body: its scope is the innermost, and the declaration has its name. -/
theorem meets_enter_declaration {tag : TypeTag} {segment : String} {rest : String → Parser α}
    {Q : α → Reading text → Prop} (h : c.Holds t) (hkind : t.kind = .lBrace)
    (hrest : ∀ qualified c', c.Announces tag qualified c' → (rest qualified).Meets Q c') :
    (do
      enter segment t
      let qualified ← enclosingName
      noteDeclaration ⟨tag, qualified⟩
      rest qualified).Meets Q c := by
  have hahead : c.ahead = 0 := (h.2 (by rw [hkind]; rfl)).1
  have henter : c.Holds t ∧ t.kind = .lBrace := ⟨h, hkind⟩
  change Parser.Obeys _ _ (ask (.enter segment t) fun _ => ask .enclosingName fun qualified =>
    ask (.note (.declaration ⟨tag, qualified⟩)) fun _ => rest qualified) c
  rw [obeys_ask]
  refine ⟨trivial, ?_⟩
  simp only [machine, dif_pos henter]
  rw [obeys_ask]
  refine ⟨List.cons_ne_nil _ _, ?_⟩
  have hahead' : (c.entered segment t henter).ahead = 0 := hahead
  simp only [machine, if_pos hahead']
  rw [obeys_ask]
  refine ⟨⟨hahead, rfl, t, ⟨segment, t.depth⟩, h.1, hkind, rfl, rfl⟩, ?_⟩
  exact hrest _ _ ⟨rfl, rfl, rfl⟩

/-- Entering a body that declares nothing. -/
theorem meets_enter {segment : String} (h : c.Holds t) (hkind : t.kind = .lBrace) :
    (enter segment t).Meets (fun _ c' => c'.delivered = c.delivered) c := by
  have henter : c.Holds t ∧ t.kind = .lBrace := ⟨h, hkind⟩
  rw [enter, Parser.request, Meets, obeys_ask]
  refine ⟨trivial, ?_⟩
  simp only [machine, dif_pos henter]
  rfl

end ReflectionTables.Parsing
