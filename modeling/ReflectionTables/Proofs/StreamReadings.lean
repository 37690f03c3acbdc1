import ReflectionTables.Proofs.CarefulItems
/-!
# A stream of tokens answers as a reading

The machine with a scanner and a queue answers as the one on readings does. The queue holds the
pending tokens that were looked at, and the scanner stands behind them, so its depth and its scopes
are those behind the queue.
-/

namespace ReflectionTables.Scanning

open Text

variable {text : String}

def Scanner.withScopes (s : Scanner text) (scopes : List Scope) : Scanner text :=
  { s with scopes }

theorem Scanner.pastTrivia_withScopes (s : Scanner text) (scopes : List Scope) :
    (s.withScopes scopes).pastTrivia = s.pastTrivia.withScopes scopes := by
  fun_induction Scanner.pastTrivia s with
  | case1 s n hn ih =>
    rw [Scanner.pastTrivia_of_bytes (s := s.withScopes scopes) hn]
    exact ih
  | case2 s hn => exact Scanner.pastTrivia_of_absent hn
  | case3 s hn => exact Scanner.pastTrivia_of_unclosed hn

@[simp] theorem Scanner.pastTrivia_pastTrivia (s : Scanner text) : s.pastTrivia.pastTrivia = s.pastTrivia := by
  fun_induction Scanner.pastTrivia s with
  | case1 s n hn ih => exact ih
  | case2 s hn => exact Scanner.pastTrivia_of_absent hn
  | case3 s hn => exact Scanner.pastTrivia_of_unclosed hn

@[simp] theorem Scanner.read_pastTrivia (s : Scanner text) : s.pastTrivia.read = s.read := by
  rw [Scanner.read, Scanner.read, Scanner.pastTrivia_pastTrivia]

theorem Scanner.behind_withScopes (s : Scanner text) (scopes : List Scope) (kind : TokenKind)
    (n : Nat) :
    ∃ scopes', (s.withScopes scopes).behind kind n = (s.behind kind n).withScopes scopes' := by
  cases kind <;> exact ⟨_, rfl⟩

theorem Scanner.read_withScopes (s : Scanner text) (scopes : List Scope) :
    ∃ scopes', (s.withScopes scopes).read = (s.read.1, s.read.2.withScopes scopes') := by
  rw [Scanner.read, Scanner.read, Scanner.pastTrivia_withScopes]
  generalize s.pastTrivia = p
  have hhand : (p.withScopes scopes).atHand = p.atHand := rfl
  simp only [hhand]
  cases p.atHand with
  | ok hand =>
    obtain ⟨scopes', h⟩ := p.behind_withScopes scopes hand.1.kind hand.2
    exact ⟨scopes', congrArg _ h⟩
  | error e => exact ⟨scopes, rfl⟩

@[simp] theorem Scanner.tokens_withScopes (s : Scanner text) (scopes : List Scope) :
    (s.withScopes scopes).tokens = s.tokens := by
  induction s using Scanner.tokens_induction generalizing scopes with
  | stop s ending h =>
    obtain ⟨hread, hend⟩ := Scanner.read_of_tokens_nil h
    obtain ⟨scopes', h'⟩ := s.read_withScopes scopes
    rw [hread] at h'
    rw [h]
    cases ending with
    | ok t => exact Scanner.tokens_of_read_end h' (hend t rfl).1
    | error e => exact Scanner.tokens_of_read_error h'
  | step s t s' hread hend h ih =>
    obtain ⟨scopes', h'⟩ := s.read_withScopes scopes
    rw [hread] at h'
    rw [Scanner.tokens_of_read h' hend, ih, h]

/-- How a scanner and a queue stand to the tokens to come, of which some were looked at. Behind
them, the queue may hold marks of the end. -/
inductive Queued (ending : Except ScanError Token) :
    List Token → Nat → Nat → List Scope → Scanner text → List Token → Prop
  | scanned {s : Scanner text} {ts : List Token} (h : s.tokens = (ts, ending)) :
    Queued ending ts 0 s.depth s.scopes s []
  | queued {s : Scanner text} {t : Token} {ts queue : List Token} {ahead depth : Nat}
      {scopes : List Scope}
      (h : Queued ending ts ahead (t.kind.depthAfter depth) (scopesBehind t scopes) s queue) :
    Queued ending (t :: ts) (ahead + 1) depth scopes s (t :: queue)
  | ended {s : Scanner text} {t : Token} {queue : List Token} {depth : Nat} {scopes : List Scope}
      (hend : ending = .ok t) (h : Queued ending [] 0 depth scopes s queue) :
    Queued ending [] 0 depth scopes s (t :: queue)

namespace Queued

variable {ending : Except ScanError Token} {t : Token} {ts queue : List Token} {ahead depth : Nat}
  {scopes : List Scope} {s : Scanner text}

/-- The scanner stands behind the tokens that were looked at. -/
theorem scanner_behind (h : Queued ending ts ahead depth scopes s queue) :
    s.depth = depthBehind depth (ts.take ahead) ∧
      s.scopes = (ts.take ahead).foldl (fun scopes t => scopesBehind t scopes) scopes ∧
      s.tokens.1 = ts.drop ahead := by
  induction h with
  | scanned h => exact ⟨rfl, rfl, by rw [h]; rfl⟩
  | queued _ ih => exact ih
  | ended _ _ ih => exact ih

theorem ending_scanner (h : Queued ending ts ahead depth scopes s queue) : s.tokens.2 = ending := by
  induction h with
  | scanned h => rw [h]
  | queued _ ih => exact ih
  | ended _ _ ih => exact ih

/-- Where nothing was looked at, the scanner has the depth and the scopes at hand. -/
theorem scanner_eq (h : Queued ending ts 0 depth scopes s queue) :
    s.depth = depth ∧ s.scopes = scopes :=
  ⟨h.scanner_behind.1, h.scanner_behind.2.1⟩

/-- Entering a scope where nothing was looked at. -/
theorem withScopes (h : Queued ending ts 0 depth scopes s queue) (scopes' : List Scope) :
    Queued ending ts 0 depth scopes' (s.withScopes scopes') queue := by
  generalize hahead : 0 = n at h
  induction h with
  | @scanned s ts h =>
    exact .scanned (s := s.withScopes scopes') (by rw [Scanner.tokens_withScopes, h])
  | queued => omega
  | ended hend _ ih => exact .ended hend (ih hahead)

theorem scan (h : Queued ending (t :: ts) 0 depth scopes s queue) :
    queue = [] ∧ ∃ s', s.read = (.ok t, s') ∧ t.kind ≠ .endOfText ∧
      Queued ending ts 0 (t.kind.depthAfter depth) (scopesBehind t scopes) s' [] := by
  cases h with
  | scanned h =>
    obtain ⟨s', hread, hend, htokens⟩ := Scanner.read_of_tokens h
    have hreads := Scanner.reads_of_read hread hend
    refine ⟨rfl, s', hread, hend, ?_⟩
    rw [← hreads.depth_behind, ← hreads.scopes_behind]
    exact .scanned htokens

/-- Reading where nothing is left gives what stands at the end. -/
theorem scan_nil (h : Queued ending [] 0 depth scopes s []) :
    ∃ s', s.read = (ending, s') ∧
      ∀ t, ending = .ok t → Queued ending [] 0 depth scopes s' [] := by
  cases h with
  | scanned h =>
    obtain ⟨hread, hend⟩ := Scanner.read_of_tokens_nil h
    refine ⟨s.read.2, Prod.ext hread rfl, fun t ht => ?_⟩
    have hread' : s.pastTrivia.read = (.ok t, s.pastTrivia) := by
      rw [s.read_pastTrivia]
      exact Prod.ext (hread.trans ht) (hend t ht).2
    rw [(hend t ht).2, ← s.depth_pastTrivia, ← s.scopes_pastTrivia]
    refine .scanned ?_
    rw [Scanner.tokens_of_read_end hread' (hend t ht).1, ht]

theorem fill_of_some {n : Nat} (h : Queued ending ts ahead depth scopes s queue)
    (ht : ts[n]? = some t) :
    ∃ s' queue', s.fill n queue = (.ok t, s', queue') ∧
      Queued ending ts (max ahead (n + 1)) depth scopes s' queue' := by
  induction n generalizing ts ahead depth scopes queue s with
  | zero =>
    cases h with
    | @queued _ u ts queue ahead _ _ h =>
      cases ht
      have hmax : max (ahead + 1) (0 + 1) = ahead + 1 := by omega
      rw [hmax]
      exact ⟨s, t :: queue, rfl, .queued h⟩
    | ended hend h => cases ht
    | @scanned _ ts h =>
      obtain ⟨us, rfl⟩ : ∃ us, ts = t :: us := by
        cases ts with
        | nil => cases ht
        | cons u us =>
          cases ht
          exact ⟨us, rfl⟩
      obtain ⟨-, s', hread, -, h'⟩ := scan (.scanned h)
      refine ⟨s', [t], ?_, ?_⟩
      · simp only [Scanner.fill, hread]
      · exact .queued h'
  | succ n ih =>
    cases h with
    | @queued _ u ts queue ahead _ _ h =>
      obtain ⟨s', queue', hfill, h'⟩ := ih h ht
      have hmax : max (ahead + 1) (n + 1 + 1) = max ahead (n + 1) + 1 := by omega
      rw [hmax]
      exact ⟨s', u :: queue', by simp only [Scanner.fill, hfill], .queued h'⟩
    | ended hend h => cases ht
    | @scanned _ ts h =>
      cases ts with
      | nil => cases ht
      | cons u us =>
        obtain ⟨-, s', hread, -, h'⟩ := scan (.scanned h)
        obtain ⟨s'', queue', hfill, h''⟩ := ih h' ht
        have hmax : max 0 (n + 1 + 1) = max 0 (n + 1) + 1 := by omega
        rw [hmax]
        exact ⟨s'', u :: queue', by simp only [Scanner.fill, hread, hfill], .queued h''⟩

/-- Looking past the last token gives what stands at the end. -/
theorem fill_of_none {n : Nat} (h : Queued ending ts ahead depth scopes s queue)
    (ht : ts[n]? = none) :
    ∃ s' queue', s.fill n queue = (ending, s', queue') ∧
      ∀ t, ending = .ok t → Queued ending ts ts.length depth scopes s' queue' := by
  induction n generalizing ts ahead depth scopes queue s with
  | zero =>
    cases h with
    | queued h => cases ht
    | @ended _ t queue _ _ hend h =>
      exact ⟨s, t :: queue, by rw [hend]; rfl, fun _ _ => .ended hend h⟩
    | @scanned _ ts h =>
      cases ts with
      | cons u us => cases ht
      | nil =>
        obtain ⟨s₁, hread, h'⟩ := scan_nil (.scanned h)
        cases ending with
        | error e => exact ⟨s₁, [], by rw [Scanner.fill, hread], by simp⟩
        | ok t => exact ⟨s₁, [t], by rw [Scanner.fill, hread], fun _ _ => .ended rfl (h' t rfl)⟩
  | succ n ih =>
    cases h with
    | @queued _ u ts queue ahead _ _ h =>
      obtain ⟨s', queue', hfill, h'⟩ := ih h ht
      exact ⟨s', u :: queue', by simp only [Scanner.fill, hfill], fun t hend => .queued (h' t hend)⟩
    | @ended _ t queue _ _ hend h =>
      obtain ⟨s', queue', hfill, h'⟩ := ih h rfl
      exact ⟨s', t :: queue', by simp only [Scanner.fill, hfill],
        fun u hu => .ended hend (h' u hu)⟩
    | @scanned _ ts h =>
      cases ts with
      | nil =>
        obtain ⟨s₁, hread, h'⟩ := scan_nil (.scanned h)
        cases ending with
        | error e => exact ⟨s₁, [], by simp only [Scanner.fill, hread], by simp⟩
        | ok t =>
          obtain ⟨s', queue', hfill, h''⟩ := ih (h' t rfl) rfl
          exact ⟨s', t :: queue', by simp only [Scanner.fill, hread, hfill],
            fun u hu => .ended rfl (h'' u hu)⟩
      | cons u us =>
        obtain ⟨-, s', hread, -, h'⟩ := scan (.scanned h)
        obtain ⟨s'', queue', hfill, h''⟩ := ih h' ht
        exact ⟨s'', u :: queue', by simp only [Scanner.fill, hread, hfill],
          fun t hend => .queued (h'' t hend)⟩

/-- The next token comes from the queue, or else from the scanner. -/
theorem read_cons (h : Queued ending (t :: ts) ahead depth scopes s queue) :
    ∃ s' queue', Queued ending ts (ahead - 1) (t.kind.depthAfter depth) (scopesBehind t scopes) s'
        queue' ∧
      (queue = t :: queue' ∧ s' = s ∨ queue = [] ∧ queue' = [] ∧ s.read = (.ok t, s')) := by
  cases h with
  | @queued _ _ _ queue _ _ _ h => exact ⟨s, queue, h, .inl ⟨rfl, rfl⟩⟩
  | scanned h =>
    obtain ⟨-, s', hread, -, h'⟩ := scan (.scanned h)
    exact ⟨s', [], h', .inr ⟨rfl, rfl, hread⟩⟩

theorem read_nil (h : Queued ending [] ahead depth scopes s queue) :
    (∃ t queue', queue = t :: queue' ∧ ending = .ok t ∧
        Queued ending [] ahead depth scopes s queue') ∨
      queue = [] ∧ ∃ s', s.read = (ending, s') ∧
        ∀ t, ending = .ok t → Queued ending [] ahead depth scopes s' [] := by
  cases h with
  | @ended _ t queue _ _ hend h => exact .inl ⟨t, queue, rfl, hend, h⟩
  | scanned h => exact .inr ⟨rfl, scan_nil (.scanned h)⟩

end Queued

end ReflectionTables.Scanning

namespace ReflectionTables.Parsing

open Text Scanning Reflected Parsing.Parser Reading

variable {text : String} {α : Type} {c c' : Reading text} {s : ParserState text} {t : Token}

structure Reading.Matches (c : Reading text) (s : ParserState text) : Prop where
  role_eq : s.role = c.role
  findings_eq : s.findings = c.findings
  delivered_eq : s.stream.delivered = c.delivered.length
  queued : Queued (tokensOf text).2 c.pending c.ahead c.depth c.scopes s.stream.scanner
    s.stream.queue

theorem Reading.matches_new (role : FileRole) (text : String) :
    (Reading.new role text).Matches (.new role text) :=
  ⟨rfl, rfl, rfl, .scanned rfl⟩

/-- Whether an answer from a stream of tokens is the same as one from a reading. A reading that
stalls leaves the other answer open. -/
def SameAnswer {β : Type} (ideal : Except Failure (β × Reading text))
    (real : Except Failure (β × ParserState text)) : Prop :=
  match ideal with
  | .ok (answer, c') => ∃ s', real = .ok (answer, s') ∧ c'.Matches s'
  | .error failure => failure = .stalled ∨ real = .error failure

/-- Putting a token back does not reopen or close a scope. -/
theorem Reading.Holds.scopesBehind_eq (h : c.Holds t) : scopesBehind t c.scopes = c.scopes := by
  rw [scopesBehind]
  split
  · rename_i hkind
    have hbelow := (h.2 (by rw [hkind]; rfl)).2
    cases hscopes : c.scopes with
    | nil => rfl
    | cons scope scopes =>
      have hlt := hbelow scope (by simp [hscopes])
      rw [List.dropWhile_cons_of_neg (by simp; omega)]
  · rfl

namespace Reading.Matches

theorem read (h : c.Matches s) : SameAnswer c.read (s.take (·.read)) := by
  obtain ⟨role, ⟨scanner, queue, delivered⟩, findings⟩ := s
  obtain ⟨hrole, hfindings, hdelivered, hqueued⟩ := h
  simp only at hrole hfindings hdelivered hqueued
  cases hpending : c.pending with
  | cons t ts =>
    have hend := (delivers_advance hpending).holds.kind_ne
    rw [read_of_pending hpending]
    rw [hpending] at hqueued
    obtain ⟨scanner', queue', hqueued', hcases⟩ := hqueued.read_cons
    have hmatches : (c.advance t ts hpending).Matches
        ⟨role, ⟨scanner', queue', delivered + t.count⟩, findings⟩ := by
      refine ⟨hrole, hfindings, ?_, ?_⟩
      · simp only [hdelivered, Token.count, if_neg hend]
        rfl
      · have hdepth : (c.advance t ts hpending).depth = t.kind.depthAfter c.depth :=
          depthBehind_snoc c.delivered t
        rw [hdepth]
        exact hqueued'
    refine ⟨_, ?_, hmatches⟩
    rcases hcases with ⟨rfl, rfl⟩ | ⟨rfl, rfl, hread⟩
    · rfl
    · simp only [ParserState.take, TokenStream.read, hread]
  | nil =>
    rw [read_of_pending_nil hpending]
    rw [hpending] at hqueued
    rcases hqueued.read_nil with ⟨t, queue', rfl, hend, hqueued'⟩ | ⟨rfl, scanner', hread, hqueued'⟩
    · have ht : t.count = 0 := by
        rw [ending_tokensOf hend]
        rfl
      rw [hend]
      refine ⟨_, rfl, hrole, hfindings, ?_, ?_⟩
      · simp only [ht, hdelivered, Nat.add_zero]
      · rw [hpending]
        exact hqueued'
    · cases hend : (tokensOf text).2 with
      | error e =>
        rw [hend] at hread
        refine .inr ?_
        simp only [ParserState.take, TokenStream.read, hread]
      | ok t =>
        have ht : t.count = 0 := by
          rw [ending_tokensOf hend]
          rfl
        rw [hend] at hread
        refine ⟨⟨role, ⟨scanner', [], delivered + t.count⟩, findings⟩, ?_, hrole, hfindings, ?_, ?_⟩
        · simp only [ParserState.take, TokenStream.read, hread]
        · simp only [ht, hdelivered, Nat.add_zero]
        · rw [hpending]
          exact hqueued' t hend

theorem lookAt (h : c.Matches s) (n : Nat) :
    SameAnswer (Reading.machine (.lookAt n) c) (s.take (·.lookAt n)) := by
  obtain ⟨role, ⟨scanner, queue, delivered⟩, findings⟩ := s
  obtain ⟨hrole, hfindings, hdelivered, hqueued⟩ := h
  simp only at hrole hfindings hdelivered hqueued
  simp only [Reading.machine]
  split
  · rename_i hclear
    cases hseen : c.pending[n]? with
    | some t =>
      obtain ⟨scanner', queue', hfill, hqueued'⟩ := hqueued.fill_of_some hseen
      have hlt := (List.getElem?_eq_some_iff.1 hseen).1
      refine ⟨⟨role, ⟨scanner', queue', delivered⟩, findings⟩, ?_, hrole, hfindings, hdelivered, ?_⟩
      · simp only [ParserState.take, TokenStream.lookAt, hfill]
      · have hahead : (c.look n hclear).ahead = max c.ahead (n + 1) := by
          simp only [Reading.look]
          omega
        rw [hahead]
        exact hqueued'
    | none =>
      obtain ⟨scanner', queue', hfill, hqueued'⟩ := hqueued.fill_of_none hseen
      have hle := List.getElem?_eq_none_iff.1 hseen
      cases hend : (tokensOf text).2 with
      | error e =>
        rw [hend] at hfill
        refine .inr ?_
        simp only [ParserState.take, TokenStream.lookAt, hfill]
      | ok t =>
        rw [hend] at hfill
        refine ⟨⟨role, ⟨scanner', queue', delivered⟩, findings⟩, ?_, hrole, hfindings, hdelivered,
          ?_⟩
        · simp only [ParserState.take, TokenStream.lookAt, hfill]
        · have hahead : (c.look n hclear).ahead = c.pending.length := by
            have := c.ahead_le
            simp only [Reading.look]
            omega
          rw [hahead]
          exact hqueued' t hend
  · exact .inl rfl

theorem putBack (h : c.Matches s) (t : Token) :
    SameAnswer (Reading.machine (.putBack t) c) (ParserState.machine (.putBack t) s) := by
  obtain ⟨role, ⟨scanner, queue, delivered⟩, findings⟩ := s
  obtain ⟨hrole, hfindings, hdelivered, hqueued⟩ := h
  simp only at hrole hfindings hdelivered hqueued
  simp only [Reading.machine]
  split
  · rename_i hholds
    have hcount : t.count = 1 := by simp [Token.count, hholds.kind_ne]
    have hlist := hholds.delivered_eq
    refine ⟨_, rfl, hrole, hfindings, ?_, ?_⟩
    · simp only [Reading.retreat, TokenStream.putBack, hdelivered, hcount, List.length_tail]
    · refine .queued ?_
      have hdepth : t.kind.depthAfter (c.retreat t hholds).depth = c.depth := by
        rw [Reading.depth, Reading.depth, hlist, depthBehind_snoc]
        rfl
      have hscopes : scopesBehind t c.scopes = c.scopes := hholds.scopesBehind_eq
      change Queued _ c.pending c.ahead (t.kind.depthAfter (c.retreat t hholds).depth)
        (scopesBehind t c.scopes) scanner queue
      rw [hdepth, hscopes]
      exact hqueued
  split
  · rename_i hmark
    have hend : (tokensOf text).2 = .ok t := by
      have hsome := hmark.2
      cases hending : (tokensOf text).2 with
      | error e => simp [hending, Except.toOption] at hsome
      | ok u => simpa [hending, Except.toOption] using hsome
    have hcount : t.count = 0 := by
      rw [ending_tokensOf hend]
      rfl
    refine ⟨_, rfl, hrole, hfindings, ?_, ?_⟩
    · simp only [TokenStream.putBack, hcount, hdelivered, Nat.sub_zero]
    · have hahead : c.ahead = 0 := by
        have := c.ahead_le
        rw [hmark.1, List.length_nil] at this
        omega
      rw [hmark.1, hahead] at hqueued ⊢
      exact .ended hend hqueued
  · exact .inl rfl

theorem next (h : c.Matches s) :
    SameAnswer (Reading.machine .next c) (ParserState.machine .next s) := by
  have hread := h.read
  simp only [Reading.machine, ParserState.machine]
  cases hc : c.read with
  | ok answer =>
    rw [hc] at hread
    obtain ⟨s', hs, hmatches⟩ := hread
    simp only [hs]
    split
    · exact .inr rfl
    · exact ⟨s', rfl, hmatches⟩
  | error failure =>
    rw [hc] at hread
    rcases hread with hstalled | hs
    · exact .inl hstalled
    · simp only [hs]
      exact .inr rfl

theorem enter (h : c.Matches s) (segment : String) (opening : Token) :
    SameAnswer (Reading.machine (.enter segment opening) c)
      (ParserState.machine (.enter segment opening) s) := by
  simp only [Reading.machine]
  split
  · rename_i hopening
    have hahead : c.ahead = 0 := (hopening.1.2 (by rw [hopening.2]; rfl)).1
    have hqueued := h.queued
    rw [hahead] at hqueued
    refine ⟨_, rfl, h.role_eq, h.findings_eq, h.delivered_eq, ?_⟩
    have hentered := hqueued.withScopes (⟨segment, opening.depth⟩ :: c.scopes)
    rw [← hqueued.scanner_eq.2] at hentered
    simp only [Reading.entered, hahead, ← hqueued.scanner_eq.2]
    exact hentered
  · exact .inl rfl

theorem machine (h : c.Matches s) (request : Request) :
    SameAnswer (Reading.machine request c) (ParserState.machine request s) := by
  cases request with
  | next => exact h.next
  | nextOrEnd => exact h.read
  | lookAt n => exact h.lookAt n
  | putBack t => exact h.putBack t
  | enter segment opening => exact h.enter segment opening
  | role => exact ⟨s, by simp only [ParserState.machine, h.role_eq], h⟩
  | enclosingName =>
    simp only [Reading.machine, ParserState.machine]
    split
    · rename_i hahead
      have hqueued := h.queued
      rw [hahead] at hqueued
      refine ⟨s, ?_, h⟩
      rw [Scanner.enclosingName, hqueued.scanner_eq.2]
      rfl
    · exact .inl rfl
  | depth =>
    simp only [Reading.machine, ParserState.machine]
    split
    · rename_i hahead
      have hqueued := h.queued
      rw [hahead] at hqueued
      exact ⟨s, by rw [hqueued.scanner_eq.1], h⟩
    · exact .inl rfl
  | tokensLeft =>
    refine ⟨s, ?_, h⟩
    simp only [ParserState.machine, TokenStream.tokensLeft, h.delivered_eq]
    rfl
  | cut what start stop =>
    simp only [Reading.machine, ParserState.machine]
    cases slice? text start stop with
    | some piece => exact ⟨s, rfl, h⟩
    | none => exact .inr rfl
  | note finding =>
    refine ⟨_, rfl, h.role_eq, ?_, h.delivered_eq, h.queued⟩
    simp only [h.findings_eq]
  | reject t fault => exact .inr rfl
  | abort what => exact .inr rfl
  | stall => exact .inl rfl

end Reading.Matches

/-- A parser that keeps to its rules runs on a stream of tokens as it does on readings. -/
theorem Parser.Obeys.run_stream {allowed : Request → Reading text → Prop}
    {Q : α → Reading text → Prop} {p : Parser α} (h : p.Obeys allowed Q c) (hs : c.Matches s) :
    match p.run Reading.machine c with
    | .ok (a, c') => ∃ s', p.run ParserState.machine s = .ok (a, s') ∧ c'.Matches s'
    | .error failure => p.run ParserState.machine s = .error failure := by
  induction p generalizing c s with
  | done a => exact ⟨s, rfl, hs⟩
  | ask request next ih =>
    rw [obeys_ask] at h
    have h := h.2
    have hanswer := hs.machine request
    simp only [Parser.run]
    cases hc : Reading.machine request c with
    | ok answer =>
      rw [hc] at h hanswer
      obtain ⟨s', hreal, hmatches⟩ := hanswer
      simp only [hreal]
      exact ih answer.1 h hmatches
    | error failure =>
      rw [hc] at h hanswer
      rcases hanswer with rfl | hreal
      · exact h.elim
      · simp only [hreal]

theorem findingsOf_eq (role : FileRole) (text : String) :
    findingsOf role text =
      match fileItems.run Reading.machine (.new role text) with
      | .ok (_, c) => .ok c.findings
      | .error failure => .error failure := by
  have hstream := obeys_fileItems.run_stream (matches_new role text)
  rw [findingsOf]
  cases hrun : fileItems.run Reading.machine (.new role text) with
  | ok result =>
    rw [hrun] at hstream
    obtain ⟨s, hs, hmatches⟩ := hstream
    simp only [hs, hmatches.findings_eq]
  | error failure =>
    rw [hrun] at hstream
    rw [hstream]

end ReflectionTables.Parsing
