import ReflectionTables.Proofs.RescannedSpans
/-!
# The queue of a token stream does not show

Nothing shows of the queue of a token stream. A stream in any state answers as a cursor over the
tokens of its queue with those of its scanner behind them, and looking ahead leaves what the cursor
shows, whether it fails or passes the end. So a parser that puts back only what it holds, the latest
token first, gets the answers of a place in the tokens of the text.
-/

namespace ReflectionTables.Scanning

variable {text : String}

namespace TokenCursor

variable {c d : TokenCursor} {t : Token} {e : ScanError}

/-- Whether two cursors show the same from here on. A mark of the end may be a token of one and
the ending of the other. -/
def Alike (c d : TokenCursor) : Prop := ∀ n, c.lookAt n = d.lookAt n

theorem lookAt_zero (c : TokenCursor) : c.lookAt 0 = c.read.1 := by
  obtain ⟨_ | _, ending⟩ := c <;> rfl

theorem lookAt_behind (c : TokenCursor) (n : Nat) : c.read.2.lookAt n = c.lookAt (n + 1) := by
  obtain ⟨_ | _, ending⟩ := c <;> rfl

/-- A cursor cannot move past a failure. -/
theorem read_of_failed (h : c.read.1 = .error e) : c.read.2 = c ∧ ∀ n, c.lookAt n = .error e := by
  obtain ⟨_ | ⟨t, ts⟩, ending⟩ := c
  · exact ⟨rfl, fun _ => h⟩
  · cases h

theorem Alike.putBack (h : Alike c d) (t : Token) : Alike (c.putBack t) (d.putBack t)
  | 0 => rfl
  | n + 1 => h n

/-- Putting a token back undoes the read that delivered it. -/
theorem alike_putBack_read (h : c.read.1 = .ok t) : Alike (c.read.2.putBack t) c
  | 0 => by rw [lookAt_zero c, h]; rfl
  | n + 1 => c.lookAt_behind n

end TokenCursor

open TokenCursor

def Scanner.cursor (s : Scanner text) (queue : List Token) : TokenCursor where
  tokens := queue ++ s.tokens.1
  ending := s.tokens.2

@[simp] theorem Scanner.cursor_new (text : String) :
    (Scanner.new text).cursor [] = TokenCursor.ofText text := rfl

/-- A scanner reads as a cursor does. A failure and the end of the text are read again and again. -/
theorem Scanner.read_cursor (s : Scanner text) :
    (s.cursor []).read = (s.read.1, s.read.2.cursor []) := by
  have hagain : s.pastTrivia.cursor [] = s.cursor [] := by
    rw [Scanner.cursor, Scanner.cursor, s.tokens_pastTrivia]
  rcases htokens : s.tokens with ⟨_ | ⟨t, ts⟩, ending⟩
  · obtain ⟨hending, hend⟩ := s.read_of_tokens_nil htokens
    have hstop : s.read.2 = s.pastTrivia := by
      cases ending with
      | ok t => exact (hend t rfl).2
      | error e =>
        rw [Scanner.read] at hending ⊢
        cases hhand : s.pastTrivia.atHand with
        | ok hand => simp [hhand] at hending
        | error e' => rfl
    rw [hstop, hagain, hending, Scanner.cursor, htokens]
    rfl
  · obtain ⟨s', hread, -, hbehind⟩ := s.read_of_tokens htokens
    rw [hread, Scanner.cursor, Scanner.cursor, hbehind, htokens]
    rfl

section Fill

variable {s s' : Scanner text} {t : Token} {e : ScanError}

/-- A queue that takes over a token of the scanner shows what the scanner showed. -/
theorem Scanner.alike_of_read (h : s.read = (.ok t, s')) :
    Alike (s'.cursor [t]) (s.cursor []) := by
  have hread := s.read_cursor
  rw [h] at hread
  have halike := alike_putBack_read (congrArg Prod.fst hread)
  rwa [congrArg Prod.snd hread] at halike

/-- Nor does a scanner move past a failure. -/
theorem Scanner.cursor_of_failed (h : s.read = (.error e, s')) :
    s'.cursor [] = s.cursor [] ∧ ∀ n, (s.cursor []).lookAt n = .error e := by
  have hread := s.read_cursor
  rw [h] at hread
  obtain ⟨hstays, hfails⟩ := read_of_failed (congrArg Prod.fst hread)
  exact ⟨(congrArg Prod.snd hread).symm.trans hstays, hfails⟩

/-- The queue is filled with what the cursor shows, and what it shows stays the same, also where the
scanner fails on the way. -/
theorem Scanner.fill_cursor (s : Scanner text) (n : Nat) (queue : List Token) :
    (s.fill n queue).1 = (s.cursor queue).lookAt n ∧
      Alike ((s.fill n queue).2.1.cursor (s.fill n queue).2.2) (s.cursor queue) := by
  fun_induction Scanner.fill s n queue with
  | case1 s t queue => exact ⟨rfl, fun _ => rfl⟩
  | case2 s n t queue answer scanner queue' hfill ih =>
    rw [hfill] at ih
    exact ⟨ih.1, ih.2.putBack t⟩
  | case3 s t s' hread =>
    refine ⟨?_, Scanner.alike_of_read hread⟩
    rw [lookAt_zero, s.read_cursor, hread]
  | case4 s e s' hread =>
    obtain ⟨hstays, hfails⟩ := Scanner.cursor_of_failed hread
    exact ⟨(hfails 0).symm, fun m => congrArg (lookAt · m) hstays⟩
  | case5 s n t s' hread answer scanner queue' hfill ih =>
    rw [hfill] at ih
    refine ⟨?_, fun m => ?_⟩
    · rw [ih.1, ← lookAt_behind, s.read_cursor, hread]
    · exact (ih.2.putBack t m).trans (Scanner.alike_of_read hread m)
  | case6 s n e s' hread =>
    obtain ⟨hstays, hfails⟩ := Scanner.cursor_of_failed hread
    exact ⟨(hfails (n + 1)).symm, fun m => congrArg (lookAt · m) hstays⟩

end Fill

namespace TokenStream

def cursor (s : TokenStream text) : TokenCursor := s.scanner.cursor s.queue

@[simp] theorem cursor_new (text : String) : (TokenStream.new text).cursor = TokenCursor.ofText text := rfl

theorem read_cursor (s : TokenStream text) :
    s.cursor.read = (s.read.1, s.read.2.cursor) := by
  obtain ⟨scanner, _ | ⟨t, queue⟩, delivered⟩ := s
  · have hread := scanner.read_cursor
    rw [TokenStream.read]
    rcases hscan : scanner.read with ⟨_ | t, scanner'⟩ <;> rw [hscan] at hread <;> exact hread
  · rfl

theorem lookAt_cursor (s : TokenStream text) (n : Nat) :
    (s.lookAt n).1 = s.cursor.lookAt n ∧ Alike (s.lookAt n).2.cursor s.cursor :=
  s.scanner.fill_cursor n s.queue

@[simp] theorem putBack_cursor (s : TokenStream text) (t : Token) :
    (s.putBack t).cursor = s.cursor.putBack t := rfl

end TokenStream

/-- The token at an index of a text; behind the last one stands the mark of the end or a failure. -/
def tokenAt (text : String) (n : Nat) : Except ScanError Token :=
  match (tokensOf text).1[n]? with
  | some t => .ok t
  | none => (tokensOf text).2

theorem lookAt_ofText (text : String) (n : Nat) :
    (TokenCursor.ofText text).lookAt n = tokenAt text n := rfl

/-- What a scanner answers when it is read again after `n` reads. -/
def Scanner.nthRead : Nat → Scanner text → Except ScanError Token
  | 0, s => s.read.1
  | n + 1, s => s.read.2.nthRead n

theorem Scanner.nthRead_eq (n : Nat) (s : Scanner text) : s.nthRead n = (s.cursor []).lookAt n := by
  induction n generalizing s with
  | zero => rw [lookAt_zero, s.read_cursor, nthRead]
  | succ n ih => rw [nthRead, ih, ← lookAt_behind, s.read_cursor]

/-- Behind a token stands the next one, and behind the mark of the end the same mark. -/
theorem tokenAt_behind {t : Token} {n : Nat} (h : tokenAt text n = .ok t) (m : Nat) :
    tokenAt text (n + t.count + m) = tokenAt text (n + (m + 1)) := by
  by_cases hend : t.kind = .endOfText
  · have hnone : (tokensOf text).1[n]? = none := by
      rw [Option.eq_none_iff_forall_ne_some]
      intro u hu
      rw [tokenAt, hu] at h
      cases h
      exact (standsIn_of_mem_tokensOf (List.mem_of_getElem? hu)).kind_ne_end hend
    have hpast : ∀ k, tokenAt text (n + k) = (tokensOf text).2 := by
      intro k
      rw [List.getElem?_eq_none_iff] at hnone
      rw [tokenAt, List.getElem?_eq_none_iff.2 (by omega)]
    rw [Token.count, if_pos hend, Nat.add_zero, hpast, hpast]
  · rw [Token.count, if_neg hend, Nat.add_assoc, Nat.add_comm 1 m]

end ReflectionTables.Scanning

namespace ReflectionTables.Parsing

open Scanning Reflected TokenCursor

variable {text : String}

inductive TokenRequest
  /-- The next token; the end of the text is a failure. -/
  | next
  /-- The next token, or the mark of the end. -/
  | nextOrEnd
  /-- The token `n` places ahead. -/
  | lookAt (n : Nat)
  | putBack (token : Token)
deriving DecidableEq, Repr

abbrev TokenAnswer := Except Failure (Option Token)

def TokenAnswer.ofRead : Except ScanError Token → TokenAnswer
  | .ok token => .ok (some token)
  | .error e => .error (.ofScan e)

def TokenAnswer.beforeEnd (text : String) : Except ScanError Token → TokenAnswer
  | .ok token =>
    if token.kind = .endOfText then .error (rejection text token (.scan .endOfText))
    else .ok (some token)
  | .error e => .error (.ofScan e)

/-- What a parser answers, and the state that it is left in, also behind a failure. -/
def ParserState.answer (s : ParserState text) : TokenRequest → TokenAnswer × ParserState text
  | .next => (.beforeEnd text s.stream.read.1, { s with stream := s.stream.read.2 })
  | .nextOrEnd => (.ofRead s.stream.read.1, { s with stream := s.stream.read.2 })
  | .lookAt n => (.ofRead (s.stream.lookAt n).1, { s with stream := (s.stream.lookAt n).2 })
  | .putBack token => (.ok none, { s with stream := s.stream.putBack token })

/-- The answers to requests, one after the other; a failure does not end them. -/
def ParserState.answers : ParserState text → List TokenRequest → List TokenAnswer
  | _, [] => []
  | s, request :: requests =>
    (s.answer request).1 :: (s.answer request).2.answers requests

def TokenRequest.toRequest : TokenRequest → Request
  | .next => .next
  | .nextOrEnd => .nextOrEnd
  | .lookAt n => .lookAt n
  | .putBack token => .putBack token

def TokenRequest.shown : (request : TokenRequest) → request.toRequest.Answer → Option Token
  | .next, token | .nextOrEnd, token | .lookAt _, token => some token
  | .putBack _, () => none

theorem ParserState.machine_eq_answer (s : ParserState text) (request : TokenRequest) :
    (ParserState.machine request.toRequest s).map (fun (a, s') => (request.shown a, s')) =
      (s.answer request).1.map fun token => (token, (s.answer request).2) := by
  cases request with
  | next =>
    simp only [TokenRequest.toRequest, ParserState.machine, take, answer, TokenAnswer.beforeEnd]
    rcases s.stream.read with ⟨e | token, stream⟩
    · rfl
    · by_cases hend : token.kind = .endOfText
      · simp only [hend, if_true]
        rfl
      · simp only [hend, if_false]
        rfl
  | nextOrEnd =>
    simp only [TokenRequest.toRequest, ParserState.machine, take, answer, TokenAnswer.ofRead]
    rcases s.stream.read with ⟨e | token, stream⟩ <;> rfl
  | lookAt n =>
    simp only [TokenRequest.toRequest, ParserState.machine, take, answer, TokenAnswer.ofRead]
    rcases s.stream.lookAt n with ⟨e | token, stream⟩ <;> rfl
  | putBack token => rfl

structure TokenPlace where
  /-- The number of tokens in front of the place. -/
  passed : Nat
  /-- The tokens that were consumed and not put back, with marks of the end; the latest is first. -/
  held : List Token
deriving DecidableEq, Repr

namespace TokenPlace

def start : TokenPlace := ⟨0, []⟩

def consume (p : TokenPlace) : TokenAnswer → TokenPlace
  | .ok (some token) => ⟨p.passed + token.count, token :: p.held⟩
  | _ => p

/-- What is answered from a place, and the place behind it. No token moves, only the place does. -/
def answer (text : String) (p : TokenPlace) : TokenRequest → TokenAnswer × TokenPlace
  | .next =>
    let answer := .beforeEnd text (tokenAt text p.passed)
    (answer, p.consume answer)
  | .nextOrEnd =>
    let answer := .ofRead (tokenAt text p.passed)
    (answer, p.consume answer)
  | .lookAt n => (.ofRead (tokenAt text (p.passed + n)), p)
  | .putBack token => (.ok none, ⟨p.passed - token.count, p.held.tail⟩)

def answers (text : String) : TokenPlace → List TokenRequest → List TokenAnswer
  | _, [] => []
  | p, request :: requests =>
    (p.answer text request).1 :: ((p.answer text request).2).answers text requests

/-- Only the latest of the tokens that were consumed and not yet put back may be put back. -/
def Allows (p : TokenPlace) : TokenRequest → Prop
  | .putBack token => p.held.head? = some token
  | _ => True

instance (p : TokenPlace) (request : TokenRequest) : Decidable (p.Allows request) :=
  match request with
  | .putBack token => inferInstanceAs (Decidable (p.held.head? = some token))
  | .next | .nextOrEnd | .lookAt _ => inferInstanceAs (Decidable True)

def AllowsAll (text : String) : TokenPlace → List TokenRequest → Prop
  | _, [] => True
  | p, request :: requests => p.Allows request ∧ AllowsAll text (p.answer text request).2 requests

instance decidableAllowsAll (text : String) :
    (p : TokenPlace) → (requests : List TokenRequest) → Decidable (p.AllowsAll text requests)
  | _, [] => inferInstanceAs (Decidable True)
  | p, request :: requests =>
    let _ := decidableAllowsAll text (p.answer text request).2 requests
    inferInstanceAs (Decidable (p.Allows request ∧ AllowsAll text _ requests))

/-- Whether tokens stand one before the other in front of an index of the text, the latest first. -/
def InFront (text : String) : Nat → List Token → Prop
  | _, [] => True
  | n, t :: ts => t.count ≤ n ∧ tokenAt text (n - t.count) = .ok t ∧ InFront text (n - t.count) ts

structure Matches (p : TokenPlace) (s : ParserState text) : Prop where
  shows : ∀ n, s.stream.cursor.lookAt n = tokenAt text (p.passed + n)
  inFront : InFront text p.passed p.held

theorem matches_start (role : FileRole) (text : String) :
    start.Matches (ParserState.new role text) where
  shows n := by rw [ParserState.new, TokenStream.cursor_new, lookAt_ofText, start, Nat.zero_add]
  inFront := trivial

namespace Matches

variable {p : TokenPlace} {s : ParserState text} {t : Token} {e : ScanError}

theorem read_eq (h : p.Matches s) : s.stream.read.1 = tokenAt text p.passed := by
  have hread := h.shows 0
  rwa [lookAt_zero, s.stream.read_cursor] at hread

/-- A read that delivers a token moves the stream past it. -/
theorem shows_behind (h : p.Matches s) (ht : tokenAt text p.passed = .ok t) (n : Nat) :
    s.stream.read.2.cursor.lookAt n = tokenAt text (p.passed + t.count + n) := by
  have hbehind := s.stream.cursor.lookAt_behind n
  rw [s.stream.read_cursor] at hbehind
  rw [hbehind, h.shows, tokenAt_behind ht]

theorem consumed (h : p.Matches s) (ht : tokenAt text p.passed = .ok t) :
    (p.consume (.ok (some t))).Matches { s with stream := s.stream.read.2 } where
  shows := h.shows_behind ht
  inFront := by
    have hback : p.passed + t.count - t.count = p.passed := Nat.add_sub_cancel _ _
    exact ⟨Nat.le_add_left _ _, by rwa [consume, hback], by rw [consume, hback]; exact h.inFront⟩

theorem ended (h : p.Matches s) (ht : tokenAt text p.passed = .ok t) (hend : t.kind = .endOfText) :
    p.Matches { s with stream := s.stream.read.2 } where
  shows n := by rw [h.shows_behind ht, Token.count, if_pos hend, Nat.add_zero]
  inFront := h.inFront

theorem failed (h : p.Matches s) (he : tokenAt text p.passed = .error e) :
    p.Matches { s with stream := s.stream.read.2 } where
  shows n := by
    have hread := s.stream.read_cursor
    have hstays := (read_of_failed (e := e) (by rw [hread, h.read_eq, he])).1
    rw [hread] at hstays
    rw [← h.shows, ← hstays]
  inFront := h.inFront

theorem looked (h : p.Matches s) (n : Nat) :
    p.Matches { s with stream := (s.stream.lookAt n).2 } where
  shows m := ((s.stream.lookAt_cursor n).2 m).trans (h.shows m)
  inFront := h.inFront

theorem returned (h : p.Matches s) (ht : p.held.head? = some t) :
    Matches ⟨p.passed - t.count, p.held.tail⟩ { s with stream := s.stream.putBack t } := by
  obtain ⟨passed, held⟩ := p
  obtain ⟨held, rfl⟩ : ∃ held', held = t :: held' := by
    cases held with
    | nil => cases ht
    | cons u us => exact ⟨us, by cases ht; rfl⟩
  obtain ⟨hle, hat, hheld⟩ := h.inFront
  refine ⟨fun n => ?_, hheld⟩
  rw [TokenStream.putBack_cursor]
  cases n with
  | zero => exact hat.symm
  | succ n =>
    have hbehind := tokenAt_behind hat n
    rw [Nat.sub_add_cancel hle] at hbehind
    exact (h.shows n).trans hbehind

/-- One request is answered from the stream as from the place, and they stay together. -/
theorem answer (h : p.Matches s) (request : TokenRequest)
    (hallows : p.Allows request) :
    (s.answer request).1 = (p.answer text request).1 ∧
      (p.answer text request).2.Matches (s.answer request).2 := by
  cases request with
  | next =>
    simp only [ParserState.answer, TokenPlace.answer, h.read_eq]
    refine ⟨trivial, ?_⟩
    cases ht : tokenAt text p.passed with
    | error e => exact h.failed ht
    | ok t =>
      simp only [TokenAnswer.beforeEnd]
      split
      · rename_i hend
        exact h.ended ht hend
      · exact h.consumed ht
  | nextOrEnd =>
    simp only [ParserState.answer, TokenPlace.answer, h.read_eq]
    refine ⟨trivial, ?_⟩
    cases ht : tokenAt text p.passed with
    | error e => exact h.failed ht
    | ok t => exact h.consumed ht
  | lookAt n =>
    refine ⟨?_, h.looked n⟩
    simp only [ParserState.answer, TokenPlace.answer, (s.stream.lookAt_cursor n).1, h.shows]
  | putBack t => exact ⟨rfl, h.returned hallows⟩

theorem answers (h : p.Matches s) {requests : List TokenRequest}
    (hallows : p.AllowsAll text requests) :
    s.answers requests = p.answers text requests := by
  induction requests generalizing p s with
  | nil => rfl
  | cons request requests ih =>
    obtain ⟨hanswer, hmatches⟩ := h.answer request hallows.1
    rw [ParserState.answers, TokenPlace.answers, hanswer, ih hmatches hallows.2]

end Matches

/-- Where only consumed tokens are put back, the latest first, the answers are those of a place in the
tokens that a new scanner delivers, at last the mark of the end or the failure again and again. They
are the answers of the machine. -/
theorem answers_eq_place (role : FileRole) (text : String) (requests : List TokenRequest)
    (h : start.AllowsAll text requests) :
    (ParserState.new role text).answers requests = start.answers text requests ∧
      (∀ n, tokenAt text n = (Scanner.new text).nthRead n) ∧
      ∀ (s : ParserState text) (request : TokenRequest),
        (ParserState.machine request.toRequest s).map (fun (a, s') => (request.shown a, s')) =
          (s.answer request).1.map fun token => (token, (s.answer request).2) := by
  refine ⟨(matches_start role text).answers h, fun n => ?_, ParserState.machine_eq_answer⟩
  rw [Scanner.nthRead_eq, Scanner.cursor_new, lookAt_ofText]

theorem answers_eq_place_unclosed :
    let a : Token := ⟨.ident, "a", 0, 0⟩
    let requests := [.lookAt 1, .next, .putBack a, .nextOrEnd, .next]
    let failed : TokenAnswer := .error (.ofScan ⟨.unterminatedString, .ofOffset "a \"b" 2⟩)
    start.AllowsAll "a \"b" requests ∧
      (ParserState.new .header "a \"b").answers requests =
        [failed, .ok (some a), .ok none, .ok (some a), failed] := by
  intro a requests failed
  have hallows : start.AllowsAll "a \"b" requests := by decide +kernel
  exact ⟨hallows, (answers_eq_place .header _ requests hallows).1.trans (by decide +kernel)⟩

end TokenPlace

end ReflectionTables.Parsing
