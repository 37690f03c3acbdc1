import ReflectionTables.Proofs.CursorAnswers
import ReflectionTables.Proofs.LastingFailures
import ReflectionTables.Proofs.LineColumns
import ReflectionTables.Proofs.StreamReadings
/-!
# Where errors are located

A scanner fails at one byte of its text only, or at the end. A parser stops at
a token that it was shown, or where the scanner fails for it, if only because it looked ahead. All of
these places are offsets of the text, so an error tells its place by line and column and no other place
has the same.
-/

namespace ReflectionTables.Scanning

open Text TokenCursor

variable {text : String} {s : Scanner text} {e : ScanError} {t : Token}

def Scanner.behindTokens (text : String) : Scanner text :=
  ((Scanner.new text).readMany (tokensOf text).1.length).2

/-- Whether scanning fails at an offset: behind the tokens only what carries none is skipped, and then
a fault is found in what stands there. -/
def ScanningFailsAt (text : String) (offset : Nat) : Prop :=
  ∃ e s', (Scanner.behindTokens text).read = (.error e, s') ∧
    (Scanner.behindTokens text).FailsAt e s' ∧ s'.position = offset

/-- Behind the tokens a scanner meets the end or a failure. -/
theorem Scanner.read_behind_tokens (s : Scanner text) :
    (s.readMany s.tokens.1.length).2.read.1 = s.tokens.2 := by
  induction s using Scanner.tokens_induction with
  | stop s ending h =>
    rw [h]
    exact (Scanner.read_of_tokens_nil h).1
  | step s t s' hread _ h ih =>
    rw [h, List.length_cons, Scanner.readMany_succ hread]
    exact ih

/-- The failure that ends the tokens of a text tells the byte where scanning fails. -/
theorem scanningFailsAt_of_ending (h : (tokensOf text).2 = .error e) :
    ∃ offset, ScanningFailsAt text offset ∧ e.location = .ofOffset text offset := by
  have hread : (Scanner.behindTokens text).read.1 = .error e :=
    ((Scanner.new text).read_behind_tokens).trans h
  have hboundary : (Scanner.behindTokens text).AtBoundary :=
    ((Scanner.atBoundary_new text).readMany _).1
  have hfails := hboundary.failsAt (Prod.ext hread rfl)
  exact ⟨_, ⟨e, _, Prod.ext hread rfl, hfails, rfl⟩, hfails.location_eq⟩

/-- The places of errors in a text: where a token begins, the end if all tokens are scanned, and the
byte where scanning fails. -/
inductive ErrorPlace (text : String) : Nat → Prop
  | token {t : Token} (h : t ∈ (tokensOf text).1) : ErrorPlace text t.offset
  | endOfText {t : Token} (h : (tokensOf text).2 = .ok t) : ErrorPlace text text.utf8ByteSize
  | failure {offset : Nat} (h : ScanningFailsAt text offset) : ErrorPlace text offset

/-- Whether a location is that of such a place. -/
def LocatesError (text : String) (l : Location) : Prop :=
  ∃ offset, ErrorPlace text offset ∧ l = .ofOffset text offset

theorem locatesError_of_ending (h : (tokensOf text).2 = .error e) : LocatesError text e.location := by
  obtain ⟨offset, hfails, hlocation⟩ := scanningFailsAt_of_ending h
  exact ⟨offset, .failure hfails, hlocation⟩

/-- A call changes nothing in how the tokens to come end. -/
@[simp] theorem Scanner.ending_call (s : Scanner text) (call : ScannerCall) :
    (s.call call).tokens.2 = s.tokens.2 := by
  have hread : s.read.2.tokens.2 = s.tokens.2 := by
    have hcursor := congrArg (fun r => r.2.ending) s.read_cursor
    rw [TokenCursor.read] at hcursor
    split at hcursor
    · exact hcursor.symm
    · exact hcursor.symm
  cases call with
  | read => exact hread
  | readToken =>
    rw [Scanner.call, Scanner.readToken_snd]
    exact hread
  | enter segment depth => exact congrArg Prod.snd (s.tokens_withScopes _)

@[simp] theorem Scanner.ending_callAll (s : Scanner text) (calls : List ScannerCall) :
    (s.callAll calls).tokens.2 = s.tokens.2 := by
  induction calls generalizing s with
  | nil => rfl
  | cons call calls ih => exact (ih (s.call call)).trans (s.ending_call call)

/-- However a scanner was called before, its errors are located at the end of the text or at the byte
where scanning fails. -/
theorem locatesError_of_scanner {calls : List ScannerCall} (hs : s = (Scanner.new text).callAll calls)
    (h : s.read.1 = .error e ∨ s.readToken.1 = .error e) : LocatesError text e.location := by
  have hending : s.tokens.2 = (tokensOf text).2 := hs ▸ (Scanner.new text).ending_callAll calls
  rcases hread : s.read with ⟨answer, s'⟩
  rw [Scanner.readToken, hread] at h
  cases answer with
  | error e' =>
    obtain rfl : e' = e := by rcases h with h | h <;> cases h <;> rfl
    exact locatesError_of_ending (hending ▸ congrArg Prod.snd (Scanner.tokens_of_read_error hread))
  | ok t =>
    obtain h | h := h
    · cases h
    dsimp only at h
    split at h
    · rename_i hend
      cases h
      have ht : (tokensOf text).2 = .ok t :=
        hending ▸ congrArg Prod.snd (Scanner.tokens_of_read_end hread hend)
      refine ⟨_, .endOfText ht, ?_⟩
      rw [ending_tokensOf ht]
    · cases h

end ReflectionTables.Scanning

namespace ReflectionTables.Parsing

open Text Scanning Reflected Parsing.Parser Reading

variable {text : String} {c : Reading text} {t : Token}

/-- Whether an error is located at a place of errors; an abort and a stall are located nowhere. -/
def Failure.Located (text : String) : Failure → Prop
  | .rejected error => LocatesError text error.location
  | .aborted _ | .stalled => True

theorem located_rejection {fault : ParseFault} (h : IsTokenOf text t) :
    (rejection text t fault).Located text := by
  obtain h | h := h
  · exact ⟨_, .token h, rfl⟩
  · refine ⟨_, .endOfText h, ?_⟩
    rw [ending_tokensOf h]

theorem located_ofScan {e : ScanError} (h : (tokensOf text).2 = .error e) :
    (Failure.ofScan e).Located text := by
  rw [Failure.ofScan]
  split
  · trivial
  · exact locatesError_of_ending h

theorem located_read {failure : Failure} (h : c.read = .error failure) : failure.Located text := by
  rw [Reading.read] at h
  split at h
  · cases h
  · split at h
    · cases h
    · cases h
      exact located_ofScan ‹_›

theorem located_machine {request : Request} {failure : Failure} (hlegal : request.Legal c)
    (h : Reading.machine request c = .error failure) : failure.Located text := by
  cases request with
  | next =>
    simp only [Reading.machine] at h
    split at h
    · rename_i t c' hread
      split at h
      · rename_i hkind
        cases h
        obtain ⟨u, d, hread', hdelivers⟩ | ⟨u, hread', hended⟩ | ⟨e, hread'⟩ := c.read_cases
        · cases hread.symm.trans hread'
          exact located_rejection hdelivers.holds.isTokenOf
        · cases hread.symm.trans hread'
          exact located_rejection (.inr hended.ending_eq)
        · cases hread.symm.trans hread'
      · cases h
    · cases h
      exact located_read ‹_›
  | nextOrEnd => exact located_read h
  | lookAt n =>
    simp only [Reading.machine] at h
    split at h
    · split at h
      · cases h
      · cases h
      · cases h
        exact located_ofScan ‹_›
    · cases h
      trivial
  | reject token fault =>
    cases h
    exact located_rejection hlegal
  | role | tokensLeft | note => cases h
  | abort | stall =>
    cases h
    trivial
  | _ =>
    simp only [Reading.machine] at h
    repeat' split at h
    all_goals cases h
    all_goals trivial

theorem located_findingsOf {role : FileRole} {failure : Failure}
    (h : findingsOf role text = .error failure) : failure.Located text := by
  rw [findingsOf_eq] at h
  split at h
  · cases h
  · rename_i hrun
    cases h
    obtain ⟨request, c, hlegal, hanswer⟩ := obeys_fileItems.exists_of_run_error hrun
    exact located_machine hlegal hanswer

/-- Locations are faithful. Later offsets of a text have later locations; each offset is found again from
the sizes of the lines in front of it and its column, and lies in the line that its location names; the
offsets behind the text have the location of its end. Whatever a scanner was called for, and whichever
role a file is read in, an error is located where a token begins, at the end, or at the byte where
scanning fails. -/
theorem locations_are_faithful (text : String) :
    (∀ m n, m < n → n ≤ text.utf8ByteSize → (Location.ofOffset text m).Before (.ofOffset text n)) ∧
    (∀ n, n ≤ text.utf8ByteSize →
      (Location.ofOffset text n).LiesIn text ∧ (Location.ofOffset text n).offsetIn text = n) ∧
    (∀ n, text.utf8ByteSize ≤ n → Location.ofOffset text n = .ofOffset text text.utf8ByteSize) ∧
    (∀ (calls : List ScannerCall) (e : ScanError),
      ((Scanner.new text).callAll calls).read.1 = .error e ∨
        ((Scanner.new text).callAll calls).readToken.1 = .error e → LocatesError text e.location) ∧
    ∀ (role : FileRole) (error : ParseError),
      findingsOf role text = .error (.rejected error) → LocatesError text error.location :=
  ⟨fun _ _ => Location.ofOffset_before, fun _ => Location.offsetIn_ofOffset,
    fun _ => Location.ofOffset_of_size_le, fun _ _ => locatesError_of_scanner rfl,
    fun _ _ => located_findingsOf⟩

/-- A literal that is never closed is met by looking ahead behind `inline`. Its location names the byte
at offset 22, which has a character of two bytes and two line breaks in front of it. -/
theorem locations_are_faithful_ahead :
    let text := "int a;\ninline // é\n  \"open"
    findingsOf .header text = .error (.rejected ⟨.scan .unterminatedString, 3, 3⟩) ∧
      LocatesError text ⟨3, 3⟩ ∧ Location.ofOffset text 22 = ⟨3, 3⟩ ∧
      Location.offsetIn ⟨3, 3⟩ text = 22 ∧ (Location.ofOffset text 15).Before ⟨3, 3⟩ ∧
      ((Scanner.new text).callAll [.read, .read, .read, .readToken]).readToken.1 =
        .error ⟨.unterminatedString, 3, 3⟩ := by
  intro text
  have hfindings : findingsOf .header text = .error (.rejected ⟨.scan .unterminatedString, 3, 3⟩) := by
    decide +kernel
  have hoffset : Location.ofOffset text 22 = ⟨3, 3⟩ := by decide +kernel
  obtain ⟨hbefore, hrecovered, -, -, hparsed⟩ := locations_are_faithful text
  refine ⟨hfindings, hparsed _ _ hfindings, hoffset, ?_, ?_, by decide +kernel⟩
  · rw [← hoffset]
    exact (hrecovered 22 (by decide)).2
  · rw [← hoffset]
    exact hbefore 15 22 (by decide) (by decide)

end ReflectionTables.Parsing
