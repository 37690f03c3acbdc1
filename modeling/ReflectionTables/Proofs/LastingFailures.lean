import ReflectionTables.Proofs.BracePairs
import ReflectionTables.Proofs.CharacterScans
import ReflectionTables.Proofs.StreamReadings
/-!
# A scanner that fails stays where it is

A scanner that fails has done nothing but skip. It stands at the character that it fails at, as deep
as before and in the same scopes, and there it stays: whatever is called afterwards, it gives the
same failure. The end of the text is such a place too.
-/

namespace ReflectionTables.Scanning

open Text ByteSearch

variable {text : String} {s s' : Scanner text} {t : Token} {e : ScanError}
  {answer : Except ScanError Token}

/-- A call on a scanner. Scopes may be entered anywhere and with any depth. -/
inductive ScannerCall
  | read
  | readToken
  | enter (segment : String) (depth : Nat)

def Scanner.call (s : Scanner text) : ScannerCall → Scanner text
  | .read => s.read.2
  | .readToken => s.readToken.2
  | .enter segment depth => s.enter segment depth

def Scanner.callAll (s : Scanner text) (calls : List ScannerCall) : Scanner text :=
  calls.foldl Scanner.call s

def ScannerCall.scope? : ScannerCall → Option Scope
  | .enter segment depth => some ⟨segment, depth⟩
  | _ => none

def enteredBy (calls : List ScannerCall) : List Scope := (calls.filterMap ScannerCall.scope?).reverse

@[simp] theorem enteredBy_cons (call : ScannerCall) (calls : List ScannerCall) :
    enteredBy (call :: calls) = enteredBy calls ++ call.scope?.toList := by
  rw [enteredBy, enteredBy, List.filterMap_cons]
  cases call.scope? with
  | none => exact (List.append_nil _).symm
  | some scope => exact List.reverse_cons

@[simp] theorem Scanner.readToken_snd (s : Scanner text) : s.readToken.2 = s.read.2 := by
  rw [Scanner.readToken]
  split
  · split <;> simp [*]
  · rfl

theorem Scanner.AtBoundary.callAll (h : s.AtBoundary) (calls : List ScannerCall) :
    (s.callAll calls).AtBoundary := by
  induction calls generalizing s with
  | nil => exact h
  | cons call calls ih =>
    refine ih ?_
    cases call with
    | read => exact h.read.1
    | readToken =>
      rw [Scanner.call, Scanner.readToken_snd]
      exact h.read.1
    | enter segment depth => exact h

/-- Whether a fault is about what stands at an offset, with a number of braces open. -/
def ScanFault.StandsAt (text : String) (offset depth : Nat) : ScanFault → Prop
  | .unexpectedCharacter shown => charAt? text offset = some shown
  | .unterminatedString => charAt? text offset = some '"'
  | .unterminatedCharacter => charAt? text offset = some '\''
  | .unterminatedComment => charAt? text offset = some '/' ∧ charAt? text (offset + 1) = some '*'
  | .unbalancedBrace => charAt? text offset = some '\x7d' ∧ depth = 0
  | .endOfText | .splitCharacter => False

theorem Trivia.of_unclosed {bytes : List UInt8} (h : Trivia.ofBytes bytes = .unclosed) :
    bytes[0]? = some slash ∧ bytes[1]? = some star := by
  cases bytes with
  | nil => cases h
  | cons b after =>
    simp only [Trivia.ofBytes] at h
    split at h
    · cases h
    split at h
    · cases h
    split at h
    · rename_i hmark
      obtain ⟨hb, hafter⟩ := Bool.and_eq_true_iff.1 hmark
      rw [eq_of_beq hb, List.getElem?_cons_succ, ← List.head?_eq_getElem? (l := after), eq_of_beq hafter]
      exact ⟨rfl, rfl⟩
    split at h <;> cases h

theorem Lexeme.of_failed {b : UInt8} {after : List UInt8} {fault : ScanFault}
    (h : Lexeme.ofBytes b after = .failed fault) :
    (fault = .unterminatedString ∧ b.toNat = 34) ∨ (fault = .unterminatedCharacter ∧ b.toNat = 39) := by
  simp only [Lexeme.ofBytes, Lexeme.quoted] at h
  repeat' split at h
  all_goals first
    | exact absurd h Lexeme.operator_ne_failed
    | cases h
  · exact .inl ⟨rfl, toNat_of_charOfNat ‹_›⟩
  · exact .inr ⟨rfl, toNat_of_charOfNat ‹_›⟩

theorem Scanner.charAt?_of_rest {i : Nat} {b : UInt8} (h : s.rest[i]? = some b) (hb : b.toNat < 128) :
    charAt? text (s.position + i) = some (Char.ofNat b.toNat) := by
  rw [s.rest_eq, List.getElem?_drop] at h
  exact charAt?_of_ascii h hb

theorem Scanner.AtBoundary.standsAt (h : s.AtBoundary) (he : s.atHand = .error e) :
    e.fault.StandsAt text s.position s.depth := by
  have hsplit := h.atHand_ne he
  rw [Scanner.atHand] at he
  split at he
  · rename_i hunclosed
    cases he
    obtain ⟨hslash, hstar⟩ := Trivia.of_unclosed hunclosed
    exact ⟨Scanner.charAt?_of_rest hslash (by decide), Scanner.charAt?_of_rest hstar (by decide)⟩
  split at he
  · cases he
  rename_i b after hrest
  have hchar (n : Nat) (hb : b.toNat = n) (hn : n < 128) : charAt? text s.position = some (Char.ofNat n) := by
    rw [← hb]
    exact Scanner.charAt?_of_rest (i := 0) (by rw [hrest]; rfl) (hb ▸ hn)
  split at he
  · split at he
    · rename_i shown hshown
      cases he
      exact hshown
    · cases he
      exact absurd rfl hsplit
  · rename_i fault hfailed
    cases he
    rcases Lexeme.of_failed hfailed with ⟨rfl, hb⟩ | ⟨rfl, hb⟩
    · exact hchar 34 hb (by decide)
    · exact hchar 39 hb (by decide)
  · rename_i kind n hlexeme
    split at he
    · rename_i hzero
      cases he
      obtain ⟨rfl, hdepth⟩ := hzero
      exact ⟨hchar 125 (Lexeme.rBrace_of_ofBytes hlexeme).2 (by decide), hdepth⟩
    · rw [Scanner.take] at he
      split at he
      · cases he
      · cases he
        exact absurd rfl hsplit

/-- What a read that fails leaves and says: only blanks, comments and lines without tokens are
skipped, and the failure is about the character behind them. -/
structure Scanner.FailsAt (s : Scanner text) (e : ScanError) (s' : Scanner text) : Prop where
  depth_eq : s'.depth = s.depth
  scopes_eq : s'.scopes = s.scopes
  isGap : IsGap text s.position s'.position
  location_eq : e.location = .ofOffset text s'.position
  standsAt : e.fault.StandsAt text s'.position s.depth

theorem Scanner.AtBoundary.failsAt (h : s.AtBoundary) (hread : s.read = (.error e, s')) : s.FailsAt e s' := by
  obtain ⟨hdepth, hscopes⟩ := Scanner.unchanged_of_read_error hread
  obtain ⟨rfl, hlocation⟩ := Scanner.of_read_error hread
  refine ⟨hdepth, hscopes, s.isGap_pastTrivia, hlocation, ?_⟩
  have hhand : s.pastTrivia.atHand = .error e := by
    rw [Scanner.read] at hread
    split at hread
    · cases hread
    · cases hread
      assumption
  have hstands := h.pastTrivia.standsAt hhand
  rwa [s.depth_pastTrivia] at hstands

def Scanner.StaysWith (s : Scanner text) (answer : Except ScanError Token) : Prop := s.read = (answer, s)

theorem Scanner.staysWith_of_error (h : s.read = (.error e, s')) : s'.StaysWith (.error e) := by
  obtain ⟨rfl, -⟩ := Scanner.of_read_error h
  exact s.read_pastTrivia.trans h

theorem Scanner.staysWith_of_end (h : s.read = (.ok t, s')) (hend : t.kind = .endOfText) :
    s'.StaysWith (.ok t) := by
  rcases Scanner.read_cases h with ⟨-, rfl, -⟩ | ⟨_, _, _, -, hlexeme, -⟩
  · exact s.read_pastTrivia.trans h
  · exact absurd hend (Lexeme.ne_end_of_ofBytes hlexeme)

namespace Scanner.StaysWith

/-- A token takes the scanner further, so the answer is a failure or the end. -/
theorem kind_eq (h : s.StaysWith (.ok t)) : t.kind = .endOfText := by
  refine Decidable.byContradiction fun hend => ?_
  exact absurd (Scanner.length_read_lt h hend) (Nat.lt_irrefl _)

theorem withScopes (h : s.StaysWith answer) (scopes : List Scope) :
    (s.withScopes scopes).StaysWith answer := by
  obtain ⟨scopes', hread⟩ := s.read_withScopes scopes
  rw [h] at hread
  have hscopes : scopes' = scopes := by
    cases answer with
    | error e => exact (Scanner.unchanged_of_read_error hread).2
    | ok t =>
      have hbehind := (Scanner.of_read_ok hread).2.2.2
      rwa [scopesBehind, if_neg (by rw [h.kind_eq]; decide)] at hbehind
  rw [hscopes] at hread
  exact hread

/-- One call leaves the scanner where it is, with one scope more if it enters one. -/
theorem call_eq (h : s.StaysWith answer) (call : ScannerCall) :
    s.call call = s.withScopes (call.scope?.toList ++ s.scopes) := by
  cases call with
  | read => exact congrArg Prod.snd h
  | readToken => exact (s.readToken_snd).trans (congrArg Prod.snd h)
  | enter segment depth => rfl

/-- All calls together leave it where it is, with the scopes that they enter. -/
theorem callAll_eq (h : s.StaysWith answer) (calls : List ScannerCall) :
    s.callAll calls = s.withScopes (enteredBy calls ++ s.scopes) := by
  induction calls generalizing s with
  | nil => rfl
  | cons call calls ih =>
    have hstays : (s.call call).StaysWith answer := by
      rw [h.call_eq]
      exact h.withScopes _
    change (s.call call).callAll calls = _
    rw [ih hstays, h.call_eq, enteredBy_cons, List.append_assoc]
    rfl

theorem callAll (h : s.StaysWith answer) (calls : List ScannerCall) :
    (s.callAll calls).StaysWith answer := by
  rw [h.callAll_eq]
  exact h.withScopes _

theorem readToken_error (h : s.StaysWith (.error e)) : s.readToken = (.error e, s) := by
  rw [Scanner.readToken, h]

theorem readToken_end (h : s.StaysWith (.ok t)) :
    s.readToken = (.error ⟨.endOfText, .ofOffset text t.offset⟩, s) := by
  rw [Scanner.readToken, h]
  exact if_pos h.kind_eq

end Scanner.StaysWith

theorem Scanner.AtBoundary.of_read_end (h : s.AtBoundary) (hread : s.read = (.ok t, s'))
    (hend : t.kind = .endOfText) : s' = s.pastTrivia ∧ s'.position = text.utf8ByteSize ∧
      t = ⟨.endOfText, "", text.utf8ByteSize, s.depth⟩ := by
  rcases Scanner.read_cases hread with ⟨hrest, rfl, rfl⟩ | ⟨_, _, _, -, hlexeme, -⟩
  · have hle := h.pastTrivia.le_size
    rw [s.pastTrivia.rest_eq, List.drop_eq_nil_iff, length_bytesOf] at hrest
    have hposition : s.pastTrivia.position = text.utf8ByteSize := Nat.le_antisymm hle hrest
    rw [hposition, s.depth_pastTrivia]
    exact ⟨rfl, rfl, rfl⟩
  · exact absurd hend (Lexeme.ne_end_of_ofBytes hlexeme)

/-- However a scanner came to where it is, a read that fails leaves the depth and the scopes, skips
what carries no token and stands at the character that the failure is about. Every later call gives
the same failure and changes nothing but the scopes that are entered. If it is the end of the text that
fails, the same holds of it, and reads go on to deliver its mark. -/
theorem failures_last {history : List ScannerCall} (hs : s = (Scanner.new text).callAll history) :
    (∀ e s', s.read = (.error e, s') → s.FailsAt e s' ∧ s.readToken = (.error e, s') ∧
      ∀ calls, s'.callAll calls = s'.withScopes (enteredBy calls ++ s.scopes) ∧
        (s'.callAll calls).read = (.error e, s'.callAll calls) ∧
        (s'.callAll calls).readToken = (.error e, s'.callAll calls)) ∧
    ∀ e s', s.readToken = (.error e, s') → e.fault = .endOfText →
      s'.depth = s.depth ∧ s'.scopes = s.scopes ∧ IsGap text s.position s'.position ∧
      s'.position = text.utf8ByteSize ∧ e.location = .ofOffset text text.utf8ByteSize ∧
      ∀ calls, s'.callAll calls = s'.withScopes (enteredBy calls ++ s.scopes) ∧
        (s'.callAll calls).read =
          (.ok ⟨.endOfText, "", text.utf8ByteSize, s.depth⟩, s'.callAll calls) ∧
        (s'.callAll calls).readToken = (.error e, s'.callAll calls) := by
  have hboundary : s.AtBoundary := hs ▸ (Scanner.atBoundary_new text).callAll history
  refine ⟨fun e s' hread => ?_, fun e s' hread hend => ?_⟩
  · have hfails := hboundary.failsAt hread
    have hstays := Scanner.staysWith_of_error hread
    refine ⟨hfails, by rw [Scanner.readToken, hread], fun calls => ?_⟩
    have hlater := hstays.callAll calls
    exact ⟨by rw [hstays.callAll_eq, hfails.scopes_eq], hlater, hlater.readToken_error⟩
  · rcases hfirst : s.read with ⟨answer, u⟩
    rw [Scanner.readToken, hfirst] at hread
    cases answer with
    | error e' =>
      cases hread
      have hstands := (hboundary.failsAt hfirst).standsAt
      rw [hend] at hstands
      exact hstands.elim
    | ok t =>
      by_cases hkind : t.kind = .endOfText
      · obtain ⟨hpast, hposition, ht⟩ := hboundary.of_read_end hfirst hkind
        have hstays := Scanner.staysWith_of_end hfirst hkind
        have hscopes : u.scopes = s.scopes := hpast ▸ s.scopes_pastTrivia
        simp only [if_pos hkind] at hread
        cases hread
        refine ⟨hpast ▸ s.depth_pastTrivia, hscopes, hpast ▸ s.isGap_pastTrivia, hposition,
          by rw [ht], fun calls => ?_⟩
        have hlater := hstays.callAll calls
        exact ⟨by rw [hstays.callAll_eq, hscopes], ht ▸ hlater, hlater.readToken_end⟩
      · simp only [if_neg hkind] at hread
        cases hread

def openLiteral : Scanner "n \x7b // c\n \"open" := (Scanner.new _).callAll [.read, .read, .enter "n" 0]

/-- It stays there, whatever scopes are entered. -/
theorem failures_last_openLiteral :
    openLiteral.read.1 = .error ⟨.unterminatedString, ⟨2, 2⟩⟩ ∧
      openLiteral.read.2.scopes = [⟨"n", 0⟩] ∧
      (openLiteral.read.2.callAll [.enter "m" 7, .readToken]).read.1 =
        .error ⟨.unterminatedString, ⟨2, 2⟩⟩ := by
  have hread : openLiteral.read.1 = .error ⟨.unterminatedString, ⟨2, 2⟩⟩ := by decide +kernel
  have hreached : openLiteral = (Scanner.new _).callAll [.read, .read, .enter "n" 0] := rfl
  obtain ⟨hfails, -, hlater⟩ := (failures_last hreached).1 _ _ (Prod.ext hread rfl)
  exact ⟨hread, hfails.scopes_eq.trans (by decide +kernel), congrArg Prod.fst (hlater _).2.1⟩

end ReflectionTables.Scanning
