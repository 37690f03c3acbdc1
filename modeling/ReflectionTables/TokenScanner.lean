import ReflectionTables.ByteSearches
import ReflectionTables.TextSlices
import ReflectionTables.Tokens
/-!
# The scanner

The scanner reads one token at a time. It skips blanks, comments and preprocessor lines, counts
braces, and keeps the scopes that were entered at open braces. A scope ends when the brace that
closes it is read. A read that fails leaves the scanner at the offending byte.
-/

namespace ReflectionTables.Scanning

open Text ByteSearch

inductive ScanFault
  | unexpectedCharacter (shown : Char)
  | unterminatedString
  | unterminatedCharacter
  | unterminatedComment
  | unbalancedBrace
  | endOfText
  /-- A token would begin or end inside a character. -/
  | splitCharacter
deriving DecidableEq, Repr

def ScanFault.message : ScanFault → String
  | .unexpectedCharacter shown => s!"Unexpected character: '{shown}'"
  | .unterminatedString => "Unterminated string literal"
  | .unterminatedCharacter => "Unterminated character literal"
  | .unterminatedComment => "Unterminated block comment"
  | .unbalancedBrace => "Unbalanced '\x7d'"
  | .endOfText => "Unexpected end of file"
  | .splitCharacter => "Split character"

structure ScanError where
  fault : ScanFault
  location : Location
deriving DecidableEq, Repr

def ScanError.message (e : ScanError) : String :=
  s!"Lexer error at line {e.location.line}, column {e.location.column}: {e.fault.message}"

/-- A named body: the segment of a qualified name and the depth of its opening brace. The depth of a scope
and that of a scanner count as a counter of 32 bits does while fewer than `2 ^ 32` braces are open. -/
structure Scope where
  segment : String
  depth : Nat
deriving DecidableEq, Repr

structure Scanner (text : String) where
  /-- The offset of the next byte. -/
  position : Nat
  /-- The bytes from the position on. -/
  rest : List UInt8
  depth : Nat
  /-- The innermost scope comes first. -/
  scopes : List Scope
  rest_eq : rest = (bytesOf text).drop position

variable {text : String}

def Scanner.new (text : String) : Scanner text where
  position := 0
  rest := bytesOf text
  depth := 0
  scopes := []
  rest_eq := rfl

def Scanner.skip (s : Scanner text) (n : Nat) : Scanner text :=
  { s with
    position := s.position + n
    rest := s.rest.drop n
    rest_eq := by rw [s.rest_eq, List.drop_drop] }

/-- Enters a scope whose body began with a brace of the given depth. -/
def Scanner.enter (s : Scanner text) (segment : String) (depth : Nat) : Scanner text :=
  { s with scopes := ⟨segment, depth⟩ :: s.scopes }

def Scanner.enclosingName (s : Scanner text) : String :=
  "::".intercalate (s.scopes.reverse.map (·.segment))

/-- The blanks of the scanner are those of ASCII. -/
def isBlankByte (b : UInt8) : Bool := (9 ≤ b && b ≤ 13) || b == 32

inductive Trivia
  /-- A token or the end comes next. -/
  | absent
  /-- This many bytes, at least one, carry no token. -/
  | bytes (n : Nat)
  /-- A comment begins and is never closed. -/
  | unclosed
deriving DecidableEq, Repr

/-- One blank, comment or preprocessor line at the head of the bytes. -/
def Trivia.ofBytes (bytes : List UInt8) : Trivia :=
  match bytes with
  | [] => .absent
  | b :: after =>
    if isBlankByte b then .bytes 1
    else if b == slash && after.head? == some slash then .bytes (lineEnd bytes 2)
    else if b == slash && after.head? == some star then
      match commentEnd bytes 2 with
      | some stop => .bytes stop
      | none => .unclosed
    else if b == 35 then .bytes (lineEnd bytes 1)
    else .absent

theorem Trivia.pos_of_ofBytes {bytes : List UInt8} {n : Nat}
    (h : Trivia.ofBytes bytes = .bytes n) : 0 < n ∧ bytes ≠ [] := by
  cases bytes with
  | nil => simp [Trivia.ofBytes] at h
  | cons b after =>
    refine ⟨?_, by simp⟩
    simp only [Trivia.ofBytes] at h
    split at h
    · cases h
      omega
    split at h
    · rename_i hslash
      have : 2 ≤ (b :: after).length := by
        cases after <;> simp at hslash ⊢
      have := le_lineEnd this
      cases h
      omega
    split at h
    · split at h
      · rename_i stop hstop
        have := commentEnd_lt hstop
        cases h
        omega
      · cases h
    split at h
    · have : 1 ≤ lineEnd (b :: after) 1 := le_lineEnd (by simp)
      cases h
      omega
    · cases h

theorem Trivia.le_length_of_ofBytes {bytes : List UInt8} {n : Nat}
    (h : Trivia.ofBytes bytes = .bytes n) : n ≤ bytes.length := by
  cases bytes with
  | nil => simp [Trivia.ofBytes] at h
  | cons b after =>
    simp only [Trivia.ofBytes] at h
    split at h
    · cases h
      simp
    split at h
    · cases h
      exact lineEnd_le_length _ _
    split at h
    · split at h
      · rename_i stop hstop
        cases h
        exact commentEnd_le_length hstop
      · cases h
    split at h
    · cases h
      exact lineEnd_le_length _ _
    · cases h

theorem Scanner.length_skip_lt {s : Scanner text} {n : Nat} (hn : 0 < n) (hs : s.rest ≠ []) :
    (s.skip n).rest.length < s.rest.length := by
  have := List.length_pos_iff.2 hs
  simp only [Scanner.skip, List.length_drop]
  omega

/-- Moves to the next token, or to a comment that is never closed. -/
def Scanner.pastTrivia (s : Scanner text) : Scanner text :=
  match _hnext : Trivia.ofBytes s.rest with
  | .bytes n => (s.skip n).pastTrivia
  | .absent => s
  | .unclosed => s
termination_by s.rest.length
decreasing_by
  obtain ⟨hn, hs⟩ := Trivia.pos_of_ofBytes _hnext
  exact Scanner.length_skip_lt hn hs

inductive Lexeme
  /-- A token of this kind and length in bytes. -/
  | token (kind : TokenKind) (length : Nat)
  | failed (fault : ScanFault)
  /-- No token begins with this character. -/
  | unknown
deriving DecidableEq, Repr

def Lexeme.quoted (bytes : List UInt8) (quote : UInt8) (kind : TokenKind) (fault : ScanFault) :
    Lexeme :=
  match findUnescaped bytes 1 quote with
  | some i => .token kind (i + 1)
  | none => .failed fault

/-- The longest operator that begins with `c`; a doubled one is preferred. -/
def Lexeme.operator (c : Char) (after : Option Char) : Lexeme :=
  let single : Lexeme :=
    match TokenKind.single? c with
    | some kind => .token kind 1
    | none => .unknown
  let withEquals : Lexeme :=
    if after = some '=' then
      match TokenKind.withEquals? c with
      | some kind => .token kind 2
      | none => single
    else single
  if after = some c then
    match TokenKind.doubled? c with
    | some kind => .token kind 2
    | none => withEquals
  else withEquals

/-- The token at the head of bytes that begin with `b`. -/
def Lexeme.ofBytes (b : UInt8) (after : List UInt8) : Lexeme :=
  let c := Char.ofNat b.toNat
  let next := after.head?.map fun n => Char.ofNat n.toNat
  if c = '{' then .token .lBrace 1
  else if c = '}' then .token .rBrace 1
  else if c = '(' then if next = some ')' then .token .emptyParens 2 else .token .lParen 1
  else if c = '[' then if next = some ']' then .token .emptyBrackets 2 else .token .lBracket 1
  else if c = '"' then
    if next = some '"' then .token .emptyStr 2
    else .quoted (b :: after) b .str .unterminatedString
  else if c = '\'' then .quoted (b :: after) b .char .unterminatedCharacter
  else if c.isDigit then
    .token .number (1 + (after.takeWhile fun d =>
      (Char.ofNat d.toNat).isDigit || Char.ofNat d.toNat == '.').length)
  else if isNameStart b then .token .ident (nameEnd (b :: after) 1)
  else .operator c next

private theorem Lexeme.pos_of_quoted {bytes : List UInt8} {quote : UInt8} {kind k : TokenKind}
    {fault : ScanFault} {n : Nat} (h : Lexeme.quoted bytes quote kind fault = .token k n) :
    0 < n := by
  simp only [Lexeme.quoted] at h
  split at h
  · cases h
    omega
  · cases h

private theorem Lexeme.pos_of_operator {c : Char} {after : Option Char} {kind : TokenKind}
    {n : Nat} (h : Lexeme.operator c after = .token kind n) : 0 < n := by
  simp only [Lexeme.operator] at h
  repeat' split at h
  all_goals cases h
  all_goals omega

theorem Lexeme.pos_of_ofBytes {b : UInt8} {after : List UInt8} {kind : TokenKind} {n : Nat}
    (h : Lexeme.ofBytes b after = .token kind n) : 0 < n := by
  have hname : 1 ≤ nameEnd (b :: after) 1 := le_nameEnd (by simp)
  simp only [Lexeme.ofBytes] at h
  repeat' split at h
  all_goals first
    | exact Lexeme.pos_of_quoted h
    | exact Lexeme.pos_of_operator h
    | cases h; omega

def Scanner.error (s : Scanner text) (fault : ScanFault) : ScanError :=
  ⟨fault, .ofOffset text s.position⟩

/-- The token of the next `length` bytes. A closing brace carries the depth of the opening one. -/
def Scanner.take (s : Scanner text) (kind : TokenKind) (length : Nat) :
    Except ScanError Token :=
  match slice? text s.position (s.position + length) with
  | some shown => .ok ⟨kind, shown, s.position, if kind = .rBrace then s.depth - 1 else s.depth⟩
  | none => .error (s.error .splitCharacter)

def Scanner.afterBrace (s : Scanner text) : TokenKind → Scanner text
  | .lBrace => { s with depth := s.depth + 1 }
  | .rBrace => { s with
      depth := s.depth - 1
      scopes := s.scopes.dropWhile (·.depth == s.depth - 1) }
  | _ => s

/-- What stands at the scanner where no trivia does, and its length; the end of the text is a token
without text. -/
def Scanner.atHand (s : Scanner text) : Except ScanError (Token × Nat) :=
  if Trivia.ofBytes s.rest = .unclosed then .error (s.error .unterminatedComment)
  else match s.rest with
    | [] => .ok (⟨.endOfText, "", s.position, s.depth⟩, 0)
    | b :: after =>
      match Lexeme.ofBytes b after with
      | .unknown =>
        match charAt? text s.position with
        | some shown => .error (s.error (.unexpectedCharacter shown))
        | none => .error (s.error .splitCharacter)
      | .failed fault => .error (s.error fault)
      | .token kind n =>
        if kind = .rBrace ∧ s.depth = 0 then .error (s.error .unbalancedBrace)
        else (s.take kind n).map (·, n)

def Scanner.behind (s : Scanner text) (kind : TokenKind) (length : Nat) : Scanner text :=
  (s.afterBrace kind).skip length

/-- Reads the next token, or marks the end of the text. -/
def Scanner.read (s : Scanner text) : Except ScanError Token × Scanner text :=
  let s := s.pastTrivia
  match s.atHand with
  | .ok (token, length) => (.ok token, s.behind token.kind length)
  | .error e => (.error e, s)

/-- Reads the next token; the end of the text is a failure. -/
def Scanner.readToken (s : Scanner text) : Except ScanError Token × Scanner text :=
  match s.read with
  | (.ok token, s') =>
    if token.kind = .endOfText then
      (.error ⟨.endOfText, .ofOffset text token.offset⟩, s')
    else (.ok token, s')
  | failed => failed

theorem Scanner.length_pastTrivia_le (s : Scanner text) :
    s.pastTrivia.rest.length ≤ s.rest.length := by
  fun_induction Scanner.pastTrivia s with
  | case1 s n h ih =>
    have := Scanner.length_skip_lt (Trivia.pos_of_ofBytes h).1 (Trivia.pos_of_ofBytes h).2
    omega
  | case2 => exact Nat.le_refl _
  | case3 => exact Nat.le_refl _

@[simp] private theorem Scanner.rest_afterBrace (s : Scanner text) (kind : TokenKind) :
    (s.afterBrace kind).rest = s.rest := by
  cases kind <;> rfl

/-- What stands at a scanner is the mark of the end or a lexeme. -/
theorem Scanner.atHand_cases {s : Scanner text} {t : Token} {n : Nat}
    (h : s.atHand = .ok (t, n)) :
    (s.rest = [] ∧ t = ⟨.endOfText, "", s.position, s.depth⟩ ∧ n = 0) ∨
      ∃ b after, s.rest = b :: after ∧ Lexeme.ofBytes b after = .token t.kind n ∧
        (t.kind = .rBrace → 0 < s.depth) ∧
        slice? text s.position (s.position + n) = some t.text ∧
        t.offset = s.position ∧
        t.depth = if t.kind = .rBrace then s.depth - 1 else s.depth := by
  rw [Scanner.atHand] at h
  split at h
  · cases h
  split at h
  · rename_i hrest
    cases h
    exact .inl ⟨hrest, rfl, rfl⟩
  rename_i b after hrest
  refine .inr ?_
  split at h
  · split at h <;> cases h
  · cases h
  rename_i kind length hlexeme
  split at h
  · cases h
  rename_i hopen
  rw [Scanner.take] at h
  split at h
  · rename_i shown hslice
    cases h
    refine ⟨b, after, hrest, hlexeme, fun hkind => ?_, hslice, rfl, rfl⟩
    exact Nat.pos_of_ne_zero fun hdepth => hopen ⟨hkind, hdepth⟩
  · cases h

/-- Every token but the end takes bytes off the text. -/
theorem Scanner.length_read_lt {s s' : Scanner text} {token : Token}
    (h : s.read = (.ok token, s')) (hend : token.kind ≠ .endOfText) :
    s'.rest.length < s.rest.length := by
  have hle := s.length_pastTrivia_le
  suffices s'.rest.length < s.pastTrivia.rest.length by omega
  rw [Scanner.read] at h
  generalize s.pastTrivia = p at h
  split at h
  · rename_i t n hhand
    cases h
    rcases Scanner.atHand_cases hhand with ⟨-, rfl, -⟩ | ⟨b, after, hrest, hlexeme, -⟩
    · exact absurd rfl hend
    have hne : (p.afterBrace token.kind).rest ≠ [] := by
      rw [Scanner.rest_afterBrace, hrest]
      simp
    have := Scanner.length_skip_lt (Lexeme.pos_of_ofBytes hlexeme) hne
    rwa [Scanner.rest_afterBrace] at this
  · cases h

/-- The tokens up to the end or to the first failure, and which of the two it is. -/
def Scanner.tokens (s : Scanner text) : List Token × Except ScanError Token :=
  match _hread : s.read with
  | (.error e, _) => ([], .error e)
  | (.ok token, s') =>
    if _hend : token.kind = .endOfText then ([], .ok token)
    else
      let (tokens, ending) := s'.tokens
      (token :: tokens, ending)
termination_by s.rest.length
decreasing_by
  exact Scanner.length_read_lt _hread _hend

def tokensOf (text : String) : List Token × Except ScanError Token := (Scanner.new text).tokens

end ReflectionTables.Scanning
