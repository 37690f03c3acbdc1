import ReflectionTables.BlankCharacters
import ReflectionTables.ParserRequests
import ReflectionTables.TokenStreams
/-!
# The steps of parsers and their machine

The steps that parsers are built from, and the machine that runs them: it reads tokens from a stream
and collects findings, and the role of the file is fixed while it runs. Repetition goes through
`recurBy`, which lets a parser call itself as long as the input gets shorter, so every parser ends.
-/

namespace ReflectionTables.Parsing

open Text Scanning Reflected

variable {text : String} {α β : Type}

structure ParserState (text : String) where
  role : FileRole
  stream : TokenStream text
  findings : Findings

def ParserState.new (role : FileRole) (text : String) : ParserState text :=
  { role, stream := .new text, findings := {} }

def ParserState.take (s : ParserState text)
    (step : TokenStream text → Except ScanError Token × TokenStream text) :
    Except Failure (Token × ParserState text) :=
  match step s.stream with
  | (.ok token, stream) => .ok (token, { s with stream })
  | (.error e, _) => .error (.ofScan e)

def rejection (text : String) (token : Token) (fault : ParseFault) : Failure :=
  .rejected ⟨fault, .ofOffset text token.offset⟩

/-- Answers requests from a stream of tokens. -/
def ParserState.machine : Machine (ParserState text)
  | .role, s => .ok (s.role, s)
  | .next, s =>
    match s.take (·.read) with
    | .ok (token, s') =>
      if token.kind = .endOfText then .error (rejection text token (.scan .endOfText))
      else .ok (token, s')
    | .error failure => .error failure
  | .nextOrEnd, s => s.take (·.read)
  | .lookAt n, s => s.take (·.lookAt n)
  | .putBack token, s => .ok ((), { s with stream := s.stream.putBack token })
  | .enter segment opening, s =>
    let scanner := s.stream.scanner.enter segment opening.depth
    .ok ((), { s with stream := { s.stream with scanner } })
  | .enclosingName, s => .ok (s.stream.scanner.enclosingName, s)
  | .depth, s => .ok (s.stream.scanner.depth, s)
  | .tokensLeft, s => .ok (s.stream.tokensLeft, s)
  | .cut what start stop, s =>
    match slice? text start stop with
    | some piece => .ok (piece, s)
    | none => .error (.aborted what)
  | .note finding, s => .ok ((), { s with findings := s.findings.add finding })
  | .reject token fault, _ => .error (rejection text token fault)
  | .abort what, _ => .error (.aborted what)
  | .stall, _ => .error .stalled

def recur (body : (α → Parser β) → α → Parser β) (a : α) : Parser β :=
  .recurBy (fun _ left => left) body a

/-- Repeats a parser that keeps nothing from one round to the next. -/
def loop (body : Parser β → Parser β) : Parser β :=
  recur (fun again (_ : Unit) => body (again ())) ()

/-- The tokens left together with a token that was delivered and not yet used. -/
def leftWith (token : Token) (left : Nat) : Nat := left + token.count

def fail (token : Token) (fault : ParseFault) : Parser α := .ask (.reject token fault) Empty.elim

def abort (what : Cut) : Parser α := .ask (.abort what) Empty.elim

def roleOfFile : Parser FileRole := .request .role

def nextOrEnd : Parser Token := .request .nextOrEnd

/-- The next token; the end of the text is a failure. -/
def next : Parser Token := .request .next

/-- The token `n` places ahead. -/
def lookAt (n : Nat) : Parser Token := .request (.lookAt n)

def putBack (token : Token) : Parser Unit := .request (.putBack token)

def nextIf (skips : Bool) (token : Token) : Parser Token :=
  if skips then next else return token

def expect (kind : TokenKind) (what : Expectation) : Parser Token := do
  let token ← next
  if token.kind = kind then return token
  fail token (.expected what token)

/-- Enters a scope at an open brace. -/
def enter (segment : String) (opening : Token) : Parser Unit := .request (.enter segment opening)

def enclosingName : Parser String := .request .enclosingName

def openBraces : Parser Nat := .request .depth

def cut (what : Cut) (start stop : Nat) : Parser String := .request (.cut what start stop)

def span (start stop : Nat) : Parser String :=
  return collapse (← cut .span start stop)

def note (finding : Finding) : Parser Unit := .request (.note finding)

def noteType (type : ReflectedType) : Parser Unit := note (.type type)

def noteDeclaration (declaration : Declaration) : Parser Unit := note (.declaration declaration)

def remark (r : Remark) : Parser Unit := note (.remark r)

def remarkUnparsed (start stop : Nat) : Parser Unit := do
  remark (.unparsed (← span start stop))

/-- Records a declaration to announce; a header announces none. -/
def noteExtern (declaration : String) : Parser Unit := do
  if (← roleOfFile) = .source then note (.announced declaration)

end ReflectionTables.Parsing
