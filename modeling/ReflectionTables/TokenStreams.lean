import ReflectionTables.TokenScanner
/-!
# Streams of tokens with a queue

A token stream is a scanner behind a queue of tokens that were looked at and not delivered. Tokens
are scanned only when the queue runs out, so a failure of the scanner shows no earlier than a token
behind it is asked for.
-/

namespace ReflectionTables.Scanning

variable {text : String}

/-- What a token adds to a count of tokens; the mark of the end is none. -/
def Token.count (t : Token) : Nat := if t.kind = .endOfText then 0 else 1

structure TokenStream (text : String) where
  scanner : Scanner text
  /-- The next token comes first. -/
  queue : List Token
  /-- The number of tokens that were delivered and not put back. -/
  delivered : Nat

def TokenStream.new (text : String) : TokenStream text := ⟨.new text, [], 0⟩

/-- Delivers the next token. -/
def TokenStream.read (s : TokenStream text) : Except ScanError Token × TokenStream text :=
  match s.queue with
  | token :: queue => (.ok token, { s with queue, delivered := s.delivered + token.count })
  | [] =>
    match s.scanner.read with
    | (.ok token, scanner) =>
      (.ok token, { s with scanner, delivered := s.delivered + token.count })
    | (.error e, scanner) => (.error e, { s with scanner })

/-- The token at an index of the queue, which is filled from the scanner as far as needed. -/
def Scanner.fill (scanner : Scanner text) :
    Nat → List Token → Except ScanError Token × Scanner text × List Token
  | 0, token :: queue => (.ok token, scanner, token :: queue)
  | n + 1, token :: queue =>
    let (answer, scanner, queue) := scanner.fill n queue
    (answer, scanner, token :: queue)
  | 0, [] =>
    match scanner.read with
    | (.ok token, scanner) => (.ok token, scanner, [token])
    | (.error e, scanner) => (.error e, scanner, [])
  | n + 1, [] =>
    match scanner.read with
    | (.ok token, scanner) =>
      let (answer, scanner, queue) := scanner.fill n []
      (answer, scanner, token :: queue)
    | (.error e, scanner) => (.error e, scanner, [])

/-- The token `n` places ahead, which stays undelivered. -/
def TokenStream.lookAt (s : TokenStream text) (n : Nat) :
    Except ScanError Token × TokenStream text :=
  let (answer, scanner, queue) := s.scanner.fill n s.queue
  (answer, { s with scanner, queue })

def TokenStream.putBack (s : TokenStream text) (token : Token) : TokenStream text :=
  { s with queue := token :: s.queue, delivered := s.delivered - token.count }

/-- A bound on the tokens that were not delivered: a text has at least one byte for each. Every
token delivered before the end takes one off. -/
def TokenStream.tokensLeft (s : TokenStream text) : Nat := text.utf8ByteSize - s.delivered

/-- The tokens of a text and what stands at their end, without a queue or a scanner. -/
structure TokenCursor where
  tokens : List Token
  ending : Except ScanError Token

def TokenCursor.ofText (text : String) : TokenCursor :=
  let (tokens, ending) := tokensOf text
  { tokens, ending }

def TokenCursor.read (c : TokenCursor) : Except ScanError Token × TokenCursor :=
  match c.tokens with
  | token :: tokens => (.ok token, { c with tokens })
  | [] => (c.ending, c)

def TokenCursor.lookAt (c : TokenCursor) (n : Nat) : Except ScanError Token :=
  match c.tokens[n]? with
  | some token => .ok token
  | none => c.ending

def TokenCursor.putBack (c : TokenCursor) (token : Token) : TokenCursor :=
  { c with tokens := token :: c.tokens }

end ReflectionTables.Scanning
