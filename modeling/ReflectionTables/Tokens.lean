/-!
# Tokens

Tokens of a C++-like text: a kind, the text itself, its byte offset and the brace depth it was read
at. A possibly qualified name is one token, and so are adjacent `()`, `[]`, `""`.
-/

namespace ReflectionTables.Scanning

inductive TokenKind
  | ident | number | str | emptyStr | char
  | semicolon | comma | dot | question | tilde
  | plus | minus | star | slash | percent | caret | amp | pipe | bang | eq | lt | gt | colon
  | plusPlus | minusMinus | ampAmp | pipePipe | eqEq | ltLt | gtGt | colonColon
  | plusEq | minusEq | starEq | slashEq | percentEq | caretEq | ampEq | pipeEq | bangEq
  | ltEq | gtEq | colonEq
  | lBrace | rBrace | lParen | rParen | lBracket | rBracket | emptyParens | emptyBrackets
  | endOfText
deriving DecidableEq, Repr, Inhabited

/-- Operators written as a character twice. -/
def TokenKind.doubled? : Char → Option TokenKind
  | '-' => some .minusMinus
  | ':' => some .colonColon
  | '&' => some .ampAmp
  | '|' => some .pipePipe
  | '+' => some .plusPlus
  | '=' => some .eqEq
  | '<' => some .ltLt
  | '>' => some .gtGt
  | _ => none

/-- Operators written as a character and `=`. -/
def TokenKind.withEquals? : Char → Option TokenKind
  | '%' => some .percentEq
  | '^' => some .caretEq
  | '*' => some .starEq
  | '/' => some .slashEq
  | '!' => some .bangEq
  | '-' => some .minusEq
  | ':' => some .colonEq
  | '&' => some .ampEq
  | '|' => some .pipeEq
  | '+' => some .plusEq
  | '<' => some .ltEq
  | '>' => some .gtEq
  | _ => none

/-- Operators and punctuation of one character, braces and opening brackets apart. -/
def TokenKind.single? : Char → Option TokenKind
  | ';' => some .semicolon
  | ',' => some .comma
  | '.' => some .dot
  | '?' => some .question
  | '~' => some .tilde
  | '+' => some .plus
  | '-' => some .minus
  | '*' => some .star
  | '/' => some .slash
  | '%' => some .percent
  | '^' => some .caret
  | '&' => some .amp
  | '|' => some .pipe
  | '!' => some .bang
  | '=' => some .eq
  | '<' => some .lt
  | '>' => some .gt
  | ':' => some .colon
  | ')' => some .rParen
  | ']' => some .rBracket
  | _ => none

structure Token where
  kind : TokenKind
  text : String
  /-- The byte offset of the first byte. -/
  offset : Nat
  /-- An opening brace and the brace that closes it carry the same depth. -/
  depth : Nat
deriving DecidableEq, Repr, Inhabited

/-- The byte offset one past the token. -/
def Token.stop (t : Token) : Nat := t.offset + t.text.utf8ByteSize

def Token.isWord (t : Token) (word : String) : Bool := t.kind == .ident && t.text == word

/-- The form of a token in messages. -/
def Token.shown (t : Token) : String :=
  match t.kind with
  | .ident => s!"identifier '{t.text}'"
  | .number => s!"number {t.text}"
  | .str | .emptyStr => s!"string literal {t.text}"
  | .char => s!"char literal {t.text}"
  | .endOfText => "end of file"
  | _ => s!"'{t.text}'"

def TokenKind.opensParens : TokenKind → Bool
  | .lParen | .emptyParens => true
  | _ => false

def TokenKind.opensBrackets : TokenKind → Bool
  | .lBracket | .emptyBrackets => true
  | _ => false

def TokenKind.isIndirection : TokenKind → Bool
  | .star | .amp | .ampAmp => true
  | _ => false

end ReflectionTables.Scanning
