import ReflectionTables.ParserSteps
/-!
# Going through groups and statements

Parsers that go through a bracketed group, a statement, a list in angle brackets or an initializer,
without looking at what it says. Each takes the opening token as delivered and returns the token
that ends the construct.
-/

namespace ReflectionTables.Parsing

open Scanning

/-- Goes through the brace that closes `opening`. -/
def throughBrace (opening : Token) : Parser Token :=
  loop fun again => do
    let token ← next
    if token.kind = .rBrace ∧ token.depth = opening.depth then return token
    again

/-- Goes to the end of a group in parentheses in which `inner` more are open. -/
def parensEnd (inner : Nat) : Parser Token :=
  recur (fun again inner => do
    let token ← next
    match token.kind, inner with
    | .lParen, inner => again (inner + 1)
    | .rParen, 0 => return token
    | .rParen, inner + 1 => again inner
    | .lBrace, inner =>
      discard (throughBrace token)
      again inner
    | _, inner => again inner) inner

/-- Goes through the parenthesis that closes `opening`. -/
def throughParens (opening : Token) : Parser Token :=
  if opening.kind = .emptyParens then return opening else parensEnd 0

/-- Goes to the end of a group in brackets in which `inner` more are open. -/
def bracketsEnd (inner : Nat) : Parser Token :=
  recur (fun again inner => do
    let token ← next
    match token.kind, inner with
    | .lBracket, inner => again (inner + 1)
    | .rBracket, 0 => return token
    | .rBracket, inner + 1 => again inner
    | _, inner => again inner) inner

/-- Goes through the bracket that closes `opening`. -/
def throughBrackets (opening : Token) : Parser Token :=
  if opening.kind = .emptyBrackets then return opening else bracketsEnd 0

/-- Goes through the next semicolon outside braces. -/
def throughStatement : Parser Token :=
  loop fun again => do
    let token ← next
    match token.kind with
    | .semicolon => return token
    | .lBrace =>
      discard (throughBrace token)
      again
    | .rBrace => fail token .braceBeforeSemicolon
    | _ => again

/-- Goes through a declaration that ends in a semicolon or in a block. -/
def throughDeclaration : Parser Token :=
  loop fun again => do
    let token ← next
    match token.kind with
    | .semicolon => return token
    | .lBrace => throughBrace token
    | .lParen =>
      discard (throughParens token)
      again
    | .rBrace => fail token .braceBeforeSemicolon
    | _ => again

/-- The text between two angle brackets and the offset past the second. -/
structure AngleList where
  text : String
  stop : Nat
deriving DecidableEq, Repr

/-- Goes to the end of a list in angle brackets in which `depth` are open; `>>` closes two. -/
def anglesEnd (opening : Token) (depth : Int) : Parser AngleList :=
  recur (fun again depth => do
    let token ← next
    let close (depth : Int) (offset : Nat) : Parser AngleList := do
      if depth < 0 then fail token .overclosedList
      else if depth = 0 then return ⟨← cut .list opening.stop offset, offset + 1⟩
      else again depth
    match token.kind with
    | .lt => again (depth + 1)
    | .gt => close (depth - 1) token.offset
    | .gtGt => close (depth - 2) (token.offset + 1)
    | .ltLt => fail token .shiftInList
    | .semicolon => fail token .unclosedList
    | .lParen =>
      discard (throughParens token)
      again depth
    | _ => again depth) depth

/-- Goes through the angle bracket that closes `opening`. -/
def throughAngles (opening : Token) : Parser AngleList := anglesEnd opening 1

/-- Whether a `>` closes the angle bracket just delivered before the statement or a block
ends. Nothing is delivered. -/
def anglesCloseAhead : Parser Bool :=
  .recurBy (fun ahead left => left - ahead.2)
    (fun again (depth, n) => do
      let token ← lookAt n
      let count (depth : Int) : Parser Bool :=
        if depth ≤ 0 then return true else again (depth, n + 1)
      match token.kind with
      | .lt => count (depth + 1)
      | .gt => count (depth - 1)
      | .gtGt => count (depth - 2)
      | .semicolon | .lBrace | .rBrace | .endOfText => return false
      | _ => count depth) ((1 : Int), 0)

/-- How far an initializer has been read: the lists that are open and whether the token before
was a name. -/
structure InitializerState where
  lists : Nat
  afterName : Bool

/-- Goes to the end of an initializer. A `<` after a name opens a list only if it is closed;
otherwise it compares. -/
def initializerEnd (s : InitializerState) : Parser Token :=
  recur (fun again s => do
    let token ← next
    let goOn (lists : Nat) : Parser Token := again ⟨lists, token.kind == .ident⟩
    match token.kind with
    | .semicolon => return token
    | .comma => if s.lists = 0 then return token else goOn s.lists
    | .lParen =>
      discard (throughParens token)
      goOn s.lists
    | .lBrace =>
      discard (throughBrace token)
      goOn s.lists
    | .lBracket =>
      discard (throughBrackets token)
      goOn s.lists
    | .lt =>
      if s.afterName then
        if ← anglesCloseAhead then goOn (s.lists + 1) else goOn s.lists
      else goOn s.lists
    | .gt => goOn (s.lists - 1)
    | .gtGt => goOn (s.lists - 2)
    | .rBrace => fail token .braceBeforeSemicolon
    | _ => goOn s.lists) s

/-- Goes through the semicolon or comma that ends an initializer. -/
def throughInitializer : Parser Token := initializerEnd ⟨0, false⟩

/-- Goes through the initializers of a constructor and its body. A brace after a name is an
initializer, any other is the body. -/
def throughConstructorInitializers : Parser Unit :=
  recur (fun again (afterName : Bool) => do
    let token ← next
    match token.kind, afterName with
    | .ident, _ | .colonColon, _ => again true
    | .lt, _ =>
      discard (throughAngles token)
      again afterName
    | .lParen, true | .emptyParens, true =>
      discard (throughParens token)
      again false
    | .lBrace, true =>
      discard (throughBrace token)
      again false
    | .lBrace, false => discard (throughBrace token)
    | .comma, _ | .dot, _ => again afterName
    | _, _ => fail token (.unexpected token .initializerList)) false

/-- Goes through what follows the parameter list of a method. -/
def methodEnd : Parser Unit :=
  loop fun again => do
    let token ← next
    match token.kind with
    | .semicolon => return
    | .lBrace => discard (throughBrace token)
    | .eq => discard throughStatement
    | .colon => throughConstructorInitializers
    | .lParen | .emptyParens =>
      discard (throughParens token)
      again
    | .lBracket | .emptyBrackets =>
      discard (throughBrackets token)
      again
    | .lt =>
      discard (throughAngles token)
      again
    | .ident | .colonColon | .amp | .ampAmp | .star | .minus | .gt => again
    | _ => fail token (.unexpected token .methodTail)

/-- Goes through a parameter list and all that follows it up to the end of the method. -/
def throughMethodTail (params : Token) : Parser Unit := do
  if !params.kind.opensParens then fail params (.expected .parameterList params)
  discard (throughParens params)
  methodEnd

/-- Specifiers with a parenthesised argument that may stand before the name of a type. -/
def attributeWords : List String := ["alignas", "_Alignas", "__declspec", "__attribute__"]

/-- Whether the next name, which was looked at, is such a specifier. -/
def attributeAhead (word : Token) : Parser Bool := do
  if attributeWords.contains word.text then return (← lookAt 1).kind == .lParen
  else return false

/-- Whether the next name is a marker in capitals before the name of a type that is defined. -/
def markerAhead : Parser Bool := do
  if (← lookAt 0).text.toList.any Char.isLower then return false
  let name ← lookAt 1
  if name.kind ≠ .ident ∨ name.isWord "final" then return false
  let after ← lookAt 2
  return after.kind == .lBrace || after.kind == .colon || after.kind == .lt ||
    after.isWord "final"

/-- Goes through attributes, specifiers and markers between a class key and a name. -/
def throughHeadAttributes : Parser Unit :=
  loop fun again => do
    let token ← lookAt 0
    match token.kind with
    | .lBracket =>
      discard (throughBrackets (← next))
      again
    | .ident =>
      if ← attributeAhead token then
        discard next
        discard (throughParens (← next))
        again
      else if ← markerAhead then
        discard next
        again
    | _ => return

/-- Goes through `final` and a list of bases; the opening brace ends them. -/
def throughBases : Parser Token :=
  loop fun again => do
    let token ← next
    match token.kind with
    | .lBrace => return token
    | .lt =>
      discard (throughAngles token)
      again
    | .ident | .colon | .colonColon | .comma => again
    | _ => fail token (.unexpected token .baseClause)

end ReflectionTables.Parsing
