import ReflectionTables.BracketSkipping
import ReflectionTables.ReservedWords
/-!
# Data members of a record

A declaration is a head of type words, marks and a name, and then a tail that tells a bit-field, an
array and a method apart; further declarators share the type words of the first.
-/

namespace ReflectionTables.Parsing

open Text Scanning Reflected

structure BodyContext where
  /-- The unqualified name, which constructors repeat. -/
  typeName : String
  qualifiedName : String
  /-- The parameter list of the record, empty if it has none. -/
  generic : String
  /-- Whether the name of the record depends on the parameters of an enclosing one. -/
  dependent : Bool
deriving DecidableEq, Repr

/-- Whether the name of a type in this body depends on parameters. -/
def BodyContext.nestsDependent (ctx : BodyContext) : Bool :=
  ctx.dependent || ctx.generic != ""

/-- Goes through further array dimensions; they belong to the type of the element. -/
def throughDimensions (first : Token) : Parser Token :=
  recur (fun again (token : Token) => do
    if token.kind.opensBrackets then
      discard (throughBrackets token)
      again (← next)
    else return token) first

def throughWidth : Parser Token :=
  loop fun again => do
    let token ← next
    match token.kind with
    | .semicolon | .comma | .eq | .lBrace => return token
    | _ => again

/-- Reads array dimensions or the width of a bit-field after the name of a declarator: the kind
of the member, if there can be one, and the token that follows. -/
def declaratorSuffix (name : Token) (kind : MemberKind) (first : Token) :
    Parser (Option MemberKind × Token) := do
  match first.kind with
  | .lBracket =>
    let close ← throughBrackets first
    let arity ← cut .arity first.stop close.offset
    return (some (.array (trim arity)), ← throughDimensions (← next))
  | .emptyBrackets =>
    remarkUnparsed name.offset first.stop
    return (none, ← next)
  | .colon => return (none, ← throughWidth)
  | _ => return (some kind, first)

/-- Goes through the initializer of a member, if it has one; the answer is what follows. -/
def afterMemberInitializer (token : Token) : Parser Token := do
  match token.kind with
  | .eq => throughInitializer
  | .lBrace =>
    discard (throughBrace token)
    next
  | _ => return token

def acceptedMembers (name typeText : String) (kind? : Option MemberKind) (accept : Bool)
    (ctx : BodyContext) : List Member :=
  match kind? with
  | some kind => if accept then [⟨name, typeText, ctx.generic, kind⟩] else []
  | none => []

/-- Reads what follows the name of a declarator. The answer is the terminator and the member,
if it is accepted and neither a bit-field nor an array without length. -/
def declaratorTail (name : Token) (typeText : String) (kind : MemberKind) (first : Token)
    (accept : Bool) (ctx : BodyContext) : Parser (Token × List Member) := do
  let (kind?, token) ← declaratorSuffix name kind first
  let token ← afterMemberInitializer token
  if token.kind ≠ .semicolon ∧ token.kind ≠ .comma then
    fail token (.expected (.semicolonAfterMember name.text) token)
  return (token, acceptedMembers name.text typeText kind? accept ctx)

def markKind (token : Token) : MemberKind :=
  if token.kind = .star then .pointer else .reference

/-- Reads further marks after those that were read: the kind, the marks, and what follows. -/
def marksEnd (kind : MemberKind) (marks : String) (first : Token) :
    Parser (MemberKind × String × Token) :=
  recur (fun again (kind, marks, token) => do
    if token.kind.isIndirection then
      again (markKind token, marks ++ token.text, ← next)
    else return (kind, marks, token)) (kind, marks, first)

def declaratorMarks (first : Token) : Parser (MemberKind × String × Token) :=
  marksEnd .value "" first

/-- Reads further declarators after those that gave `members`. -/
def declaratorsEnd (base : String) (accept : Bool) (ctx : BodyContext) (members : List Member) :
    Parser (List Member) :=
  recur (fun again members => do
    let (kind, marks, name) ← declaratorMarks (← next)
    if name.kind ≠ .ident then fail name (.expected .declaratorName name)
    let (last, more) ← declaratorTail name (base ++ marks) kind (← next) accept ctx
    if last.kind = .semicolon then return members ++ more
    again (members ++ more)) members

/-- Reads declarators that share the type words `base`, up to the semicolon. -/
def declarators (base : String) (accept : Bool) (ctx : BodyContext) : Parser (List Member) :=
  declaratorsEnd base accept ctx []

def operatorSymbol : Parser Unit := do
  let symbol ← next
  if symbol.kind = .lParen then discard (expect .rParen .callOperatorParen)

def operatorParameters : Parser Token :=
  loop fun again => do
    let token ← next
    match token.kind with
    | .lParen | .emptyParens => return token
    | .semicolon | .lBrace | .rBrace => fail token .operatorWithoutParameters
    | _ => again

def operatorMember : Parser Unit := do
  operatorSymbol
  throughMethodTail (← operatorParameters)

/-- Goes through a macro with arguments, or a function pointer whose type is one word. -/
def throughMacroCall (params : Token) : Parser Unit := do
  discard (throughParens params)
  match (← lookAt 0).kind with
  | .semicolon => discard next
  | .lParen | .emptyParens => discard throughStatement
  | _ => return

/-- The head of a declaration as far as it was read. -/
structure MemberHead where
  /-- The names, the last one last. -/
  names : List Token := []
  kind : MemberKind := .value
  /-- The offset of the first mark. -/
  markAt : Option Nat := none

def MemberHead.mark (head : MemberHead) (token : Token) : MemberHead :=
  { head with kind := markKind token, markAt := head.markAt.or (some token.offset) }

inductive HeadEnd
  | operator
  /-- The token is the first that does not belong to the head. -/
  | declared (head : MemberHead) (token : Token)

def headEnd (head : MemberHead) (first : Token) : Parser HeadEnd :=
  recur (fun again (head, token) => do
    let goOn (head : MemberHead) : Parser HeadEnd := do again (head, ← next)
    match token.kind with
    | .ident =>
      if token.reserved? = some .operatorWord then return .operator
      else goOn { head with names := head.names ++ [token] }
    | .colonColon => goOn head
    | .lt =>
      if head.names = [] then return .declared head token
      else
        discard (throughAngles token)
        goOn head
    | .star | .amp | .ampAmp => goOn (head.mark token)
    | _ => return .declared head token) (head, first)

/-- Reads type words, lists in angle brackets and marks from `first` on. -/
def memberHead (first : Token) : Parser HeadEnd := headEnd {} first

/-- Reads a data member or a method that starts at `start`; `first` is the first token that was
not looked at. -/
def memberDeclaration (start first : Token) (accept : Bool) (ctx : BodyContext) :
    Parser (List Member) := do
  match ← memberHead first with
  | .operator =>
    operatorMember
    return []
  | .declared head token =>
    if token.kind.opensParens then
      if head.names.length ≤ 1 then throughMacroCall token else throughMethodTail token
      return []
    else
      match head.names with
      | first :: second :: more =>
        let name := (second :: more).getLastD first
        let baseEnd := min (head.markAt.getD name.offset) name.offset
        let base ← span start.offset baseEnd
        let typeText ← span start.offset name.offset
        let (last, members) ← declaratorTail name typeText head.kind token accept ctx
        if last.kind = .comma then return members ++ (← declarators base accept ctx)
        else return members
      | _ => fail token (.expected (.memberDeclaration ctx.qualifiedName) token)

end ReflectionTables.Parsing
