import ReflectionTables.RecordBodies
/-!
# Declarations at file scope

Records and enumerations are reflected in a header; free variables and functions of an
implementation file are announced. What no rule reads is gone through up to the end of a statement
or a block, and a remark keeps its text.
-/

namespace ReflectionTables.Parsing

open Scanning Reflected

/-- Goes on behind a parenthesis of an unknown construct, which ends there unless a semicolon or a
body follows. -/
def behindParens (again : Token → Parser Nat) (token : Token) : Parser Nat := do
  let close ← throughParens token
  match (← lookAt 0).kind with
  | .semicolon | .lBrace => again (← nextOrEnd)
  | _ => return close.stop

/-- Goes through a construct that no rule reads, from a delivered token on. The answer is the
offset where it ends; a closing brace and the end of the text are left to the caller. -/
def throughUnknown (first : Token) : Parser Nat :=
  .recurBy leftWith (fun again token => do
    match token.kind with
    | .semicolon => return token.stop
    | .lBrace =>
      let close ← throughBrace token
      if (← lookAt 0).kind = .semicolon then return (← next).stop else return close.stop
    | .rBrace | .endOfText =>
      putBack token
      return token.offset
    | .lParen | .emptyParens => behindParens again token
    | _ => again (← nextOrEnd)) first

/-- Leaves a construct that began at `start` unread and remarks on it. -/
def leaveUnparsed (start token : Token) : Parser Unit := do
  let stop ← throughUnknown token
  remarkUnparsed start.offset (max stop start.offset)

/-- Announces the text between two offsets in an implementation file. -/
def announce (start stop : Nat) : Parser Unit := do
  if (← roleOfFile) = .source then noteExtern (← span start stop)

/-- Goes through a definition that is not announced. -/
def throughDefinition : Parser Unit :=
  loop fun again => do
    let token ← next
    match token.kind with
    | .semicolon => return
    | .lBrace => discard (throughBrace token)
    | .lParen | .emptyParens =>
      discard (throughParens token)
      if (← lookAt 0).kind = .colon then
        discard next
        throughConstructorInitializers
      else again
    | .rBrace => fail token .braceBeforeSemicolon
    | _ => again

/-- Goes through the initializer of a declarator, if it has one; the answer is what follows. -/
def afterInitializer (token : Token) : Parser Token :=
  match token.kind with
  | .eq => throughInitializer
  | .lBrace => do
    discard (throughBrace token)
    nextOrEnd
  | _ => return token

/-- Goes through the array suffixes after a name that ends at `stop`: where the last one ends
and the token after it. -/
def throughSuffixes (stop : Nat) (first : Token) : Parser (Nat × Token) :=
  .recurBy (fun s => leftWith s.2) (fun again (stop, token) => do
    if token.kind.opensBrackets then
      let close ← throughBrackets token
      again (close.stop, ← nextOrEnd)
    else return (stop, token)) (stop, first)

def throughMarks (first : Token) : Parser Token :=
  .recurBy leftWith (fun again token => do
    if token.kind.isIndirection then again (← nextOrEnd) else return token) first

/-- Reads the variables after the first of a declaration that began at `start`, and announces
each with the type words `base`. -/
def laterVariables (start : Token) (base : String) : Parser Unit :=
  loop fun again => do
    let first ← nextOrEnd
    let name ← throughMarks first
    if name.kind ≠ .ident then leaveUnparsed start name
    else
      let (stop, token) ← throughSuffixes name.stop (← nextOrEnd)
      let declarator ← span first.offset stop
      noteExtern s!"{base} {declarator}"
      let token ← afterInitializer token
      match token.kind with
      | .semicolon => return
      | .comma => again
      | _ => leaveUnparsed start token

/-- Reads more of a function that was read up to `stop`. A deleted or defaulted one is not
announced. -/
def functionEnd (start : Token) (stop : Nat) : Parser Unit :=
  recur (fun again stop => do
    let token ← nextOrEnd
    match token.kind with
    | .semicolon => announce start.offset stop
    | .lBrace =>
      announce start.offset stop
      discard (throughBrace token)
    | .eq => discard throughStatement
    | .ident =>
      if isMethodQualifier token.text then
        if (← lookAt 0).kind.opensParens then again (← throughParens (← next)).stop
        else again token.stop
      else again token.stop
    | .minus =>
      if (← lookAt 0).kind = .gt then again (← next).stop else leaveUnparsed start token
    | .colonColon | .star | .amp | .ampAmp => again token.stop
    | .lt => again (← throughAngles token).stop
    | _ => leaveUnparsed start token) stop

def freeFunction (start params : Token) : Parser Unit := do
  let close ← throughParens params
  functionEnd start close.stop

def freeOperator (start : Token) : Parser Unit := do
  operatorSymbol
  .recurBy leftWith (fun again token => do
    match token.kind with
    | .lParen | .emptyParens => freeFunction start token
    | .semicolon | .lBrace | .rBrace | .endOfText => leaveUnparsed start token
    | _ => again (← nextOrEnd)) (← nextOrEnd)

/-- Whether a name has several segments; a name holds a colon only between segments. -/
def isQualified (token : Token) : Bool := token.text.toList.contains ':'

/-- The head of a free declaration as far as it was read. -/
structure FreeHead where
  names : Nat
  /-- The offset of the last name. -/
  nameAt : Nat
  /-- The offset of the first mark. -/
  markAt : Option Nat
  /-- The token to look at. -/
  token : Token

/-- Reads the rest of a variable declaration from the token after its first name on. -/
def freeVariables (start : Token) (head : FreeHead) : Parser Unit := do
  announce start.offset head.token.offset
  let last ← afterInitializer head.token
  match last.kind with
  | .semicolon => return
  | .comma =>
    let base ← span start.offset (min (head.markAt.getD head.nameAt) head.nameAt)
    laterVariables start base
  | _ => leaveUnparsed start last

/-- Reads more of a free variable or function that begins at `start`. -/
def freeDeclarationEnd (start : Token) (head : FreeHead) : Parser Unit :=
  .recurBy (fun head => leftWith head.token) (fun again head => do
    let token := head.token
    let goOn (head : FreeHead) : Parser Unit := do
      again { head with token := ← nextOrEnd }
    match token.kind with
    | .ident =>
      if token.reserved? = some .operatorWord then freeOperator start
      else if isQualified token then throughDefinition
      else goOn { head with names := head.names + 1, nameAt := token.offset }
    | .colonColon => if 0 < head.names then throughDefinition else goOn head
    | .lt =>
      if 0 < head.names then
        discard (throughAngles token)
        goOn head
      else leaveUnparsed start token
    | .star | .amp | .ampAmp =>
      goOn { head with markAt := head.markAt.or (some token.offset) }
    | .lBracket | .emptyBrackets =>
      if 2 ≤ head.names then
        discard (throughBrackets token)
        goOn head
      else leaveUnparsed start token
    | .eq | .lBrace | .comma | .semicolon =>
      if 2 ≤ head.names then freeVariables start head else leaveUnparsed start token
    | .lParen | .emptyParens =>
      if 2 ≤ head.names then freeFunction start token else leaveUnparsed start token
    | _ => leaveUnparsed start token) head

/-- Reads a free variable or function that begins at `start`; `first` is the first token that
was not looked at. -/
def freeDeclaration (start first : Token) : Parser Unit :=
  freeDeclarationEnd start ⟨0, start.offset, none, first⟩

/-- Reads a record from its name on, up to the end of its definition or declaration. -/
def recordFromName (key : ClassKey) (word name : Token) (arguments? : Option String)
    (generic : String) : Parser Unit :=
  recur (fun again (inBases : Bool) => do
    let token ← next
    let declare : Parser Unit := do
      putBack token
      freeDeclaration word name
    match token.kind with
    | .lBrace =>
      if (← roleOfFile) = .header then
        recordBody recordMembers key name arguments? token generic false
        discard (expect .semicolon .semicolonAfterRecord)
      else
        discard (throughBrace token)
        discard throughStatement
    | .semicolon => return
    | .colon => again true
    | .lt =>
      if inBases then
        discard (throughAngles token)
        again inBases
      else declare
    | .comma | .colonColon => if inBases then again inBases else declare
    | .ident => if inBases || token.isWord "final" then again inBases else declare
    | _ => declare) false

/-- The text of a list in angle brackets, if one comes next. -/
def writtenList? : Parser (Option String) := do
  if (← lookAt 0).kind = .lt then return some (← throughAngles (← next)).text
  else return none

/-- Reads what follows a class key at file scope: a definition, a declaration, or a variable or
function whose type it begins. -/
def recordItem (key : ClassKey) (word : Token) (generic : String) : Parser Unit := do
  throughHeadAttributes
  let name ← next
  if name.kind = .lBrace then
    discard (throughBrace name)
    let last ← throughStatement
    remarkUnparsed word.offset last.stop
  else if name.kind ≠ .ident then fail name (.expected .typeName name)
  else
    let arguments? ← writtenList?
    recordFromName key word name arguments? generic

/-- Reads what follows the word `namespace`. A body without a name is gone through. -/
def namespaceItem : Parser Unit := do
  let name ← next
  if name.kind = .lBrace then discard (throughBrace name)
  else if name.kind ≠ .ident then fail name (.expected .namespaceName name)
  else
    let token ← next
    match token.kind with
    | .lBrace => enter name.text token
    | .eq => discard throughStatement
    | _ => fail token (.expected (.namespaceBody name.text) token)

/-- Reads what follows the word `template`. Only records are reflected. -/
def templateItem : Parser Unit := do
  match ← writtenList? with
  | none => discard throughDeclaration
  | some parameters =>
    let token ← next
    match token.reserved?.bind classKey? with
    | some key => recordItem key token parameters
    | none =>
      putBack token
      discard throughDeclaration

/-- Reads what follows the word `enum` at file scope. -/
def enumItem : Parser Unit := do
  match ← enumAfterWord false with
  | .declared => return
  | .elaborated _ => discard throughStatement
  | .anonymous | .named _ => discard (expect .semicolon .semicolonAfterEnum)

/-- Reads an item of a file that begins with a name. -/
def namedItem (token : Token) : Parser Unit := do
  match token.reserved? with
  | some .namespaceWord => namespaceItem
  | some .typedefWord | some .usingWord | some .staticAssertWord => discard throughStatement
  | some .structWord => recordItem .structKey token ""
  | some .classWord => recordItem .classKey token ""
  | some .unionWord => recordItem .unionKey token ""
  | some .enumWord => enumItem
  | some .templateWord => templateItem
  | some .inlineWord =>
    if (← lookAt 0).isWord "namespace" then
      discard next
      namespaceItem
    else throughDefinition
  | some .staticWord | some .externWord | some .constexprWord => throughDefinition
  | _ => if isQualified token then throughDefinition else freeDeclaration token token

/-- Reads an item of a file from its first token on. A closing brace ends a namespace. -/
def fileItem (token : Token) : Parser Unit :=
  match token.kind with
  | .semicolon | .rBrace => return
  | .lBracket => discard (throughBrackets token)
  | .ident => namedItem token
  | _ => leaveUnparsed token token

/-- Reads the items of a file up to its end. -/
def fileItems : Parser Unit :=
  loop fun again => do
    let token ← nextOrEnd
    if token.kind = .endOfText then
      if (← openBraces) ≠ 0 then fail token .unclosedBlock
    else
      fileItem token
      again

/-- What a text says when it is read in the given role. -/
def findingsOf (role : FileRole) (text : String) : Except Failure Findings :=
  match fileItems.run ParserState.machine (.new role text) with
  | .ok (_, state) => .ok state.findings
  | .error failure => .error failure

end ReflectionTables.Parsing
