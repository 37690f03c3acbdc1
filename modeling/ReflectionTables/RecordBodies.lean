import ReflectionTables.DataMembers
import ReflectionTables.Enumerations
import ReflectionTables.ParameterLists
/-!
# Bodies of records

A body is a list of items: access specifiers, nested types, methods, data members, and declarations
that are gone through. Bodies nest, so the items take the parser of an inner body as an argument,
and `recordMembers` ties the knot.
-/

namespace ReflectionTables.Parsing

open Scanning Reflected

/-- A body that is about to be read. -/
structure BodyTask where
  opening : Token
  context : BodyContext
  /-- The visibility at its start. -/
  visible : Bool

/-- A parser of bodies. It gives the closing brace and the accepted members. -/
abbrev BodyParser := BodyTask → Parser (Token × List Member)

def classKey? : ReservedWord → Option ClassKey
  | .structWord => some .structKey
  | .classWord => some .classKey
  | .unionWord => some .unionKey
  | _ => none

/-- The segment that a record adds to qualified names: its name with the arguments written after
it, or else with the arguments for its own parameters. -/
def recordSegment (name : String) (arguments? : Option String) (generic : String)
    (dependent : Bool) : Parser String :=
  match arguments? with
  | some arguments => return s!"{name}<{arguments}>"
  | none =>
    if generic ≠ "" ∧ !dependent then
      match Parsing.arguments? generic with
      | some arguments => return s!"{name}<{arguments}>"
      | none => abort .parameterName
    else return name

/-- Reads the body of a named record, and reflects it if it has members and its name does not
depend on the parameters of an enclosing type. -/
def recordBody (body : BodyParser) (key : ClassKey) (name : Token)
    (arguments? : Option String) (opening : Token) (generic : String) (dependent : Bool) :
    Parser Unit := do
  let segment ← recordSegment name.text arguments? generic dependent
  enter segment opening
  let qualified ← enclosingName
  noteDeclaration ⟨.record key, qualified⟩
  let context := ⟨name.text, qualified, generic, dependent⟩
  let (_, members) ← body ⟨opening, context, (TypeTag.record key).startsPublic⟩
  if members = [] then return
  else if dependent then remark (.notReflected qualified)
  else noteType (.record ⟨key, qualified, generic, members⟩)

/-- Reads a record inside a body. The members of an unnamed one belong to the enclosing record,
unless the record has declarators. -/
def innerRecord (body : BodyParser) (key : ClassKey) (word : Token) (ctx : BodyContext)
    (visible accept : Bool) : Parser (List Member) := do
  throughHeadAttributes
  let first ← lookAt 0
  if first.kind = .lBrace then
    let opening ← next
    let (_, members) ← body ⟨opening, ctx, visible⟩
    let token ← next
    if token.kind = .semicolon then return members
    else
      let last ← throughStatement
      remarkUnparsed token.offset last.stop
      return []
  else if first.kind ≠ .ident then fail first (.expected .typeName first)
  else
    let after ← lookAt 1
    if after.kind = .semicolon then
      discard next
      discard next
      return []
    else
      let name ← next
      if after.kind = .lBrace || after.kind = .colon || after.isWord "final" then
        let opening ← throughBases
        recordBody body key name none opening ctx.generic ctx.nestsDependent
        let token ← next
        if token.kind = .semicolon then return []
        else
          putBack token
          declarators name.text accept ctx
      else memberDeclaration word name accept ctx

/-- Reads an enumeration inside a body. -/
def innerEnum (word : Token) (ctx : BodyContext) (accept : Bool) :
    Parser (List Member) := do
  match ← enumAfterWord ctx.nestsDependent with
  | .declared => return []
  | .elaborated name => memberDeclaration word name accept ctx
  | .anonymous =>
    let token ← next
    if token.kind = .semicolon then return []
    else
      putBack token
      let last ← throughStatement
      remarkUnparsed token.offset last.stop
      return []
  | .named name =>
    let token ← next
    if token.kind = .semicolon then return []
    else
      putBack token
      declarators name.text accept ctx

/-- Reads further specifiers: whether one was or is `static`, and the token after them. -/
def specifiersEnd (isStatic : Bool) (first : Token) : Parser (Bool × Token) :=
  recur (fun again (isStatic, token) => do
    match token.reserved? with
    | some .staticWord => again (true, ← next)
    | some .virtualWord | some .explicitWord | some .inlineWord | some .constexprWord
    | some .mutableWord => again (isStatic, ← next)
    | _ => return (isStatic, token)) (isStatic, first)

def memberSpecifiers (first : Token) : Parser (Bool × Token) := specifiersEnd false first

def constructorAhead (token : Token) (ctx : BodyContext) : Parser Bool := do
  if token.text = ctx.typeName then return (← lookAt 0).kind.opensParens else return false

/-- Reads a member from its first token after the specifiers on. -/
def memberItem (body : BodyParser) (token : Token) (ctx : BodyContext)
    (visible accept : Bool) : Parser (List Member) := do
  if token.kind = .tilde then
    discard (expect .ident .destructorName)
    throughMethodTail (← next)
    return []
  let constructs ← constructorAhead token ctx
  match token.reserved? with
  | some .structWord => innerRecord body .structKey token ctx visible accept
  | some .classWord => innerRecord body .classKey token ctx visible accept
  | some .unionWord => innerRecord body .unionKey token ctx visible accept
  | some .enumWord => innerEnum token ctx accept
  | some .usingWord | some .typedefWord | some .staticAssertWord =>
    discard throughStatement
    return []
  | some .friendWord =>
    discard throughDeclaration
    return []
  | some .templateWord =>
    let opening ← expect .lt .templateList
    discard (throughAngles opening)
    discard throughDeclaration
    return []
  | _ =>
    if constructs then
      throughMethodTail (← next)
      return []
    else memberDeclaration token token accept ctx

/-- Reads an item of a body that starts with a name, `::` or `~`: the visibility after it and
the members it gives. -/
def bodyItem (body : BodyParser) (first : Token) (ctx : BodyContext) (visible : Bool) :
    Parser (Bool × List Member) := do
  match first.reserved?.bind ReservedWord.visibility? with
  | some selected =>
    discard (expect .colon .specifierColon)
    return (selected, [])
  | none =>
    let (isStatic, token) ← memberSpecifiers first
    return (visible, ← memberItem body token ctx visible (visible && !isStatic))

/-- Reads further items of a body after those that gave `members`. -/
def itemsEnd (body : BodyParser) (task : BodyTask) (visible : Bool) (members : List Member) :
    Parser (Token × List Member) :=
  recur (fun again (visible, members) => do
    let token ← next
    if token.kind = .rBrace ∧ token.depth = task.opening.depth then return (token, members)
    match token.kind with
    | .semicolon => again (visible, members)
    | .ident | .colonColon | .tilde =>
      let (visible, more) ← bodyItem body token task.context visible
      again (visible, members ++ more)
    | .lBracket =>
      discard (throughBrackets token)
      again (visible, members)
    | _ => fail token (.unexpected token (.bodyOf task.context.qualifiedName)))
    (visible, members)

/-- Reads the items of a body up to its closing brace. -/
def bodyItems (body : BodyParser) : BodyParser := fun task => itemsEnd body task task.visible []

/-- Reads a body and the bodies in it. -/
def recordMembers : BodyParser := recur bodyItems

end ReflectionTables.Parsing
