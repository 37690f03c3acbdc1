import ReflectionTables.BracketSkipping
/-!
# Enumerations

What may follow the word `enum`, and the list of enumerators. Values are gone through and never
evaluated. The terminator after the closing brace is left to the caller.
-/

namespace ReflectionTables.Parsing

open Scanning Reflected

/-- Goes through the value of an enumerator; the answer is whether it ended the body. -/
def throughEnumeratorValue (opening : Token) : Parser Bool :=
  loop fun again => do
    let token ← next
    match token.kind with
    | .comma => return false
    | .rBrace => if token.depth = opening.depth then return true else again
    | .lParen =>
      discard (throughParens token)
      again
    | .lBrace =>
      discard (throughBrace token)
      again
    | _ => again

/-- The names of the enumerators up to the brace that closes `opening`. -/
def enumeratorNames (opening : Token) : Parser (List String) :=
  recur (fun again (names : List String) => do
    let token ← next
    if token.kind = .rBrace ∧ token.depth = opening.depth then return names
    if token.kind ≠ .ident then fail token (.expected .enumeratorName token)
    let names := names ++ [token.text]
    let after ← next
    match after.kind with
    | .comma => again names
    | .rBrace =>
      if after.depth = opening.depth then return names
      else fail after (.expected .enumeratorSeparator after)
    | .eq => if ← throughEnumeratorValue opening then return names else again names
    | _ => fail after (.expected .enumeratorSeparator after)) []

inductive EnumForm
  /-- A declaration without a body, its semicolon delivered. -/
  | declared
  /-- A body without a name, delivered. -/
  | anonymous
  /-- A body with a name, delivered. -/
  | named (name : Token)
  /-- A name used as a type. -/
  | elaborated (name : Token)
deriving DecidableEq, Repr

def throughUnderlyingType : Parser Token :=
  loop fun again => do
    let token ← next
    if token.kind = .lBrace ∨ token.kind = .semicolon then return token
    again

/-- Reads the body of a named enumeration. In a header it is reflected, unless its name depends
on the parameters of an enclosing type. -/
def enumBody (name opening : Token) (dependent : Bool) : Parser Unit := do
  if (← roleOfFile) = .source then discard (throughBrace opening)
  else
    enter name.text opening
    let qualified ← enclosingName
    noteDeclaration ⟨.enumeration, qualified⟩
    let enumerators ← enumeratorNames opening
    if dependent then remark (.notReflected qualified)
    else noteType (.enumeration ⟨qualified, enumerators⟩)

def afterUnderlyingType (token : Token) : Parser Token :=
  if token.kind = .colon then throughUnderlyingType else return token

/-- Reads what follows the word `enum`. -/
def enumAfterWord (dependent : Bool) : Parser EnumForm := do
  let word ← next
  let first ← nextIf (word.isWord "class" || word.isWord "struct") word
  let token ← nextIf (first.kind == .ident) first
  let token ← afterUnderlyingType token
  if first.kind = .ident then
    match token.kind with
    | .semicolon => return .declared
    | .lBrace =>
      enumBody first token dependent
      return .named first
    | _ =>
      putBack token
      return .elaborated first
  else if token.kind = .lBrace then
    discard (throughBrace token)
    return .anonymous
  else fail token (.expected .enumName token)

end ReflectionTables.Parsing
