import ReflectionTables.BlankCharacters
/-!
# Parameter lists of templates

The parameter list of a template, and the arguments that name its parameters again:
`typename K, int N = 4, typename... Ts` gives `K, N, Ts...`.
-/

namespace ReflectionTables.Parsing

open Text

def nestingStep (c : Char) : Int :=
  if c = '<' ∨ c = '(' ∨ c = '[' ∨ c = '{' then 1
  else if c = '>' ∨ c = ')' ∨ c = ']' ∨ c = '}' then -1
  else 0

/-- The pieces between the commas at depth zero; there is always at least one. The depth counts as a signed
counter of 32 bits does while brackets nest less than `2 ^ 31` deep, and it may fall below zero. -/
def commaPieces (depth : Int) : List Char → List (List Char)
  | [] => [[]]
  | c :: cs =>
    if c = ',' ∧ depth = 0 then [] :: commaPieces depth cs
    else
      match commaPieces (depth + nestingStep c) cs with
      | piece :: pieces => (c :: piece) :: pieces
      | [] => [[c]]

/-- The parameters of a list; a blank last piece is none. -/
def parameterPieces (cs : List Char) : List (List Char) :=
  let pieces := commaPieces 0 cs
  match pieces.getLast? with
  | some last => if last.all isBlank then pieces.dropLast else pieces
  | none => []

def isWordChar (c : Char) : Bool := c.isAlphanum || c == '_'

/-- Whether three dots stand in a row. -/
def hasEllipsis : List Char → Bool
  | '.' :: '.' :: '.' :: _ => true
  | _ :: cs => hasEllipsis cs
  | [] => false

/-- A parameter without its default and the blanks around it. -/
def parameterHead (piece : List Char) : List Char := trimChars (piece.takeWhile (· != '='))

/-- The argument for one parameter: its last word, with dots for a pack. The inner `none` stands
for a parameter without a name. The outer one means that the character before the name takes
more than one byte, so that the name cannot be cut off. -/
def parameterArgument (piece : List Char) : Option (Option (List Char)) :=
  let head := parameterHead piece
  let reversed := head.reverse
  let name := (reversed.takeWhile isWordChar).reverse
  let cuts := (reversed.dropWhile isWordChar).head?.all (·.utf8Size == 1)
  if !cuts then none
  else if name = [] then some none
  else if hasEllipsis head then some (some (name ++ ['.', '.', '.']))
  else some (some name)

/-- The arguments for a parameter list, joined by commas. -/
def arguments? (parameters : String) : Option String := do
  let arguments ← (parameterPieces parameters.toList).mapM parameterArgument
  return ", ".intercalate ((arguments.filterMap id).map String.ofList)

end ReflectionTables.Parsing
