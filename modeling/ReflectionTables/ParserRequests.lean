import ReflectionTables.ParseFailures
import ReflectionTables.ReflectedTypes
/-!
# Parsers as trees of requests

A parser is a tree of requests. It asks for a token, a scope or a piece of text, and goes on with
the answer, until it is done or asks to be stopped. A machine answers the requests from a state, so
what one parser does on two machines can be compared, and so can the states in between.
-/

namespace ReflectionTables.Parsing

open Scanning Reflected

inductive Request
  | role
  /-- The next token; the end of the text is a failure. -/
  | next
  /-- The next token, or the mark of the end. -/
  | nextOrEnd
  /-- The token `n` places ahead. -/
  | lookAt (n : Nat)
  | putBack (token : Token)
  /-- Enters a scope at an open brace. -/
  | enter (segment : String) (opening : Token)
  /-- The qualified name of the innermost scope. -/
  | enclosingName
  /-- The number of open braces. -/
  | depth
  /-- A bound on the number of tokens to come. -/
  | tokensLeft
  /-- The text between two offsets. -/
  | cut (what : Cut) (start stop : Nat)
  | note (finding : Finding)
  /-- Stops at a token that the rules do not allow. -/
  | reject (token : Token) (fault : ParseFault)
  | abort (what : Cut)
  | stall
deriving DecidableEq, Repr

/-- The type of the answer to a request; there is none to a request to stop. -/
abbrev Request.Answer : Request → Type
  | .role => FileRole
  | .next | .nextOrEnd | .lookAt _ => Token
  | .putBack _ | .enter _ _ | .note _ => Unit
  | .enclosingName | .cut _ _ _ => String
  | .depth | .tokensLeft => Nat
  | .reject _ _ | .abort _ | .stall => Empty

inductive Parser (α : Type)
  | done (a : α)
  | ask (request : Request) (next : request.Answer → Parser α)

namespace Parser

variable {α β γ σ : Type}

def bind : Parser α → (α → Parser β) → Parser β
  | done a, f => f a
  | ask request next, f => ask request fun answer => (next answer).bind f

instance : Monad Parser where
  pure := done
  bind := bind

theorem ask_bind (request : Request) (next : request.Answer → Parser α) (f : α → Parser β) :
    ask request next >>= f = ask request fun answer => next answer >>= f := rfl

theorem bind_done (p : Parser α) : p >>= done = p := by
  induction p with
  | done => rfl
  | ask request next ih => exact congrArg (ask request) (funext ih)

theorem bind_assoc (p : Parser α) (f : α → Parser β) (g : β → Parser γ) :
    p >>= f >>= g = p >>= fun a => f a >>= g := by
  induction p with
  | done => rfl
  | ask request next ih => exact congrArg (ask request) (funext ih)

instance : LawfulMonad Parser :=
  LawfulMonad.mk' Parser bind_done (fun _ _ => rfl) bind_assoc

def request (r : Request) : Parser r.Answer := ask r done

end Parser

/-- How requests are answered from a state. -/
abbrev Machine (σ : Type) := (r : Request) → σ → Except Failure (r.Answer × σ)

namespace Parser

variable {α β σ : Type}

/-- Runs a parser on a machine, from a state. -/
def run (m : Machine σ) : Parser α → σ → Except Failure (α × σ)
  | done a, s => .ok (a, s)
  | ask request next, s =>
    match m request s with
    | .ok (answer, s') => (next answer).run m s'
    | .error failure => .error failure

/-- Repeats a parser while a measure falls. The measure sees how many tokens are left at most.
The second argument of `body` is the parser itself; calling it where the measure is not below
`bound` is a failure. -/
def recurFrom (measure : α → Nat → Nat) (body : (α → Parser β) → α → Parser β) (bound : Nat)
    (a : α) : Parser β :=
  body (fun a' => ask .tokensLeft fun left =>
    if measure a' left < bound then recurFrom measure body (measure a' left) a'
    else ask .stall Empty.elim) a
termination_by bound

/-- Lets a parser call itself where a measure has fallen. -/
def recurBy (measure : α → Nat → Nat) (body : (α → Parser β) → α → Parser β) (a : α) :
    Parser β :=
  ask .tokensLeft fun left => recurFrom measure body (measure a left) a

end Parser

end ReflectionTables.Parsing
