import ReflectionTables.TokenScanner
/-!
# Why a file cannot be read

A scanner fault, or a token that the rules of a body do not allow. Each cause is a constructor, and
its wording stands in one place.
-/

namespace ReflectionTables.Parsing

open Text Scanning

/-- What the rules wanted instead of the token that was found. -/
inductive Expectation
  | specifierColon
  | destructorName
  | templateList
  | callOperatorParen
  | semicolonAfterRecord
  | semicolonAfterEnum
  | semicolonAfterMember (name : String)
  | typeName
  | namespaceName
  | namespaceBody (name : String)
  | enumName
  | enumeratorName
  | enumeratorSeparator
  | memberDeclaration (owner : String)
  | declaratorName
  | parameterList
deriving DecidableEq, Repr

def Expectation.text : Expectation → String
  | .specifierColon => "':' after access specifier"
  | .destructorName => "destructor name"
  | .templateList => "'<' after template"
  | .callOperatorParen => "')' in operator()"
  | .semicolonAfterRecord => "';' after type body"
  | .semicolonAfterEnum => "';' after enum body"
  | .semicolonAfterMember name => s!"';' after member '{name}'"
  | .typeName => "type name"
  | .namespaceName => "namespace name"
  | .namespaceBody name => s!"'\x7b' after namespace {name}"
  | .enumName => "enum name"
  | .enumeratorName => "enumerator name"
  | .enumeratorSeparator => "',', '=' or '\x7d' after enumerator"
  | .memberDeclaration owner => s!"member declaration in {owner}"
  | .declaratorName => "declarator name"
  | .parameterList => "parameter list"

/-- Where a token stands that no rule allows there. -/
inductive Place
  | bodyOf (owner : String)
  | baseClause
  | methodTail
  | initializerList
deriving DecidableEq, Repr

def Place.text : Place → String
  | .bodyOf owner => "in body of " ++ owner
  | .baseClause => "in base clause"
  | .methodTail => "after parameter list"
  | .initializerList => "in initializer list"

inductive ParseFault
  | scan (fault : ScanFault)
  | expected (what : Expectation) (found : Token)
  | unexpected (found : Token) (place : Place)
  | braceBeforeSemicolon
  | unclosedBlock
  | shiftInList
  | unclosedList
  | overclosedList
  | operatorWithoutParameters
deriving DecidableEq, Repr

def ParseFault.message : ParseFault → String
  | .scan fault => fault.message
  | .expected what found => s!"Expected {what.text}, found {found.shown}"
  | .unexpected found place => s!"Unexpected {found.shown} {place.text}"
  | .braceBeforeSemicolon => "Expected ';' before '\x7d'"
  | .unclosedBlock => "Unterminated block at end of file"
  | .shiftInList => "'<<' inside generic argument list"
  | .unclosedList => "Unterminated generic argument list"
  | .overclosedList => "'>>' closes more generic argument lists than are open"
  | .operatorWithoutParameters => "Expected parameter list after operator"

structure ParseError where
  fault : ParseFault
  location : Location
deriving DecidableEq, Repr

def ParseError.message (e : ParseError) : String :=
  s!"Parse error at line {e.location.line}, column {e.location.column}: {e.fault.message}"

/-- The pieces of text that are cut out of a file. -/
inductive Cut
  | token
  | list
  | arity
  | span
  | parameterName
deriving DecidableEq, Repr

inductive Failure
  | rejected (error : ParseError)
  /-- A cut would go through a character. -/
  | aborted (cut : Cut)
  /-- A repetition went on without shortening the input. -/
  | stalled
deriving DecidableEq, Repr

def Failure.ofScan (e : ScanError) : Failure :=
  if e.fault = .splitCharacter then .aborted .token else .rejected ⟨.scan e.fault, e.location⟩

end ReflectionTables.Parsing
