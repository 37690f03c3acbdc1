import ReflectionTables.Tokens
/-!
# Reserved words

Words with a meaning of their own, and what they say about visibility. A word is compared with the
whole text of a name, so a qualified name is never reserved.
-/

namespace ReflectionTables.Scanning

inductive ReservedWord
  | namespaceWord | structWord | classWord | unionWord | enumWord | typedefWord | templateWord
  | usingWord | staticAssertWord | staticWord | externWord | inlineWord | publicWord
  | protectedWord | privateWord | operatorWord | friendWord | virtualWord | explicitWord
  | constexprWord | mutableWord
deriving DecidableEq, Repr

def ReservedWord.table : List (String × ReservedWord) :=
  [ ("namespace", .namespaceWord), ("struct", .structWord), ("class", .classWord),
    ("union", .unionWord), ("enum", .enumWord), ("typedef", .typedefWord),
    ("template", .templateWord), ("using", .usingWord), ("static_assert", .staticAssertWord),
    ("static", .staticWord), ("extern", .externWord), ("inline", .inlineWord),
    ("public", .publicWord), ("protected", .protectedWord), ("private", .privateWord),
    ("operator", .operatorWord), ("friend", .friendWord), ("virtual", .virtualWord),
    ("explicit", .explicitWord), ("constexpr", .constexprWord), ("mutable", .mutableWord) ]

def ReservedWord.ofText? (text : String) : Option ReservedWord := table.lookup text

/-- The word a name token spells. -/
def Token.reserved? (t : Token) : Option ReservedWord :=
  if t.kind = .ident then ReservedWord.ofText? t.text else none

def ReservedWord.visibility? : ReservedWord → Option Bool
  | .publicWord => some true
  | .protectedWord | .privateWord => some false
  | _ => none

def isMethodQualifier (text : String) : Bool :=
  ["const", "volatile", "noexcept", "override", "final", "throw"].contains text

end ReflectionTables.Scanning
