/-!
# What is learnt from a file

What is learnt from one file: the reflected types with their data members, the types and
enumerations that were entered, the declarations to announce as `extern`, and remarks on what was
left out.
-/

namespace ReflectionTables.Reflected

/-- A header is reflected; an implementation file has its free symbols announced. -/
inductive FileRole
  | header
  | source
deriving DecidableEq, Repr

inductive ClassKey
  | structKey
  | classKey
  | unionKey
deriving DecidableEq, Repr

inductive TypeTag
  | record (key : ClassKey)
  | enumeration
deriving DecidableEq, Repr

def TypeTag.text : TypeTag → String
  | .record .structKey => "struct"
  | .record .classKey => "class"
  | .record .unionKey => "union"
  | .enumeration => "enum"

/-- Whether members are visible before the first access specifier. -/
def TypeTag.startsPublic : TypeTag → Bool
  | .record .classKey => false
  | _ => true

inductive MemberKind
  | value
  | pointer
  | reference
  /-- The number of elements is kept as it was written. -/
  | array (arity : String)
deriving DecidableEq, Repr

/-- The expression that counts the elements of a member. -/
def MemberKind.arity : MemberKind → String
  | .array arity => arity
  | _ => "1"

def MemberKind.isArray : MemberKind → Bool
  | .array _ => true
  | _ => false

structure Member where
  name : String
  /-- The declared type, pointer and reference marks included. -/
  typeText : String
  /-- The parameter list of the enclosing type, empty if it has none. -/
  generic : String
  kind : MemberKind
deriving DecidableEq, Repr

structure RecordType where
  key : ClassKey
  /-- The qualified name, arguments included. -/
  name : String
  /-- The parameter list without its angle brackets. -/
  generic : String
  members : List Member
deriving DecidableEq, Repr

structure EnumType where
  name : String
  enumerators : List String
deriving DecidableEq, Repr

inductive ReflectedType
  | record (type : RecordType)
  | enumeration (type : EnumType)
deriving DecidableEq, Repr

/-- A type or enumeration whose body was entered. -/
structure Declaration where
  tag : TypeTag
  name : String
deriving DecidableEq, Repr

inductive Remark
  /-- A span at file scope or a declarator that no rule reads. -/
  | unparsed (text : String)
  /-- A type whose name depends on the parameters of an enclosing type. -/
  | notReflected (name : String)
deriving DecidableEq, Repr

def Remark.text : Remark → String
  | .unparsed text => "// reflgen: unparsed: " ++ text
  | .notReflected name => s!"// reflgen: not reflected: {name} (nested in a generic type)"

inductive Finding
  | type (type : ReflectedType)
  | declaration (declaration : Declaration)
  | announced (declaration : String)
  | remark (remark : Remark)
deriving DecidableEq, Repr

structure Findings where
  /-- In the order in which the bodies closed. -/
  types : List ReflectedType := []
  /-- In the order in which the bodies were entered. -/
  declarations : List Declaration := []
  externs : List String := []
  remarks : List Remark := []
deriving DecidableEq, Repr

def Findings.add (f : Findings) : Finding → Findings
  | .type type => { f with types := f.types ++ [type] }
  | .declaration declaration => { f with declarations := f.declarations ++ [declaration] }
  | .announced declaration => { f with externs := f.externs ++ [declaration] }
  | .remark remark => { f with remarks := f.remarks ++ [remark] }

end ReflectionTables.Reflected
