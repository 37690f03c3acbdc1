/-!
# Paths of segments between slashes

Paths whose segments are separated by slashes. A path is kept as it was written: the list of its raw
segments, empty ones and dots included. Its components leave out what has no meaning: empty segments
and inner dots.
-/

namespace ReflectionTables.Trees

/-- The segments between the slashes; there is always at least one. -/
structure SlashPath where
  segments : List String
deriving DecidableEq, Repr

namespace SlashPath

def ofText (text : String) : SlashPath :=
  ⟨(text.toList.splitOn '/').map String.ofList⟩

def text (p : SlashPath) : String := "/".intercalate p.segments

inductive Component
  | root
  /-- A dot at the start of a relative path. -/
  | here
  | up
  | name (text : String)
deriving DecidableEq, Repr

def Component.text : Component → String
  | .root => "/"
  | .here => "."
  | .up => ".."
  | .name text => text

def isEmpty (p : SlashPath) : Bool := p.text == ""

def isAbsolute (p : SlashPath) : Bool := p.segments.head? == some "" && p.segments.tail != []

def innerComponent? : String → Option Component
  | "" => none
  | "." => none
  | ".." => some .up
  | name => some (.name name)

def headComponent? (p : SlashPath) (first : String) : Option Component :=
  if p.isAbsolute then some .root
  else if first = "." then some .here
  else innerComponent? first

def components (p : SlashPath) : List Component :=
  match p.segments with
  | [] => []
  | first :: others => (p.headComponent? first).toList ++ others.filterMap innerComponent?

def fileName? (p : SlashPath) : Option String :=
  match p.components.getLast? with
  | some (.name name) => some name
  | _ => none

def trimEnd (segments : List String) : List String :=
  (segments.reverse.dropWhile fun s => (innerComponent? s).isNone).reverse

/-- The path without its last component. The root and the empty path have none. -/
def parent? (p : SlashPath) : Option SlashPath :=
  match p.segments with
  | [] => none
  | first :: others =>
    match trimEnd others with
    | [] =>
      if p.isAbsolute ∨ first = "" then none else some ⟨[""]⟩
    | kept =>
      let others := trimEnd kept.dropLast
      some ⟨if p.isAbsolute ∧ others = [] then ["", ""] else first :: others⟩

/-- A path below another one. An absolute path stands for itself, and joining the empty path
adds a slash. -/
def join (p q : SlashPath) : SlashPath :=
  if q.isAbsolute then q
  else if p.isEmpty then q
  else if p.segments.getLast? = some "" then ⟨p.segments.dropLast ++ q.segments⟩
  else ⟨p.segments ++ q.segments⟩

def withFileName (p : SlashPath) (name : String) : SlashPath :=
  let base := if p.fileName?.isSome then p.parent?.getD p else p
  base.join (ofText name)

/-- A file name cut at its last dot. A dot at the start does not count. -/
def splitName (name : String) : String × Option String :=
  let cs := name.toList
  let extension := (cs.reverse.takeWhile (· != '.')).reverse
  let stem := cs.take (cs.length - extension.length - 1)
  if name = ".." ∨ extension.length = cs.length ∨ stem = [] then (name, none)
  else (String.ofList stem, some (String.ofList extension))

def stem? (p : SlashPath) : Option String := p.fileName?.map fun name => (splitName name).1

def extension? (p : SlashPath) : Option String := p.fileName?.bind fun name => (splitName name).2

def below? (p base : SlashPath) : Option (List Component) :=
  if base.components.isPrefixOf p.components then
    some (p.components.drop base.components.length)
  else none

def logical (components : List Component) : String :=
  "/".intercalate (components.map Component.text)

end SlashPath

end ReflectionTables.Trees
