import ReflectionTables.SlashPaths
/-!
# Trees of directories and files

A tree of directories and files without links, and the calls of an operating system on it. A node is
found by its key, the names on the way from the root of the tree. Paths are resolved from the
working directory, one segment after another.
-/

namespace ReflectionTables.Trees

abbrev Key := List String

inductive Node
  | directory
  | file (content : List UInt8)
deriving DecidableEq, Repr

inductive SystemError
  | notFound
  | exists
  | notDirectory
  | isDirectory
deriving DecidableEq, Repr

def SystemError.message : SystemError → String
  | .notFound => "No such file or directory (os error 2)"
  | .exists => "File exists (os error 17)"
  | .notDirectory => "Not a directory (os error 20)"
  | .isDirectory => "Is a directory (os error 21)"

/-- The order in which a walk meets keys: a directory before what lies in it, and siblings by
name. -/
def keyLT : Key → Key → Bool
  | [], [] => false
  | [], _ :: _ => true
  | _ :: _, [] => false
  | a :: as, b :: bs => a < b || (a == b && keyLT as bs)

structure FileTree where
  /-- The nodes below the root of the tree, in the order of their keys. -/
  nodes : List (Key × Node)
  /-- The key of the working directory. -/
  cwd : Key
deriving DecidableEq, Repr

def FileTree.get? (tree : FileTree) (key : Key) : Option Node :=
  if key = [] then some .directory else tree.nodes.lookup key

def insertNode (key : Key) (node : Node) : List (Key × Node) → List (Key × Node)
  | [] => [(key, node)]
  | (k, n) :: rest =>
    if k = key then (key, node) :: rest
    else if keyLT key k then (key, node) :: (k, n) :: rest
    else (k, n) :: insertNode key node rest

def FileTree.insert (tree : FileTree) (key : Key) (node : Node) : FileTree :=
  { tree with nodes := insertNode key node tree.nodes }

def FileTree.erase (tree : FileTree) (key : Key) : FileTree :=
  { tree with nodes := tree.nodes.filter (·.1 != key) }

def FileTree.empty (cwd : Key) : FileTree :=
  (List.range cwd.length).foldl (fun tree n => tree.insert (cwd.take (n + 1)) .directory)
    { nodes := [], cwd }

def FileTree.follow (tree : FileTree) (key : Key) : List String → Except SystemError Key
  | [] => .ok key
  | segment :: segments =>
    match tree.get? key with
    | none => .error .notFound
    | some (.file _) => .error .notDirectory
    | some .directory =>
      if segment = "" ∨ segment = "." then tree.follow key segments
      else if segment = ".." then tree.follow key.dropLast segments
      else
        let key := key ++ [segment]
        match tree.get? key with
        | none => .error .notFound
        | some _ => tree.follow key segments

/-- Where a path starts, and the segments that remain to be followed. -/
def FileTree.start (tree : FileTree) (path : SlashPath) : Key × List String :=
  if path.isAbsolute then ([], path.segments.tail) else (tree.cwd, path.segments)

/-- The key of an existing node. -/
def FileTree.resolve (tree : FileTree) (path : SlashPath) : Except SystemError Key :=
  if path.isEmpty then .error .notFound
  else
    let (key, segments) := tree.start path
    tree.follow key segments

def FileTree.isDirectory (tree : FileTree) (path : SlashPath) : Bool :=
  match tree.resolve path with
  | .ok key => tree.get? key == some .directory
  | .error _ => false

def FileTree.readBytes (tree : FileTree) (path : SlashPath) :
    Except SystemError (List UInt8) := do
  let key ← tree.resolve path
  match tree.get? key with
  | some (.file content) => .ok content
  | some .directory => .error .isDirectory
  | none => .error .notFound

/-- Where a path would put a new entry. -/
structure Slot where
  directory : Key
  /-- The name of the entry; a path that ends in dots or at the root has none. -/
  name? : Option String
  /-- Whether slashes follow the name. -/
  slashed : Bool

/-- The place that a path names in an existing directory. -/
def FileTree.slot (tree : FileTree) (path : SlashPath) : Except SystemError Slot := do
  if path.isEmpty then throw .notFound
  let (key, segments) := tree.start path
  let kept := (segments.reverse.dropWhile (· == "")).reverse
  let slashed := kept.length < segments.length
  match kept.getLast? with
  | none => return ⟨key, none, slashed⟩
  | some last =>
    let directory ← tree.follow key kept.dropLast
    match tree.get? directory with
    | some .directory =>
      if last = "." ∨ last = ".." then return ⟨directory, none, slashed⟩
      else return ⟨directory, some last, slashed⟩
    | some (.file _) => throw .notDirectory
    | none => throw .notFound

def FileTree.makeDirectory (tree : FileTree) (path : SlashPath) :
    Except SystemError FileTree := do
  let slot ← tree.slot path
  match slot.name? with
  | none => throw .exists
  | some name =>
    let key := slot.directory ++ [name]
    match tree.get? key with
    | some _ => throw .exists
    | none => return tree.insert key .directory

/-- Writes a file, which is made if it is missing. -/
def FileTree.writeBytes (tree : FileTree) (path : SlashPath) (content : List UInt8) :
    Except SystemError FileTree := do
  let slot ← tree.slot path
  match slot.name? with
  | none => throw .isDirectory
  | some name =>
    let key := slot.directory ++ [name]
    if slot.slashed ∨ tree.get? key = some .directory then throw .isDirectory
    return tree.insert key (.file content)

/-- Makes a directory and at most `levels` of those above it. -/
def FileTree.makeWithin (tree : FileTree) (path : SlashPath) :
    Nat → Except SystemError Unit × FileTree
  | 0 => (.error .notFound, tree)
  | levels + 1 =>
    if path.isEmpty then (.ok (), tree)
    else
      let retry (tree : FileTree) : Except SystemError Unit × FileTree :=
        match tree.makeDirectory path with
        | .ok tree => (.ok (), tree)
        | .error e => if tree.isDirectory path then (.ok (), tree) else (.error e, tree)
      match tree.makeDirectory path, path.parent? with
      | .error .notFound, some parent =>
        match tree.makeWithin parent levels with
        | (.ok (), tree) => retry tree
        | failed => failed
      | _, _ => retry tree

/-- Makes a directory and those above it that are missing. The ones that were made stay when a
later one cannot be made. -/
def FileTree.makeDirectories (tree : FileTree) (path : SlashPath) :
    Except SystemError Unit × FileTree :=
  tree.makeWithin path (path.components.length + 1)

/-- The nodes at and below a key, in the order of a walk, with the names from the key on. -/
def FileTree.below (tree : FileTree) (key : Key) : List (Key × Node) :=
  ((([], .directory) :: tree.nodes).filter fun (k, _) => key.isPrefixOf k).map
    fun (k, node) => (k.drop key.length, node)

end ReflectionTables.Trees
