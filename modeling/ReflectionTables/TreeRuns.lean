import ReflectionTables.FileArtifacts
import ReflectionTables.FileTrees
import ReflectionTables.RunSettings
/-!
# A run over a tree of files

A run over a file tree: choose the files below the root, read all of them, and only then write the
artifacts that changed and the aggregate. What was written stays when a later write fails.
-/

namespace ReflectionTables.Trees

open Text Reflected Parsing Generation

inductive ReadFault
  | system (error : SystemError)
  | notText
  /-- The walk below a path could not begin. -/
  | walk (path : SlashPath) (error : SystemError)
deriving DecidableEq, Repr

def ReadFault.message : ReadFault → String
  | .system error => error.message
  | .notText => "stream did not contain valid UTF-8"
  | .walk path error => s!"IO error for operation on {path.text}: {error.message}"

def ReadFault.causes : ReadFault → List String
  | .system _ | .notText => []
  | .walk _ error => [error.message]

inductive RunFailure
  | system (path : SlashPath) (fault : ReadFault)
  | rejected (path : String) (error : ParseError)
  | stopped (failure : Failure)
deriving DecidableEq, Repr

def RunFailure.message : RunFailure → String
  | .system path fault => s!"{path.text}: {fault.message}"
  | .rejected path error => s!"{path}: {error.message}"
  | .stopped _ => "stopped"

def RunFailure.causes : RunFailure → List String
  | .system _ fault => fault.message :: fault.causes
  | .rejected _ error => [error.message]
  | .stopped _ => []

abbrev TreeAction := ExceptT RunFailure (StateM FileTree)

/-- A file that was chosen: the names on the way to it from the root of the scan. -/
structure ChosenFile where
  names : Key
  role : FileRole
deriving DecidableEq, Repr

/-- The path of a file below the root; the root itself has the empty path. -/
def relativePath (names : Key) : SlashPath := ⟨if names = [] then [""] else names⟩

/-- How written text refers to a file. -/
def ChosenFile.logicalPath (file : ChosenFile) : String :=
  SlashPath.logical (relativePath file.names).components

/-- The output directory seen from the root, if it lies inside. -/
def Settings.skipped? (settings : Settings) : Option (List SlashPath.Component) :=
  match settings.outDir.below? settings.root with
  | some components => some components
  | none =>
    if !settings.outDir.isAbsolute && settings.root.components == [.here] then
      some settings.outDir.components
    else none

/-- Whether the walk leaves out a node, or a directory above it. -/
def Settings.skips (settings : Settings) (names : Key) : Bool :=
  match settings.skipped? with
  | some components => components.isPrefixOf (names.map .name)
  | none => false

/-- The path at which the walk meets a node. -/
def Settings.walkPath (settings : Settings) (names : Key) : SlashPath :=
  if names = [] then settings.root else settings.root.join (relativePath names)

def Settings.choose? (settings : Settings) (names : Key) (node : Node) : Option ChosenFile :=
  match node with
  | .directory => none
  | .file _ =>
    if settings.skips names then none
    else (roleOf? (settings.walkPath names)).map (⟨names, ·⟩)

/-- The files below the root that have a role, in the order of the walk. -/
def chosenFiles (tree : FileTree) (settings : Settings) :
    Except RunFailure (List ChosenFile) :=
  match tree.resolve settings.root with
  | .error e => .error (.system settings.root (.walk settings.root e))
  | .ok key => .ok ((tree.below key).filterMap fun (names, node) => settings.choose? names node)

def textOf? (bytes : List UInt8) : Option String := String.fromUTF8? ⟨bytes.toArray⟩

def FileTree.readText (tree : FileTree) (path : SlashPath) : Except ReadFault String :=
  match tree.readBytes path with
  | .error e => .error (.system e)
  | .ok bytes =>
    match textOf? bytes with
    | some text => .ok text
    | none => .error .notText

/-- Reads a chosen file and writes its artifact as text. -/
def outputOf (tree : FileTree) (settings : Settings) (file : ChosenFile) :
    Except RunFailure FileOutput := do
  let path := settings.root.join (relativePath file.names)
  match tree.readText path with
  | .error fault => throw (.system path fault)
  | .ok source =>
    match FileOutput.of file.logicalPath source file.role settings.style with
    | .ok output => return output
    | .error (.rejected error) => throw (.rejected file.logicalPath error)
    | .error failure => throw (.stopped failure)

/-- Writes a text to a path unless it is there already; the answer is whether it was written. -/
def writeIfChanged (path : SlashPath) (content : String) : TreeAction Bool := do
  if let .ok existing := (← get).readText path then
    if existing = content then return false
  if let some parent := path.parent? then
    let (answer, tree) := (← get).makeDirectories parent
    set tree
    if let .error e := answer then throw (.system path (.system e))
  match (← get).writeBytes path (bytesOf content) with
  | .ok tree =>
    set tree
    return true
  | .error e => throw (.system path (.system e))

structure Summary where
  files : Nat
  /-- The artifacts that changed, the aggregate included. -/
  written : Nat
  remarks : List Remark
deriving DecidableEq, Repr

/-- How the aggregate includes an artifact: from the output directory if it lies there. -/
def Settings.includePath (settings : Settings) (artifact : SlashPath) : String :=
  SlashPath.logical ((artifact.below? settings.outDir).getD artifact.components)

/-- Writes artifacts in order, counts those that changed and collects the aggregate. -/
def writeArtifacts (settings : Settings) :
    List (ChosenFile × FileOutput) → Nat → Aggregate → TreeAction (Nat × Aggregate)
  | [], written, aggregate => return (written, aggregate)
  | (file, output) :: rest, written, aggregate => do
    let artifact := settings.artifactPath (relativePath file.names) file.role
    let changed ← writeIfChanged artifact output.text
    writeArtifacts settings rest (written + changed.toNat)
      (aggregate.add output (settings.includePath artifact))

/-- Reads every chosen file and writes the artifacts and the aggregate. If a file cannot be
read, nothing is written. -/
def run (settings : Settings) : TreeAction Summary := do
  let tree ← get
  let files ← liftExcept (chosenFiles tree settings)
  let outputs ← liftExcept (files.mapM (outputOf tree settings))
  let (written, aggregate) ← writeArtifacts settings (files.zip outputs) 0 {}
  let changed ← writeIfChanged settings.aggregate aggregate.text
  return {
    files := files.length
    written := written + changed.toNat
    remarks := outputs.flatMap (·.remarks) }
where
  liftExcept {α : Type} : Except RunFailure α → TreeAction α
    | .ok a => pure a
    | .error e => throw e

end ReflectionTables.Trees
