import ReflectionTables.CommandLine
/-!
# The program

It reads the part of the file system that a run can touch into a tree, runs over the tree, and
writes back what changed. Links are left out.
-/

namespace ReflectionTables.CommandLine

open Text Trees

def keyText (key : Key) : String := "/" ++ "/".intercalate key

def keyOfText (text : String) : Key := (SlashPath.ofText text).segments.filter (· != "")

def withAncestors (tree : FileTree) (key : Key) (node : Node) : FileTree :=
  ((List.range key.length).foldl (fun tree n =>
    if n = 0 then tree else tree.insert (key.take n) .directory) tree).insert key node

/-- Adds what lies at a key and below it. -/
partial def load (tree : FileTree) (key : Key) : IO FileTree := do
  let entry : IO.FS.DirEntry := { root := keyText key, fileName := "" }
  match (← entry.root.symlinkMetadata).type with
  | .dir =>
    let mut tree := withAncestors tree key .directory
    for child in ← entry.root.readDir do
      tree ← load tree (key ++ [child.fileName])
    return tree
  | .file =>
    let content ← IO.FS.readBinFile (keyText key)
    return withAncestors tree key (.file content.data.toList)
  | _ => return tree

/-- Adds the directories that a path goes through, and what it leads to. -/
def loadPath (tree : FileTree) (path : SlashPath) (whole : Bool) : IO FileTree := do
  let mut tree := tree
  for n in List.range (path.segments.length + 1) do
    let entry : IO.FS.DirEntry :=
      { root := (SlashPath.mk (path.segments.take n)).text, fileName := "" }
    if n != 0 && (← entry.root.pathExists) then
      let key := keyOfText (← IO.FS.realPath entry.root).toString
      if n = path.segments.length && (whole || !(← entry.root.isDir)) then
        tree ← load tree key
      else tree := withAncestors tree key .directory
  return tree

/-- Writes back the nodes that are new or changed. -/
def store (before after : FileTree) : IO Unit := do
  for (key, node) in after.nodes do
    if before.get? key != some node then
      match node with
      | .directory => IO.FS.createDirAll (keyText key)
      | .file content => IO.FS.writeBinFile (keyText key) ⟨content.toArray⟩

def performOnDisk (given : Given) : IO Printed := do
  let settings := given.settings
  let mut tree := FileTree.empty (keyOfText (← IO.currentDir).toString)
  tree ← loadPath tree settings.root true
  tree ← loadPath tree settings.outDir true
  tree ← loadPath tree settings.aggregate false
  let (printed, after) := perform given tree
  store tree after
  return printed

end ReflectionTables.CommandLine

open ReflectionTables.CommandLine in
def main (args : List String) : IO UInt32 := do
  let printed ←
    match Request.ofArguments args with
    | .run given => performOnDisk given
    | _ => pure (execute args (.empty [])).1
  (← IO.getStdout).putStr printed.stdout
  (← IO.getStderr).putStr printed.stderr
  return UInt32.ofNat printed.code
