import ReflectionTables.ReflectionText
import ReflectionTables.SlashPaths
/-!
# The settings of a run

The settings of a run, the role of a file by its name, and where its artifact goes.
-/

namespace ReflectionTables.Trees

open Reflected Generation

structure Settings where
  /-- The tree that is scanned. -/
  root : SlashPath := .ofText "."
  /-- The directory of the artifacts, which repeats the tree below the root. -/
  outDir : SlashPath := .ofText "generated"
  aggregate : SlashPath := .ofText "generated/reflection_decls.h"
  style : HeaderStyle := {}
deriving DecidableEq, Repr

def defaultAggregate (outDir : SlashPath) : SlashPath := outDir.join (.ofText "reflection_decls.h")

def artifactSuffix : FileRole → String
  | .header => ".generated.h"
  | .source => ".symbols.h"

/-- The role of a file by its name. Artifacts have none. -/
def roleOf? (path : SlashPath) : Option FileRole := do
  let name ← path.fileName?
  if name.endsWith (artifactSuffix .header) || name.endsWith (artifactSuffix .source) then none
  else
    let extension ← path.extension?
    if ["h", "hh", "hpp", "hxx", "inl"].contains extension then some .header
    else if ["c", "cc", "cpp", "cxx"].contains extension then some .source
    else none

/-- Where the artifact of a file goes that lies at a path below the root. -/
def Settings.artifactPath (settings : Settings) (relative : SlashPath) (role : FileRole) :
    SlashPath :=
  settings.outDir.join (relative.withFileName (relative.stem?.getD "" ++ artifactSuffix role))

end ReflectionTables.Trees
