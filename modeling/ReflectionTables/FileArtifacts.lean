import ReflectionTables.FileItems
import ReflectionTables.ReflectionText
/-!
# The artifact of a file and the aggregate

The artifact of one file and the aggregate of all files. Headers and implementation files add to
separate parts of the aggregate, so only the order within each part matters.
-/

namespace ReflectionTables.Generation

open Reflected Parsing

structure FileOutput where
  /-- The path by which written text refers to the file. -/
  path : String
  role : FileRole
  text : String
  declarations : List Declaration
  remarks : List Remark
deriving DecidableEq, Repr

/-- Reads a file and writes its artifact. -/
def FileOutput.of (path source : String) (role : FileRole) (style : HeaderStyle) :
    Except Failure FileOutput := do
  let findings ← findingsOf role source
  return {
    path, role
    text :=
      match role with
      | .header => headerText path findings.types style
      | .source => symbolsText findings.externs
    declarations := findings.declarations
    remarks := findings.remarks }

structure Aggregate where
  typeLines : List String := []
  symbolLines : List String := []
deriving DecidableEq, Repr

/-- Adds one file. `artifact` is how the aggregate includes the artifact of an implementation
file; a header is included itself. -/
def Aggregate.add (a : Aggregate) (output : FileOutput) (artifact : String) : Aggregate :=
  match output.role with
  | .header =>
    { a with typeLines := a.typeLines ++ output.declarations.map (declarationLine output.path) }
  | .source => { a with symbolLines := a.symbolLines ++ [includeLine artifact] }

def Aggregate.isEmpty (a : Aggregate) : Bool := a.typeLines.isEmpty && a.symbolLines.isEmpty

def Aggregate.text (a : Aggregate) : String :=
  unlines ("#pragma once" :: (a.typeLines ++ a.symbolLines))

end ReflectionTables.Generation
