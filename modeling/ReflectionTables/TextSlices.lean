/-!
# Texts by byte offsets

A text is addressed by byte offsets into its UTF-8 encoding. This module holds the slice between two
offsets, which exists only if no character is split, and the line and column of an offset. Only `\n`
ends a line, and columns count bytes.
-/

namespace ReflectionTables.Text

/-- The UTF-8 encoding of a text. -/
def bytesOf (text : String) : List UInt8 := text.toByteArray.data.toList

/-- The text between two byte offsets, if they are in order and neither splits a character. -/
def slice? (text : String) (start stop : Nat) : Option String := do
  let first ← text.pos? ⟨start⟩
  let last ← text.pos? ⟨stop⟩
  if first ≤ last then some (String.extract first last) else none

/-- The character that begins at a byte offset. -/
def charAt? (text : String) (offset : Nat) : Option Char :=
  (text.pos? ⟨offset⟩).bind (·.get?)

structure Location where
  line : Nat
  column : Nat
deriving DecidableEq, Repr, Inhabited

/-- The byte that ends a line. -/
def newline : UInt8 := 10

/-- Offsets past the end of the text stand for its end. -/
def Location.ofOffset (text : String) (offset : Nat) : Location :=
  let before := (bytesOf text).take offset
  { line := before.count newline + 1
    column := (before.reverse.takeWhile (· != newline)).length + 1 }

/-- The order in which a reader meets locations. -/
def Location.Before (a b : Location) : Prop :=
  a.line < b.line ∨ a.line = b.line ∧ a.column < b.column

end ReflectionTables.Text
