import CommentDensity.Toml.Syntax

/-!
# CommentDensity.Toml.Document

The table that a TOML text writes.

The statements are carried out in order.  An assignment goes into the table
that the last header opened, or into the table of the whole text in front of
the first header.
-/

namespace CommentDensity.Toml

/-- A table, and the keys that lead to the one which is open. -/
structure Document where
  header : List String
  entries : Entries

namespace Document

/-- The text without a byte order mark in front. -/
def trimMark : List Char → List Char
  | '\uFEFF' :: cs => cs
  | cs => cs

/-- Carries out a statement. -/
def take? (d : Document) : Statement → Option Document
  | .assign a => do
    let change := fun (_ : Origin) (es : Entries) => es.take? a
    return { d with entries := ← d.entries.changeAt .header change d.header .header }
  | .table path key => do
    return ⟨path ++ [key], ← d.entries.open? path key⟩
  | .row path key => do
    return ⟨path ++ [key], ← d.entries.addRow? path key⟩

end Document

/-- The table that a text writes, if it is TOML. -/
def read? (text : String) : Option Entries := do
  let cs := Document.trimMark text.toList
  let limit := cs.length + 1
  let statements ← statements? limit limit cs
  return (← statements.foldlM Document.take? ⟨[], []⟩).entries

end CommentDensity.Toml
