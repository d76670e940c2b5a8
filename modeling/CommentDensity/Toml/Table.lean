import CommentDensity.Toml.Value

/-!
# CommentDensity.Toml.Table

What may be put into a table, and where.

A path of keys leads down from table to table, and makes the tables that
are missing.  It leads into the last row where a key has rows, but never
into a table between braces.  A dotted key, moreover, never leads through a
table that has a header of its own.

No key is given a value twice.  A header may claim a table once, if so far
it was only passed on the way to others; a table made by dotted keys takes
entries by dotted keys alone.
-/

namespace CommentDensity.Toml.Entries

/-- The entries with `value` in the place of the value of `key`. -/
def replace (key : String) (value : Value) (es : Entries) : Entries :=
  es.map fun e => if e.1 = key then (key, value) else e

/-- The entries with one more, whose key is new. -/
def add? (key : String) (value : Value) (es : Entries) : Option Entries :=
  if (es.lookup key).isSome then none else some (es ++ [(key, value)])

/-- What leads down a path. -/
inductive Guide where
  | header
  | dottedKey
  deriving DecidableEq, Repr

/-- The origin of tables that are made on the way. -/
def Guide.origin : Guide → Origin
  | .header => .passed
  | .dottedKey => .dotted

/-- Whether the way may lead through a table. -/
def Guide.passes : Guide → Origin → Bool
  | _, .inline => false
  | .dottedKey, .header => false
  | _, _ => true

/-- Changes the table at the end of a path; `origin` is that of `es`. -/
def changeAt (guide : Guide) (change : Origin → Entries → Option Entries) :
    (path : List String) → (origin : Origin) → (es : Entries) → Option Entries
  | [], origin, es => change origin es
  | key :: path, _, es =>
    match es.lookup key with
    | none => do
      let inner ← changeAt guide change path guide.origin []
      return es ++ [(key, .table guide.origin inner)]
    | some (.table origin inner) => do
      guard (guide.passes origin)
      return es.replace key (.table origin (← changeAt guide change path origin inner))
    | some (.rows rows) => do
      let inner ← changeAt guide change path .header (← rows.getLast?)
      return es.replace key (.rows (rows.dropLast ++ [inner]))
    | some _ => none

/-- Gives the last key of a path a value.  A table that is reached by
dotted keys was made by dotted keys. -/
def assign? (path : List String) (key : String) (value : Value) (es : Entries) : Option Entries :=
  changeAt .dottedKey
    (fun origin inner => if path = [] ∨ origin = .dotted then inner.add? key value else none)
    path .header es

/-- Gives the last key of a path a table of its own. -/
def open? (path : List String) (key : String) (es : Entries) : Option Entries :=
  changeAt .header
    (fun _ inner => match inner.lookup key with
      | none => some (inner ++ [(key, .table .header [])])
      | some (.table .passed entries) => some (inner.replace key (.table .header entries))
      | some _ => none)
    path .header es

/-- Gives the last key of a path one more row. -/
def addRow? (path : List String) (key : String) (es : Entries) : Option Entries :=
  changeAt .header
    (fun _ inner => match inner.lookup key with
      | none => some (inner ++ [(key, .rows [[]])])
      | some (.rows rows) => some (inner.replace key (.rows (rows ++ [[]])))
      | some _ => none)
    path .header es

end CommentDensity.Toml.Entries
