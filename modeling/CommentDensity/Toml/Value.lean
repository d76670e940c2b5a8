import CommentDensity.Toml.Number

/-!
# CommentDensity.Toml.Value

The values of a TOML text.

A table remembers how it came to be, since that decides what may still be
put into it (`CommentDensity.Toml.Table`).
-/

namespace CommentDensity.Toml

/-- How a table came to be. -/
inductive Origin where
  /-- Between braces. -/
  | inline
  /-- Under a header of its own. -/
  | header
  /-- On the way to a table with a header. -/
  | passed
  /-- On the way to a value with a dotted key. -/
  | dotted
  deriving DecidableEq, Repr

/-- A value. -/
inductive Value where
  | string (s : String)
  | number (n : Number)
  | boolean (b : Bool)
  /-- A date, a time or both, as written. -/
  | moment (text : String)
  | array (items : List Value)
  | table (origin : Origin) (entries : List (String × Value))
  /-- Tables under headers in double brackets, one for each. -/
  | rows (tables : List (List (String × Value)))
  deriving Repr

/-- What a table holds: values by their keys, no key twice. -/
abbrev Entries := List (String × Value)

namespace Value

mutual

/-- Whether a machine can hold every number in a value. -/
def fits : Value → Bool
  | .number n => n.fits
  | .array items => itemsFit items
  | .table _ entries => entriesFit entries
  | .rows tables => rowsFit tables
  | .string _ => true
  | .boolean _ => true
  | .moment _ => true

/-- Whether this is so in every value of a list. -/
def itemsFit : List Value → Bool
  | [] => true
  | v :: vs => v.fits && itemsFit vs

/-- Whether this is so in every entry. -/
def entriesFit : List (String × Value) → Bool
  | [] => true
  | (_, v) :: es => v.fits && entriesFit es

/-- Whether this is so in every row. -/
def rowsFit : List (List (String × Value)) → Bool
  | [] => true
  | es :: rest => entriesFit es && rowsFit rest

end

/-- The text of a string. -/
def string? : Value → Option String
  | .string s => some s
  | _ => none

/-- The truth value of a boolean. -/
def boolean? : Value → Option Bool
  | .boolean b => some b
  | _ => none

/-- The items of an array. -/
def items? : Value → Option (List Value)
  | .array items => some items
  | _ => none

end Value

end CommentDensity.Toml
