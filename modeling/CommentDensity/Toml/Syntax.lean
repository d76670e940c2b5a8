import CommentDensity.Toml.Moment
import CommentDensity.Toml.Table

/-!
# CommentDensity.Toml.Syntax

The grammar of a TOML text: a list of statements, one to a line.

```
path.key = value        gives a key a value
[path.key]              opens a table
[[path.key]]            opens a row of a table
```

Values nest at most `maxDepth` brackets and braces deep, and that depth is
what reading a value recurses on.  All other repetition is bounded by the
length of the text, which every reader here is given as `limit`.
-/

namespace CommentDensity.Toml

/-! ## Keys -/

/-- What a key without quotes is made of. -/
def isKeyChar (c : Char) : Bool := c.isAlphanum || c == '_' || c == '-'

/-- A key without dots. -/
def simpleKey? (cs : List Char) : Option (String × List Char) :=
  if cs.head? = some '"' ∨ cs.head? = some '\'' then lineString? cs
  else
    let (word, rest) := cs.span isKeyChar
    if word = [] then none else some (String.ofList word, rest)

/-- Keys with dots between them, as the last one and those that lead to it. -/
def key? : (limit : Nat) → Reader (List String × String)
  | 0, _ => none
  | limit + 1, cs => do
    let (key, cs) ← simpleKey? cs
    match skipBlanks cs with
    | '.' :: r =>
      let ((path, last), r) ← key? limit (skipBlanks r)
      return ((key :: path, last), r)
    | cs => return (([], key), cs)

/-! ## Values -/

/-- What a number, a boolean, a date or a time is made of. -/
def isWordChar (c : Char) : Bool := c.isAlphanum || ['_', '+', '-', '.', ':'].contains c

/-- The value that a word stands for. -/
def ofWord? (word : List Char) : Option Value :=
  if word = ['t', 'r', 'u', 'e'] then some (.boolean true)
  else if word = ['f', 'a', 'l', 's', 'e'] then some (.boolean false)
  else if Moment.isMoment word then some (.moment (String.ofList word))
  else (Number.ofWord? word).map .number

/-- A value without quotes or brackets.  Only between a date and its time
may there be a space. -/
def word? (cs : List Char) : Option (Value × List Char) :=
  let (word, rest) := cs.span isWordChar
  let more := rest.tail.span isWordChar
  if Moment.isDate word ∧ rest.head? = some ' ' ∧ more.1.head?.any Char.isDigit then
    (ofWord? (word ++ ' ' :: more.1)).map (·, more.2)
  else (ofWord? word).map (·, rest)

/-- A value without brackets. -/
def atom? (cs : List Char) : Option (Value × List Char) :=
  if cs.head? = some '"' ∨ cs.head? = some '\'' then (string? cs).map fun (s, r) => (.string s, r)
  else word? cs

/-- A key and its value. -/
structure Assignment where
  path : List String
  key : String
  value : Value
  deriving Repr

/-- A key, `=` and a value. -/
def assignment? (limit : Nat) (value : Reader Value) : Reader Assignment := fun cs => do
  let ((path, key), cs) ← key? limit cs
  let cs ← expect? '=' (skipBlanks cs)
  let (v, cs) ← value (skipBlanks cs)
  return (⟨path, key, v⟩, cs)

/-- Gives a key its value. -/
def Entries.take? (es : Entries) (a : Assignment) : Option Entries :=
  es.assign? a.path a.key a.value

/-- A value whose brackets and braces are at most `depth` deep. -/
def value? (limit : Nat) : (depth : Nat) → Reader Value
  | depth + 1, '[' :: r => do
    let (items, r) ← series (value? limit depth) ']' limit [] r
    return (.array items, r)
  | depth + 1, '{' :: r => do
    let (parts, r) ← series (assignment? limit (value? limit depth)) '}' limit [] r
    return (.table .inline (← parts.foldlM Entries.take? []), r)
  | _, cs => atom? cs

/-- How deep brackets and braces may nest. -/
def maxDepth : Nat := 80

/-! ## Statements -/

/-- A statement. -/
inductive Statement where
  | assign (a : Assignment)
  | table (path : List String) (key : String)
  | row (path : List String) (key : String)
  deriving Repr

/-- A statement, up to the end of its line. -/
def statement? (limit : Nat) : Reader Statement
  | '[' :: '[' :: r => do
    let ((path, key), r) ← key? limit (skipBlanks r)
    let r ← expect? ']' (← expect? ']' (skipBlanks r))
    return (.row path key, r)
  | '[' :: r => do
    let ((path, key), r) ← key? limit (skipBlanks r)
    let r ← expect? ']' (skipBlanks r)
    return (.table path key, r)
  | cs => do
    let (a, r) ← assignment? limit (value? limit maxDepth) cs
    return (.assign a, r)

/-- The statements in at most `lines` lines. -/
def statements? (limit : Nat) : (lines : Nat) → List Char → Option (List Statement)
  | 0, _ => none
  | lines + 1, cs =>
    match skipBlanks cs with
    | [] => some []
    | c :: r =>
      match lineEnd? (c :: r) with
      | some r => statements? limit lines r
      | none => do
        let (s, r) ← statement? limit (c :: r)
        return s :: (← statements? limit lines (← lineEnd? r))

end CommentDensity.Toml
