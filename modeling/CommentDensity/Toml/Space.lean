/-!
# CommentDensity.Toml.Space

What stands between the parts of a TOML text: blanks, comments and line
ends.

A comment runs from `#` to the end of its line.  A line ends with `\n` or
`\r\n`; a `\r` alone belongs nowhere.  Within brackets and braces all of
these may stand between two parts (`gap`), elsewhere only blanks may, and a
comment at the end of a line.
-/

namespace CommentDensity.Toml

/-- Takes an `α` off the front of a text and leaves the rest. -/
abbrev Reader (α : Type) := List Char → Option (α × List Char)

/-- A space or a tab. -/
def isBlank (c : Char) : Bool := c == ' ' || c == '\t'

/-- Any character that may stand in a comment or in quotes as it is: no
control character but the tab. -/
def isPlain (c : Char) : Bool := c == '\t' || (' ' ≤ c && c != '\x7f')

/-- The text from its first character on that is not blank. -/
def skipBlanks (cs : List Char) : List Char := cs.dropWhile isBlank

/-- The text behind `c`, if it begins with `c`. -/
def expect? (c : Char) : List Char → Option (List Char)
  | [] => none
  | d :: r => if d = c then some r else none

/-- The text behind the end of the line, which blanks and a comment may
precede. -/
def lineEnd? (cs : List Char) : Option (List Char) :=
  let cs := skipBlanks cs
  let cs := if cs.head? = some '#' then cs.tail.dropWhile isPlain else cs
  match cs with
  | [] => some []
  | '\n' :: r => some r
  | '\r' :: '\n' :: r => some r
  | _ => none

/-- The text from the next part on, behind blanks, comments and line ends;
`commented` says that the text begins in a comment.  There is none if a
comment holds a control character. -/
def gap (commented : Bool) : List Char → Option (List Char)
  | [] => some []
  | '\n' :: r => gap false r
  | '\r' :: '\n' :: r => gap false r
  | c :: r =>
    if commented then if isPlain c then gap true r else none
    else if isBlank c then gap false r
    else if c = '#' then gap true r
    else some (c :: r)

/-- The items up to `close`, with a comma between two of them and, if one
likes, behind the last.  Every item takes a character at least, so that
`limit` items are as many as a text of that length holds. -/
def series (item : Reader α) (close : Char) :
    (limit : Nat) → (before : List α) → Reader (List α)
  | 0, _, _ => none
  | limit + 1, before, cs => do
    match ← gap false cs with
    | [] => none
    | c :: r =>
      if c = close then return (before.reverse, r)
      let (x, cs) ← item (c :: r)
      match ← gap false cs with
      | [] => none
      | c :: r =>
        if c = ',' then series item close limit (x :: before) r
        else if c = close then return ((x :: before).reverse, r)
        else none

/-! ## Lemmas -/

@[simp] theorem skipBlanks_blank (cs : List Char) : skipBlanks (' ' :: cs) = skipBlanks cs := rfl

/-- Nothing is skipped in front of what is not blank. -/
theorem skipBlanks_of_not_blank {c : Char} (h : isBlank c = false) (cs : List Char) :
    skipBlanks (c :: cs) = c :: cs := by
  simp [skipBlanks, h]

@[simp] theorem expect?_self (c : Char) (cs : List Char) : expect? c (c :: cs) = some cs := by
  simp [expect?]

@[simp] theorem lineEnd?_newline (cs : List Char) : lineEnd? ('\n' :: cs) = some cs := by
  simp [lineEnd?, skipBlanks, isBlank]

end CommentDensity.Toml
