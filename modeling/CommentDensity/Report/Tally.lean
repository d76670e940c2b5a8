import CommentDensity.Number.Digits

/-!
# CommentDensity.Report.Tally

Reading the lines of a report.

A line is read from its end: what follows the last ` ratio:` is the ratio,
and the two counts in front of it are told apart by their names.  What is
left is the name, whatever it looks like.
-/

namespace CommentDensity

/-- What a line with counts is about. -/
inductive Subject where
  /-- A directory; the line names comments first. -/
  | directory
  /-- A job; the line names lines first. -/
  | summary
  deriving DecidableEq, Repr

/-- A line with counts, as it was read. -/
structure Tally where
  subject : Subject
  name : List Char
  lines : Nat
  comments : Nat
  deriving DecidableEq, Repr

namespace Tally

/-- The text behind the first `mark`, which is not empty. -/
def behind? (mark : List Char) : List Char → Option (List Char)
  | [] => none
  | c :: cs =>
    if mark.isPrefixOf (c :: cs) then some ((c :: cs).drop mark.length) else behind? mark cs

/-- The text in front of the last ` ratio:`. -/
def beforeRatio? (line : List Char) : Option (List Char) :=
  (behind? " ratio:".toList.reverse line.reverse).map List.reverse

/-- A count with its name at the end of a text, and the text in front. -/
def lastField? (name : String) (text : List Char) : Option (List Char × Nat) := do
  let (digits, front) := text.reverse.span Char.isDigit
  let n ← readDigits? digits.reverse
  let mark := (" " ++ name ++ ":").toList.reverse
  if mark.isPrefixOf front then return ((front.drop mark.length).reverse, n) else none

/-- Two counts with their names at the end of a text, and the text in front. -/
def lastFields? (first second : String) (text : List Char) : Option (List Char × Nat × Nat) := do
  let (front, n) ← lastField? second text
  let (front, m) ← lastField? first front
  return (front, m, n)

/-- A line with counts, without its end. -/
def ofLine? (line : List Char) : Option Tally := do
  let text ← beforeRatio? line
  match lastFields? "comments" "lines" text, lastFields? "lines" "comments" text with
  | some (name, comments, lines), _ => some ⟨.directory, name, lines, comments⟩
  | none, some (name, lines, comments) => some ⟨.summary, name, lines, comments⟩
  | none, none => none

end Tally

end CommentDensity
