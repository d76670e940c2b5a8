import CommentDensity.Number.Digits
import CommentDensity.Toml.Space

/-!
# CommentDensity.Toml.Moment

Dates and times.

```
2024-02-29                      a date
07:32  07:32:00  07:32:00.5     a time
2024-02-29T07:32:00             a date and a time
2024-02-29 07:32:00+01:00       the same, with its distance from UTC
```

A date is one of the calendar, and a minute may have a leap second.  All
numbers have two digits, but for the year with four and the fraction of a
second with any number.
-/

namespace CommentDensity.Toml.Moment

/-- The number in the first `width` digits. -/
def digits? (width : Nat) : Reader Nat := fun cs =>
  if (cs.take width).length = width then (readDigits? (cs.take width)).map (·, cs.drop width)
  else none

/-- Whether a year has a leap day. -/
def isLeapYear (year : Nat) : Bool := year % 4 == 0 && (year % 100 != 0 || year % 400 == 0)

/-- The days of a month. -/
def daysOf (year month : Nat) : Nat :=
  if month = 2 then if isLeapYear year then 29 else 28
  else if month ∈ [4, 6, 9, 11] then 30
  else 31

/-- The text behind a date. -/
def date? (cs : List Char) : Option (List Char) := do
  let (year, cs) ← digits? 4 cs
  let (month, cs) ← digits? 2 (← expect? '-' cs)
  let (day, cs) ← digits? 2 (← expect? '-' cs)
  guard (1 ≤ month ∧ month ≤ 12 ∧ 1 ≤ day ∧ day ≤ daysOf year month)
  return cs

/-- The text behind the fraction of a second, if there is one. -/
def fraction? : List Char → Option (List Char)
  | '.' :: cs => if (cs.head?.any Char.isDigit) then some (cs.dropWhile Char.isDigit) else none
  | cs => some cs

/-- The text behind the seconds, if there are any. -/
def seconds? : List Char → Option (List Char)
  | ':' :: cs => do
    let (second, cs) ← digits? 2 cs
    guard (second ≤ 60)
    fraction? cs
  | cs => some cs

/-- The text behind hours and minutes. -/
def clock? (cs : List Char) : Option (List Char) := do
  let (hour, cs) ← digits? 2 cs
  let (minute, cs) ← digits? 2 (← expect? ':' cs)
  guard (hour ≤ 23 ∧ minute ≤ 59)
  return cs

/-- The text behind a time. -/
def time? (cs : List Char) : Option (List Char) := do seconds? (← clock? cs)

/-- The text behind a distance from UTC, if there is one. -/
def offset? : List Char → Option (List Char)
  | 'Z' :: cs => some cs
  | 'z' :: cs => some cs
  | '+' :: cs => clock? cs
  | '-' :: cs => clock? cs
  | cs => some cs

/-- Whether a text is a date. -/
def isDate (cs : List Char) : Bool := date? cs == some []

/-- Whether a text is a date, a time, or both. -/
def isMoment (cs : List Char) : Bool :=
  match date? cs with
  | none => time? cs == some []
  | some [] => true
  | some (c :: cs) =>
    (c == 'T' || c == 't' || c == ' ') && (do offset? (← time? cs)) == some []

end CommentDensity.Toml.Moment
