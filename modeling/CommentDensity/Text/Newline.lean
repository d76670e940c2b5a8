/-!
# CommentDensity.Text.Newline

Line ends.  A text ends its lines with `\n`, with `\r\n` or with `\r`
alone, in any mixture; nothing else (form feed, `U+0085`, `U+2028`) ends a
line.

* `normalize` writes every line end as `\n`.
* `lineCount` counts the lines of normalized text: the line ends, and one
  more for a last line that has none.

`normalize` is a right fold, so a text of any length is read in one pass
and constant stack.  `normalize_cons` is its rule, one character at a time.
-/

namespace CommentDensity.Newline

/-- Puts `c` before a text: `next` is the character that follows it in the
source, `out` the normalized rest.  A `\r` before a `\n` is part of that
line end and leaves nothing of its own. -/
def before (c : Char) : Option Char × List Char → Option Char × List Char
  | (next, out) =>
    (some c, if c = '\r' then if next = some '\n' then out else '\n' :: out else c :: out)

/-- The text with every line end written `\n`. -/
def normalize (cs : List Char) : List Char := (cs.foldr before (none, [])).2

theorem foldr_before_fst (cs : List Char) : (cs.foldr before (none, [])).1 = cs.head? := by
  cases cs <;> rfl

@[simp] theorem normalize_nil : normalize [] = [] := rfl

/-- The rule of `normalize`: a `\r` ends a line unless a `\n` follows, which
then ends it. -/
theorem normalize_cons (c : Char) (cs : List Char) :
    normalize (c :: cs) =
      if c = '\r' then if cs.head? = some '\n' then normalize cs else '\n' :: normalize cs
      else c :: normalize cs := by
  rw [← foldr_before_fst]; rfl

/-- Text without `\r` is normalized already. -/
theorem normalize_eq_self {cs : List Char} (h : '\r' ∉ cs) : normalize cs = cs := by
  induction cs with
  | nil => rfl
  | cons c cs ih =>
    rw [List.mem_cons, not_or] at h
    rw [normalize_cons, if_neg (Ne.symm h.1), ih h.2]

/-- Normalized text holds no `\r`. -/
theorem cr_notMem_normalize (cs : List Char) : '\r' ∉ normalize cs := by
  induction cs with
  | nil => simp
  | cons c cs ih =>
    rw [normalize_cons]
    split
    · split
      · exact ih
      · simp [ih]
    · next h => simp [ih, Ne.symm h]

/-- How many lines a normalized text has. -/
def lineCount (cs : List Char) : Nat :=
  cs.count '\n' + if cs.getLast?.all (· == '\n') then 0 else 1

@[simp] theorem lineCount_nil : lineCount [] = 0 := rfl

/-- A whole line adds one. -/
theorem lineCount_append_newline (cs ds : List Char) :
    lineCount (cs ++ '\n' :: ds) = cs.count '\n' + 1 + lineCount ds := by
  cases hd : ds.getLast? with
  | none => simp [lineCount, List.getLast?_eq_none_iff.mp hd]
  | some d =>
    have : (cs ++ '\n' :: ds).getLast? = some d := by
      rw [List.getLast?_append, List.getLast?_cons, hd]; rfl
    simp only [lineCount, this, hd, List.count_append, List.count_cons_self]
    omega

end CommentDensity.Newline
