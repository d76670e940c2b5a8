/-!
# CommentDensity.Text.Pattern

Patterns over characters, matched leftmost first with greedy repetition.

`Pattern.ends p s` lists the rests that `p` can leave of `s`, the most
preferred first: of two alternatives the left one is preferred, and a
repetition prefers one more round to stopping.  The match at a position is
the head of that list, so the whole preference order — backtracking
included — is in one definition by recursion on the pattern.

`countEnds` counts successive, non-overlapping matches: it goes through a
text from the left and skips each match whole.  It takes any rule that
says where a match at a position ends; `Pattern.count` takes it for a
pattern.
-/

namespace CommentDensity

/-- A set of characters. -/
inductive CharSet where
  /-- This character alone. -/
  | only (c : Char)
  /-- Every character but these. -/
  | noneOf (cs : List Char)
  deriving DecidableEq, Repr

/-- Membership. -/
def CharSet.has : CharSet → Char → Bool
  | .only d, c => c == d
  | .noneOf ds, c => !ds.contains c

/-- A pattern. -/
inductive Pattern where
  /-- One character of a set. -/
  | one (k : CharSet)
  /-- The first, then the second. -/
  | seq (p q : Pattern)
  /-- The first if it leads to a match, else the second. -/
  | alt (p q : Pattern)
  /-- As many rounds as lead to a match, none included. -/
  | star (p : Pattern)
  deriving DecidableEq, Repr

namespace Pattern

/-- At least one round. -/
def plus (p : Pattern) : Pattern := .seq p (.star p)

/-- A character itself. -/
def char (c : Char) : Pattern := .one (.only c)

/-- What any number of rounds leave of a text, more rounds first.  A round
takes at least one character, so `fuel` rounds are enough for a text of
that length. -/
def starEnds (round : List Char → List (List Char)) : Nat → List Char → List (List Char)
  | 0, s => [s]
  | fuel + 1, s =>
    ((round s).filter fun r => r.length < s.length).flatMap (starEnds round fuel) ++ [s]

/-- What the pattern can leave of a text that it matches a front of, the
preferred match first. -/
def ends : Pattern → List Char → List (List Char)
  | .one _, [] => []
  | .one k, c :: s => if k.has c then [s] else []
  | .seq p q, s => (p.ends s).flatMap q.ends
  | .alt p q, s => p.ends s ++ q.ends s
  | .star p, s => starEnds p.ends s.length s

/-- What the preferred match at the front of a text leaves of it. -/
def rest? (p : Pattern) (s : List Char) : Option (List Char) := (p.ends s).head?

end Pattern

/-! ## Successive matches -/

/-- How many matches a pass from the left finds, when `rest?` says what a
match at the front of a text leaves of it.  A match takes at least one
character; a rule that leaves more than that is held to be no match. -/
def countEnds (rest? : List Char → Option (List Char)) : List Char → Nat
  | [] => 0
  | c :: s =>
    match rest? (c :: s) with
    | some r => if r.length ≤ s.length then countEnds rest? r + 1 else countEnds rest? s
    | none => countEnds rest? s
termination_by s => s.length

@[simp] theorem countEnds_nil (f : List Char → Option (List Char)) : countEnds f [] = 0 := by
  simp [countEnds]

/-- A position where no match starts is passed over. -/
theorem countEnds_of_none {f : List Char → Option (List Char)} (h : f (c :: s) = none) :
    countEnds f (c :: s) = countEnds f s := by
  simp [countEnds, h]

/-- A match is counted, and the pass goes on behind it. -/
theorem countEnds_of_some {f : List Char → Option (List Char)} (h : f (c :: s) = some r)
    (hr : r.length ≤ s.length) : countEnds f (c :: s) = countEnds f r + 1 := by
  simp [countEnds, h, hr]

/-- The number of successive, non-overlapping matches of the pattern. -/
def Pattern.count (p : Pattern) (s : List Char) : Nat := countEnds p.rest? s

end CommentDensity
