import CommentDensity.FileTree.Path
import CommentDensity.Number.Count
import CommentDensity.Number.DecimalText

/-!
# CommentDensity.Measure

What a scan finds: the lines and the comments of a file, a directory or a
whole tree, the path they were found at, and their ratio.

The ratio is a binary64 value: both counts are rounded to binary64 and so
is their quotient.  It is zero when there are no lines.  A directory shows
it with two places (`Binary64.hundredths`); a summary writes it so that it
reads back (`Measure.ratioText`).
-/

namespace CommentDensity

/-- Lines and comments found at a path. -/
structure Measure where
  lines : Count
  comments : Count
  root : Path
  deriving DecidableEq, Repr

namespace Measure

/-- Nothing found. -/
def empty (root : Path) : Measure := ⟨0, 0, root⟩

/-- The sums over several measures. -/
def total (root : Path) (ms : List Measure) : Measure where
  lines := Count.sum (ms.map lines)
  comments := Count.sum (ms.map comments)
  root := root

/-- Comments per line. -/
def ratio (m : Measure) : Binary64 :=
  if m.lines = 0 then .zero
  else (Binary64.ofNat m.comments.toNat).div (Binary64.ofNat m.lines.toNat)

/-! ## The ratio as text -/

/-- The least ratio, other than zero, that is written without an exponent. -/
def positionalFrom : Binary64 := .ofQuotient 1 10000

/-- The least ratio that is written with an exponent again. -/
def positionalBelow : Binary64 := .ofNat (Nat.pow 10 16)

/-- The ratio in the fewest digits that read back.  Without lines it is a
bare `0`, and other whole ratios keep one place.  A ratio below `1e-4`, or
from `1e16` up, has an exponent. -/
def ratioText (m : Measure) : String :=
  let x := m.ratio
  if m.lines = 0 then "0"
  else if !x.isZero && (x.lt positionalFrom || positionalBelow.le x) then
    String.ofList x.shortest.scientific
  else if x.isInteger then String.ofList (decimalDigits (x.num / x.den) ++ ['.', '0'])
  else String.ofList x.shortest.positional

/-! ## Lemmas -/

@[simp] theorem total_nil (root : Path) : total root [] = empty root := rfl

/-- Without lines the ratio is zero, whatever the comments. -/
theorem ratio_of_no_lines {m : Measure} (h : m.lines = 0) : m.ratio = .zero := by
  simp [ratio, h]

end Measure

end CommentDensity
