import CommentDensity.Number.Binary64
import CommentDensity.Number.Digits

/-!
# CommentDensity.Number.Shortest

The shortest decimal that reads back as a given binary64 value.

`x.reads c p` says that the decimal `c · 10^p` reads as `x`, i.e. that it
lies between the midpoints to the neighbours of `x`, and on a midpoint only
if the significand of `x` is even, as a tie goes to even.

With `k` significant digits, the decimals next to `x` are the two on the
grid of its `k`-th digit.  The first `k` with one of them reading as `x` is
taken; when both do, the nearer one, and of two equally near the upper one.
Seventeen digits are always enough.
-/

namespace CommentDensity

/-- The decimal `digits · 10^exponent`. -/
structure Decimal where
  digits : Nat
  exponent : Int
  deriving DecidableEq, Repr

namespace Binary64

/-- Whether the decimal `c · 10^p` reads as `x`.  All is measured in
quarters of the last place of the significand, in which a neighbour's
midpoint is two away — but only one away downwards from a power of two,
where the values below lie twice as close. -/
def reads (x : Binary64) (c : Nat) (p : Int) : Bool :=
  let low := if x.significand = Nat.pow 2 52 then 4 * x.significand - 1 else 4 * x.significand - 2
  let high := 4 * x.significand + 2
  let decimal := 4 * c * Nat.pow 10 p.toNat * Nat.pow 2 (-x.exponent).toNat
  let unit := Nat.pow 2 x.exponent.toNat * Nat.pow 10 (-p).toNat
  if x.significand % 2 = 0 then low * unit ≤ decimal && decimal ≤ high * unit
  else low * unit < decimal && decimal < high * unit

/-- The place of the first digit: `10^(place - 1) ≤ x < 10^place`. -/
def place (x : Binary64) : Int :=
  if x.den ≤ x.num then digitCount (x.num / x.den)
  else 1 - (digitCount ((x.den - 1) / x.num) : Int)

/-- The point `c` of the grid of the `k`-th digit, in `k` digits: the last
point of a decade is the first of the next. -/
def gridPoint (k c : Nat) (p : Int) : Decimal :=
  if c = Nat.pow 10 k then ⟨Nat.pow 10 (k - 1), p + 1⟩ else ⟨c, p⟩

/-- The decimal of `k` digits that reads as `x`, if one does. -/
def withDigits? (x : Binary64) (k : Nat) : Option Decimal :=
  let p := x.place - k
  let scaled := x.num * Nat.pow 10 (-p).toNat
  let unit := x.den * Nat.pow 10 p.toNat
  let below := scaled / unit
  match x.reads below p, x.reads (below + 1) p with
  | true, true =>
    some (gridPoint k (if unit ≤ 2 * (scaled % unit) then below + 1 else below) p)
  | true, false => some (gridPoint k below p)
  | false, true => some (gridPoint k (below + 1) p)
  | false, false => none

/-- The shortest decimal that reads as `x`. -/
def shortest (x : Binary64) : Decimal :=
  ((List.range' 1 17).findSome? x.withDigits?).getD ⟨x.num, 0⟩

end Binary64

end CommentDensity
