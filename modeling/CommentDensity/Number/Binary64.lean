import CommentDensity.Number.Rounding

/-!
# CommentDensity.Number.Binary64

The binary64 values that a ratio of counts can have: zero, and normal
values `significand · 2^exponent` with a significand of exactly 53 bits.

A quotient of positive numbers is rounded to the nearest such value, ties
to even.  Counts below `2^64` keep every value between `2^-64` and `2^64`,
far from the ends of the format, so neither subnormal values nor infinities
arise and signs are not needed.

Everything here is exact arithmetic on natural numbers; `num` and `den`
give a value as a fraction.
-/

namespace CommentDensity

/-- The value `significand · 2^exponent`. -/
structure Binary64 where
  significand : Nat
  exponent : Int
  deriving DecidableEq, Repr

namespace Binary64

/-- Zero. -/
def zero : Binary64 := ⟨0, 0⟩

/-! ## Values as fractions -/

/-- The numerator of the value. -/
def num (x : Binary64) : Nat := x.significand * Nat.pow 2 x.exponent.toNat

/-- The denominator of the value, a power of two. -/
def den (x : Binary64) : Nat := Nat.pow 2 (-x.exponent).toNat

theorem den_pos (x : Binary64) : 0 < x.den := Nat.two_pow_pos _

/-- The order of the values. -/
protected def le (x y : Binary64) : Bool := x.num * y.den ≤ y.num * x.den

/-- Strictly below. -/
protected def lt (x y : Binary64) : Bool := x.num * y.den < y.num * x.den

/-- Whether the value is zero. -/
def isZero (x : Binary64) : Bool := x.significand == 0

/-- Whether the value is an integer. -/
def isInteger (x : Binary64) : Bool := x.num % x.den == 0

/-! ## Rounding -/

/-- The exponent at which `n / d` has an integer part of 53 bits. -/
def exponentOf (n d : Nat) : Int :=
  let e : Int := (n.log2 : Int) - d.log2 - 52
  if n * Nat.pow 2 (-e).toNat < Nat.pow 2 52 * (d * Nat.pow 2 e.toNat) then e - 1 else e

/-- The value nearest to `n / d`, ties to even; `d` is not zero.  A
significand that rounds up to `2^53` moves to the next exponent. -/
def ofQuotient (n d : Nat) : Binary64 :=
  if n = 0 then zero
  else
    let e := exponentOf n d
    let m := roundHalfEven (n * Nat.pow 2 (-e).toNat) (d * Nat.pow 2 e.toNat)
    if m = Nat.pow 2 53 then ⟨Nat.pow 2 52, e + 1⟩ else ⟨m, e⟩

/-- The value nearest to an integer. -/
def ofNat (n : Nat) : Binary64 := ofQuotient n 1

/-- The value nearest to the quotient of two values; `y` is not zero. -/
def div (x y : Binary64) : Binary64 := ofQuotient (x.num * y.den) (y.num * x.den)

@[simp] theorem ofQuotient_zero (d : Nat) : ofQuotient 0 d = zero := by simp [ofQuotient]

/-! ## Bit patterns -/

/-- The bit pattern: the biased exponent above the 52 low bits of the
significand. -/
def bits (x : Binary64) : Nat :=
  if x.isZero then 0 else (x.exponent + 1075).toNat * Nat.pow 2 52 + (x.significand - Nat.pow 2 52)

end Binary64

end CommentDensity
