import CommentDensity.Number.Shortest

/-!
# CommentDensity.Number.DecimalText

Three ways to write a number in decimal.

* `Decimal.positional`: all digits around a point, at least one on each
  side.
* `Decimal.scientific`: one digit before the point, no point without more
  digits, and a signed exponent of at least two digits.
* `Binary64.hundredths`: two places, rounded from the exact value; a tie
  goes to the even hundredth.
-/

namespace CommentDensity

namespace Decimal

/-- How many digits stand before the point; the point is that many zeros
left of the digits where this is negative. -/
def point (x : Decimal) : Int := (decimalDigits x.digits).length + x.exponent

/-- With a point among the digits. -/
def positional (x : Decimal) : List Char :=
  let ds := decimalDigits x.digits
  if x.point ≤ 0 then '0' :: '.' :: (List.replicate (-x.point).toNat '0' ++ ds)
  else if 0 ≤ x.exponent then ds ++ List.replicate x.exponent.toNat '0' ++ ['.', '0']
  else ds.take x.point.toNat ++ '.' :: ds.drop x.point.toNat

/-- With an exponent. -/
def scientific (x : Decimal) : List Char :=
  let mantissa := match decimalDigits x.digits with
    | [] => []
    | [d] => [d]
    | d :: ds => d :: '.' :: ds
  let e := x.point - 1
  mantissa ++ 'e' :: (if e < 0 then '-' else '+') :: paddedDigits 2 e.natAbs

end Decimal

/-- Two places, from the exact value. -/
def Binary64.hundredths (x : Binary64) : List Char :=
  let h := roundHalfEven (x.num * 100) x.den
  decimalDigits (h / 100) ++ '.' :: paddedDigits 2 (h % 100)

end CommentDensity
