import CommentDensity.Number.Digits
import CommentDensity.Toml.Quoted

/-!
# CommentDensity.Toml.Number

Numbers as they stand in a TOML text.

Integers are decimal with an optional sign, or hexadecimal, octal or binary
without one.  Floats have a fraction, an exponent or both, or are `inf` or
`nan`.  An underscore may stand between two digits.  A decimal number has no
leading zeros, whatever follows.

A number keeps its exact value; whether a machine can hold it is a question
of its own (`Number.fits`).
-/

namespace CommentDensity.Toml

/-- The value of a number. -/
inductive Number where
  | integer (n : Int)
  /-- `digits · 10^exponent`, perhaps negative. -/
  | decimal (negative : Bool) (digits : Nat) (exponent : Int)
  | infinity (negative : Bool)
  | notANumber
  deriving DecidableEq, Repr

namespace Number

/-! ## Reading -/

/-- The digits without the underscores between them; there is one digit at
least. -/
def ungroup? (isDigit : Char → Bool) : List Char → Option (List Char)
  | [] => none
  | [c] => if isDigit c then some [c] else none
  | c :: '_' :: r => if isDigit c then (ungroup? isDigit r).map (c :: ·) else none
  | c :: r => if isDigit c then (ungroup? isDigit r).map (c :: ·) else none

/-- An integer in digits of another base. -/
def based? (base : Nat) (cs : List Char) : Option Number := do
  let digits ← ungroup? (fun c => (hexDigit? c).any (· < base)) cs
  return .integer (digits.foldl (fun n c => n * base + ((hexDigit? c).getD 0)) 0 : Nat)

/-- The exponent of a float, behind its `e`. -/
def exponent? : List Char → Option Int
  | '+' :: cs => (ungroup? Char.isDigit cs).map fun ds => digitsValue 0 ds
  | '-' :: cs => (ungroup? Char.isDigit cs).map fun ds => -(digitsValue 0 ds : Int)
  | cs => (ungroup? Char.isDigit cs).map fun ds => digitsValue 0 ds

/-- A decimal number behind its sign. -/
def unsigned? (negative : Bool) (cs : List Char) : Option Number := do
  if cs = ['i', 'n', 'f'] then return .infinity negative
  if cs = ['n', 'a', 'n'] then return .notANumber
  let (mantissa, power) := cs.span fun c => c != 'e' && c != 'E'
  let (whole, part) := mantissa.span fun c => c != '.'
  let whole ← ungroup? Char.isDigit whole
  guard (whole.length = 1 ∨ whole.head? ≠ some '0')
  if power = [] ∧ part = [] then
    let n : Int := digitsValue 0 whole
    return .integer (if negative then -n else n)
  let fraction ← if part = [] then some [] else ungroup? Char.isDigit part.tail
  let exponent ← if power = [] then some 0 else exponent? power.tail
  return .decimal negative (digitsValue 0 (whole ++ fraction)) (exponent - fraction.length)

/-- The number that a word writes. -/
def ofWord? : List Char → Option Number
  | '0' :: 'x' :: cs => based? 16 cs
  | '0' :: 'o' :: cs => based? 8 cs
  | '0' :: 'b' :: cs => based? 2 cs
  | '+' :: cs => unsigned? false cs
  | '-' :: cs => unsigned? true cs
  | cs => unsigned? false cs

/-! ## Size -/

/-- The least decimal that binary64 rounds to infinity: halfway between the
greatest value and the next power of two. -/
def tooLarge : Nat := Nat.pow 2 1024 - Nat.pow 2 970

/-- Whether `digits · 10^exponent` stays below `tooLarge`.  The number of
digits decides, but for numbers of about the size of the bound. -/
def decimalFits (digits : Nat) (exponent : Int) : Bool :=
  let size := digitCount digits + exponent
  digits == 0 || size < 309 ||
    (size < 311 && digits * Nat.pow 10 exponent.toNat < tooLarge * Nat.pow 10 (-exponent).toNat)

/-- Whether a machine can hold the number: an integer in 128 bits, with or
without a sign, and a decimal in binary64. -/
def fits : Number → Bool
  | .integer n => -(Nat.pow 2 127 : Nat) ≤ n && n < (Nat.pow 2 128 : Nat)
  | .decimal _ digits exponent => decimalFits digits exponent
  | .infinity _ => true
  | .notANumber => true

end Number

end CommentDensity.Toml
