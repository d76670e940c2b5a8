/-!
# CommentDensity.Number.Rounding

A quotient of natural numbers, rounded to the nearest integer; a tie goes
to the even one.

Every rounding of the library is this one, at some scale: to a significand
of 53 bits, and to hundredths.
-/

namespace CommentDensity

/-- The integer nearest to `n / d`, a tie going to the even integer. -/
def roundHalfEven (n d : Nat) : Nat :=
  if d < 2 * (n % d) ∨ (2 * (n % d) = d ∧ n / d % 2 = 1) then n / d + 1 else n / d

/-- The result is at most half a unit too large. -/
theorem roundHalfEven_mul_le (n : Nat) (hd : 0 < d) :
    2 * (roundHalfEven n d * d) ≤ 2 * n + d := by
  have hn := Nat.div_add_mod n d
  have hr := Nat.mod_lt n hd
  have hc : d * (n / d) = n / d * d := Nat.mul_comm _ _
  unfold roundHalfEven
  split
  · rw [Nat.add_mul]; omega
  · omega

/-- The result is at most half a unit too small. -/
theorem le_roundHalfEven_mul (n : Nat) (hd : 0 < d) :
    2 * n ≤ 2 * (roundHalfEven n d * d) + d := by
  have hn := Nat.div_add_mod n d
  have hr := Nat.mod_lt n hd
  have hc : d * (n / d) = n / d * d := Nat.mul_comm _ _
  unfold roundHalfEven
  split
  · rw [Nat.add_mul]; omega
  · omega

/-- A tie goes to the even integer. -/
theorem roundHalfEven_even_of_tie (h : 2 * (n % d) = d) : roundHalfEven n d % 2 = 0 := by
  unfold roundHalfEven
  split <;> omega

end CommentDensity
