import CommentDensity.Number.Rounding
import Mathlib

/-!
# CommentDensity.Proofs.Number.Rounding

The integer nearest to a number.

`RoundsTo q h` says that `h` is at most one half away from `q`, and even if
it is exactly one half away.  So no integer is nearer, of two that are
equally near the even one is taken, and rounding keeps the order
(`RoundsTo.abs_sub_le`, `RoundsTo.even_of_tie`, `RoundsTo.mono`).
-/

namespace CommentDensity

/-- The integer nearest to `q`, a tie going to the even one. -/
structure RoundsTo (q : ℚ) (h : ℕ) : Prop where
  near : |q - h| ≤ 1 / 2
  even : |q - h| = 1 / 2 → h % 2 = 0

/-- One half away from the result, the remainder is half of the divisor. -/
theorem two_mul_mod_of_tie {n d : ℕ} (hd : 0 < d)
    (h : 2 * n = 2 * (roundHalfEven n d * d) + d ∨ 2 * (roundHalfEven n d * d) = 2 * n + d) :
    2 * (n % d) = d := by
  have hn := Nat.div_add_mod n d
  have hr := Nat.mod_lt n hd
  have hc : d * (n / d) = n / d * d := Nat.mul_comm _ _
  unfold roundHalfEven at h
  split at h
  · rw [Nat.add_mul] at h
    omega
  · omega

/-- A quotient of natural numbers is rounded so. -/
theorem roundsTo_roundHalfEven (n : ℕ) {d : ℕ} (hd : 0 < d) :
    RoundsTo (n / d) (roundHalfEven n d) := by
  have hpos : (0 : ℚ) < d := by exact_mod_cast hd
  have hhigh : 2 * ((roundHalfEven n d : ℚ) * d) ≤ 2 * n + d := by
    exact_mod_cast roundHalfEven_mul_le n hd
  have hlow : 2 * (n : ℚ) ≤ 2 * (roundHalfEven n d * d) + d := by
    exact_mod_cast le_roundHalfEven_mul n hd
  have hscaled : |(n : ℚ) / d - roundHalfEven n d| * d = |(n : ℚ) - roundHalfEven n d * d| := by
    rw [← abs_of_pos hpos, ← abs_mul, abs_of_pos hpos, sub_mul, div_mul_cancel₀ _ hpos.ne']
  constructor
  case near =>
    refine le_of_mul_le_mul_right ?_ hpos
    rw [hscaled, abs_le]
    constructor <;> linarith
  case even =>
    intro htie
    rw [htie] at hscaled
    refine roundHalfEven_even_of_tie (two_mul_mod_of_tie hd ?_)
    rcases abs_cases ((n : ℚ) - roundHalfEven n d * d) with ⟨habs, _⟩ | ⟨habs, _⟩
    · left
      have heq : (2 * n : ℚ) = 2 * (roundHalfEven n d * d) + d := by linarith
      exact_mod_cast heq
    · right
      have heq : (2 * (roundHalfEven n d * d) : ℚ) = 2 * n + d := by linarith
      exact_mod_cast heq

/-- An integer is rounded to itself. -/
theorem roundsTo_natCast (n : ℕ) : RoundsTo n n where
  near := by simp
  even h := by simp at h

namespace RoundsTo

variable {q r : ℚ} {h k : ℕ}

theorem le_add (hq : RoundsTo q h) : (h : ℚ) ≤ q + 1 / 2 := by
  have hnear := (abs_le.mp hq.near).1
  linarith

theorem sub_le (hq : RoundsTo q h) : q - 1 / 2 ≤ (h : ℚ) := by
  have hnear := (abs_le.mp hq.near).2
  linarith

/-- A different integer is at least one half away. -/
theorem half_le_abs_sub (hq : RoundsTo q h) {k : ℤ} (hk : k ≠ h) : 1 / 2 ≤ |q - k| := by
  have hone : (1 : ℚ) ≤ |(k : ℚ) - h| := by exact_mod_cast Int.one_le_abs (sub_ne_zero.mpr hk)
  have htriangle : |(k : ℚ) - h| ≤ |q - k| + |q - h| := by
    rw [abs_sub_comm q k]
    exact abs_sub_le (k : ℚ) q h
  have hnear := hq.near
  linarith

/-- No integer is nearer. -/
theorem abs_sub_le (hq : RoundsTo q h) (k : ℤ) : |q - h| ≤ |q - k| := by
  by_cases hk : k = h
  · rw [hk, Int.cast_natCast]
  · exact hq.near.trans (hq.half_le_abs_sub hk)

/-- Where another integer is as near, the even one is taken. -/
theorem even_of_tie (hq : RoundsTo q h) {k : ℤ} (hk : k ≠ h) (htie : |q - k| = |q - h|) :
    h % 2 = 0 :=
  hq.even (le_antisymm hq.near (htie ▸ hq.half_le_abs_sub hk))

/-- Rounding keeps the order. -/
theorem mono (hq : RoundsTo q h) (hr : RoundsTo r k) (hle : q ≤ r) : h ≤ k := by
  by_contra! hlt
  -- the numbers would be equal and one half away from both integers
  have hhigh := hq.le_add
  have hlow := hr.sub_le
  have hsucc : h = k + 1 := by
    have hle : (h : ℚ) ≤ k + 1 := by linarith
    have hle : h ≤ k + 1 := by exact_mod_cast hle
    omega
  have hcast : (h : ℚ) = k + 1 := by exact_mod_cast hsucc
  have hheven : h % 2 = 0 := hq.even (by
    have hmid : q - h = -(1 / 2) := by linarith
    rw [hmid]
    norm_num)
  have hkeven : k % 2 = 0 := hr.even (by
    have hmid : r - k = 1 / 2 := by linarith
    rw [hmid]
    norm_num)
  omega

end RoundsTo

end CommentDensity
