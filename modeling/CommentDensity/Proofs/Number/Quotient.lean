import CommentDensity.Proofs.Number.Nearest
import CommentDensity.Proofs.Number.Rounding

/-!
# CommentDensity.Proofs.Number.Quotient

Quotients are rounded to the nearest value.

`exponentOf` finds the exponent at which a quotient has 53 bits in front of
the point, and `ofQuotient` rounds it there to an integer.  For quotients
between `2^-64` and `2^64`, in which all ratios of counts lie, the result is
the nearest value of the format (`isNearest_ofQuotient`).
-/

namespace CommentDensity.Binary64

/-- Between `2^-64` and `2^64`. -/
structure InScale (q : ℚ) : Prop where
  le : 2 ^ (-64 : ℤ) ≤ q
  le' : q ≤ 2 ^ (64 : ℤ)

variable {x y : Binary64} {q r : ℚ} {n d : ℕ} {e : ℤ}

theorem InScale.pos (h : InScale q) : 0 < q := (two_zpow_pos _).trans_le h.le

/-- The exponents at which numbers of this size have 53 bits. -/
theorem InScale.exponent_bounds (hq : InScale q) (hlow : 2 ^ 52 * 2 ^ e ≤ q)
    (hhigh : q < 2 ^ 53 * 2 ^ e) : -117 < e ∧ e ≤ 12 := by
  rw [pow_mul_zpow two_ne_zero] at hlow hhigh
  have hlt := (zpow_lt_zpow_iff_right₀ one_lt_two).mp (hq.le.trans_lt hhigh)
  have hle := (zpow_le_zpow_iff_right₀ one_lt_two).mp (hlow.trans hq.le')
  push_cast at hlt hle
  omega

theorem IsNormal.exponent_bounds (hx : x.IsNormal) (hscale : InScale x.toRat) :
    -117 < x.exponent ∧ x.exponent ≤ 12 := hscale.exponent_bounds hx.le_toRat hx.toRat_lt

/-! ## The exponent -/

/-- Scaling a fraction by a power of two, either way. -/
theorem scaled_eq (n d : ℕ) (e : ℤ) :
    ((n * Nat.pow 2 (-e).toNat : ℕ) : ℚ) / ((d * Nat.pow 2 e.toNat : ℕ) : ℚ) = n / d / 2 ^ e := by
  rw [zpow_eq_div two_ne_zero e, div_div_div_eq]
  push_cast [Nat.pow_eq]
  rfl

/-- The binary logarithms find the exponent, or the one above it. -/
theorem log2_bounds (hn : n ≠ 0) (hd : d ≠ 0) (he : e = (n.log2 : ℤ) - d.log2 - 52) :
    2 ^ 51 * 2 ^ e < (n / d : ℚ) ∧ (n / d : ℚ) < 2 ^ 53 * 2 ^ e := by
  have hdpos : (0 : ℚ) < d := by exact_mod_cast Nat.pos_of_ne_zero hd
  have hpos := two_zpow_pos e
  have hnlow : (2 : ℚ) ^ n.log2 ≤ n := by exact_mod_cast Nat.log2_self_le hn
  have hnhigh : (n : ℚ) < 2 ^ (n.log2 + 1) := by exact_mod_cast Nat.lt_log2_self
  have hdlow : (2 : ℚ) ^ d.log2 ≤ d := by exact_mod_cast Nat.log2_self_le hd
  have hdhigh : (d : ℚ) < 2 ^ (d.log2 + 1) := by exact_mod_cast Nat.lt_log2_self
  have hpow : (2 : ℚ) ^ 52 * 2 ^ e * 2 ^ d.log2 = 2 ^ n.log2 := by
    rw [pow_mul_zpow two_ne_zero, mul_comm, pow_mul_zpow two_ne_zero, ← zpow_natCast]
    congr 1
    push_cast
    omega
  constructor
  · rw [lt_div_iff₀ hdpos]
    calc (2 : ℚ) ^ 51 * 2 ^ e * d
        < 2 ^ 51 * 2 ^ e * 2 ^ (d.log2 + 1) := mul_lt_mul_of_pos_left hdhigh (by positivity)
      _ = 2 ^ 52 * 2 ^ e * 2 ^ d.log2 := by ring
      _ ≤ n := hpow.trans_le hnlow
  · rw [div_lt_iff₀ hdpos]
    calc (n : ℚ) < 2 ^ n.log2 * 2 := hnhigh.trans_eq (pow_succ _ _)
      _ = 2 ^ 53 * 2 ^ e * 2 ^ d.log2 := by rw [← hpow]; ring
      _ ≤ 2 ^ 53 * 2 ^ e * d := mul_le_mul_of_nonneg_left hdlow (by positivity)

/-- At the exponent that is found, a quotient has 53 bits. -/
theorem exponentOf_bounds (hn : n ≠ 0) (hd : d ≠ 0) :
    2 ^ 52 * 2 ^ exponentOf n d ≤ (n / d : ℚ) ∧ (n / d : ℚ) < 2 ^ 53 * 2 ^ exponentOf n d := by
  unfold exponentOf
  dsimp only
  generalize he : (n.log2 : ℤ) - d.log2 - 52 = e
  obtain ⟨hlow, hhigh⟩ := log2_bounds hn hd he.symm
  have htest : n * Nat.pow 2 (-e).toNat < Nat.pow 2 52 * (d * Nat.pow 2 e.toNat) ↔
      (n / d : ℚ) < 2 ^ 52 * 2 ^ e := by
    have hpos : (0 : ℚ) < (d * Nat.pow 2 e.toNat : ℕ) := by
      have hd := Nat.pos_of_ne_zero hd
      exact_mod_cast Nat.mul_pos hd (Nat.two_pow_pos _)
    rw [← div_lt_iff₀ (two_zpow_pos e), ← scaled_eq, div_lt_iff₀ hpos]
    exact_mod_cast Iff.rfl
  split
  · next h =>
    rw [htest] at h
    rw [zpow_sub_one₀ two_ne_zero]
    constructor <;> linarith
  · next h =>
    rw [htest, not_lt] at h
    exact ⟨h, hhigh⟩

/-! ## The significand -/

/-- A cell is the same at every exponent, but for the scale. -/
theorem inCell_mul_zpow {m : ℕ} {s : ℚ} : InCell ⟨m, e⟩ (s * 2 ^ e) ↔ InCell ⟨m, 0⟩ s := by
  have hpos := two_zpow_pos e
  have hlow : toRat ⟨m, e⟩ - gap ⟨m, e⟩ / 2 = (toRat ⟨m, 0⟩ - gap ⟨m, 0⟩ / 2) * 2 ^ e := by
    simp only [toRat, gap, zpow_zero]
    split <;> ring
  have hhigh : toRat ⟨m, e⟩ + 2 ^ e / 2 = (toRat ⟨m, 0⟩ + 2 ^ (0 : ℤ) / 2) * 2 ^ e := by
    simp only [toRat, zpow_zero]
    ring
  simp only [InCell, hlow, hhigh, mul_le_mul_iff_of_pos_right hpos,
    mul_lt_mul_iff_of_pos_right hpos]

/-- An integer of 53 bits next to a number of that size is the significand of
the value nearest to it. -/
theorem inCell_of_roundsTo {s : ℚ} {m : ℕ} (h : RoundsTo s m) (hlow : 2 ^ 52 ≤ s) :
    InCell ⟨m, e⟩ (s * 2 ^ e) := by
  have hnear := abs_le.mp h.near
  rw [inCell_mul_zpow, InCell, toRat, gap, zpow_zero, mul_one]
  dsimp only
  by_cases hpower : m = 2 ^ 52
  · -- the lower neighbour of `2^52` is nearer, but the number is not below
    have hcast : (m : ℚ) = 2 ^ 52 := by exact_mod_cast hpower
    rw [if_pos (by omega), if_pos hpower]
    constructor <;> linarith
  · rw [if_neg hpower]
    split
    · constructor <;> linarith
    · next hodd =>
      have hstrict := abs_lt.mp (lt_of_le_of_ne h.near fun htie => hodd (h.even htie))
      constructor <;> linarith

/-- A significand that is rounded up to `2^53` is written with the next
exponent. -/
theorem inCell_carry {s : ℚ} (h : RoundsTo s (2 ^ 53)) (hhigh : s < 2 ^ 53) :
    InCell ⟨2 ^ 52, e + 1⟩ (s * 2 ^ e) := by
  have hhalf : s * 2 ^ e = s / 2 * 2 ^ (e + 1) := by
    rw [zpow_add_one₀ two_ne_zero]
    ring
  have hlow := h.le_add
  push_cast at hlow
  rw [hhalf, inCell_mul_zpow, InCell, toRat, gap, zpow_zero, if_pos (by decide), if_pos rfl]
  push_cast
  constructor <;> linarith

/-- A quotient is rounded to the nearest value. -/
theorem isNearest_ofQuotient (hn : n ≠ 0) (hd : d ≠ 0) (hscale : InScale (n / d)) :
    (ofQuotient n d).IsNearest (n / d) := by
  obtain ⟨hlow, hhigh⟩ := exponentOf_bounds hn hd
  obtain ⟨helow, hehigh⟩ := hscale.exponent_bounds hlow hhigh
  unfold ofQuotient
  rw [if_neg hn]
  dsimp only
  generalize exponentOf n d = e at *
  have hpos := two_zpow_pos e
  have hb : 0 < d * Nat.pow 2 e.toNat :=
    Nat.mul_pos (Nat.pos_of_ne_zero hd) (Nat.two_pow_pos _)
  have hrounds := roundsTo_roundHalfEven (n * Nat.pow 2 (-e).toNat) hb
  rw [scaled_eq] at hrounds
  generalize roundHalfEven (n * Nat.pow 2 (-e).toNat) (d * Nat.pow 2 e.toNat) = m at *
  -- the number as a multiple of the last place
  obtain ⟨s, hs⟩ : ∃ s : ℚ, (n / d : ℚ) = s * 2 ^ e := ⟨n / d / 2 ^ e, by field_simp⟩
  rw [hs] at hlow hhigh hrounds ⊢
  rw [mul_div_cancel_right₀ _ hpos.ne'] at hrounds
  have hlow : 2 ^ 52 ≤ s := le_of_mul_le_mul_right hlow hpos
  have hhigh : s < 2 ^ 53 := lt_of_mul_lt_mul_right hhigh hpos.le
  have hmlow : 2 ^ 52 ≤ m := (roundsTo_natCast (2 ^ 52)).mono hrounds (by exact_mod_cast hlow)
  have hmhigh : m ≤ 2 ^ 53 := hrounds.mono (roundsTo_natCast (2 ^ 53)) (by exact_mod_cast hhigh.le)
  split
  · next hfull =>
    obtain rfl : m = 2 ^ 53 := hfull
    refine (inCell_carry hrounds hhigh).isNearest ⟨le_rfl, by norm_num, ?_, ?_⟩
    · show -1074 ≤ e + 1
      omega
    · show e + 1 ≤ 971
      omega
  · next hfull =>
    refine (inCell_of_roundsTo hrounds hlow).isNearest
      ⟨hmlow, Nat.lt_of_le_of_ne hmhigh hfull, ?_, ?_⟩
    · show -1074 ≤ e
      omega
    · show e ≤ 971
      omega

end CommentDensity.Binary64
