import CommentDensity.Number.Binary64
import Mathlib

/-!
# CommentDensity.Proofs.Number.Nearest

Binary64 values as exact numbers, and the value nearest to a number.

`Binary64.toRat` is the number that a value stands for, and `IsValue` says
which numbers the format has: signs, and values below the normal ones,
included.  `x.IsNearest q` says what rounding `q` has to give: no value is
nearer to `q` than `x`, and where another is as near, the significand of `x`
is even.

* `IsNearest.mono`, `IsNearest.unique` — rounding keeps the order, and there
  is one result only;
* `isNearest_iff_inCell` — the numbers that are rounded to `x` are those
  between the midpoints to its neighbours.
-/

namespace CommentDensity.Binary64

/-! ## Exact numbers -/

/-- The number that a value stands for. -/
def toRat (x : Binary64) : ℚ := x.significand * 2 ^ x.exponent

/-- The numbers that the format has. -/
def IsValue (q : ℚ) : Prop :=
  ∃ m e : ℤ, |m| < 2 ^ 53 ∧ -1074 ≤ e ∧ e ≤ 971 ∧ q = m * 2 ^ e

/-- A normal value: its significand has all 53 bits. -/
structure IsNormal (x : Binary64) : Prop where
  le_significand : 2 ^ 52 ≤ x.significand
  significand_lt : x.significand < 2 ^ 53
  le_exponent : -1074 ≤ x.exponent
  exponent_le : x.exponent ≤ 971

/-- Zero or a normal value. -/
def IsRegular (x : Binary64) : Prop := x = zero ∨ x.IsNormal

/-- Rounding `q` gives `x`: no value is nearer, and where another is as near,
`x` is the even one. -/
structure IsNearest (x : Binary64) (q : ℚ) : Prop where
  regular : x.IsRegular
  le : ∀ y, IsValue y → |q - x.toRat| ≤ |q - y|
  even : ∀ y, IsValue y → y ≠ x.toRat → |q - y| = |q - x.toRat| → x.significand % 2 = 0

/-- A power with an integer exponent, as a fraction. -/
theorem zpow_eq_div {b : ℚ} (hb : b ≠ 0) (e : ℤ) : b ^ e = b ^ e.toNat / b ^ (-e).toNat := by
  rw [← zpow_natCast, ← zpow_natCast, ← zpow_sub₀ hb]
  congr 1
  omega

/-- A power as a multiple of a lower one. -/
theorem zpow_eq_mul {b : ℚ} (hb : b ≠ 0) {e e' : ℤ} (h : e ≤ e') :
    b ^ e' = b ^ (e' - e).toNat * b ^ e := by
  rw [← zpow_natCast, ← zpow_add₀ hb]
  congr 1
  omega

theorem pow_mul_zpow {b : ℚ} (hb : b ≠ 0) (k : ℕ) (e : ℤ) : b ^ k * b ^ e = b ^ ((k : ℤ) + e) := by
  rw [zpow_add₀ hb, zpow_natCast]

theorem two_zpow_pos (e : ℤ) : (0 : ℚ) < 2 ^ e := by positivity

theorem two_mul_zpow_le {e e' : ℤ} (h : e < e') : 2 * (2 : ℚ) ^ e ≤ 2 ^ e' := by
  have hsucc : 2 * (2 : ℚ) ^ e = 2 ^ (e + 1) := by rw [zpow_add_one₀ two_ne_zero, mul_comm]
  rw [hsucc]
  exact zpow_le_zpow_right₀ one_le_two h

variable {x y : Binary64} {q r : ℚ} {n : ℕ}

theorem toRat_eq_div (x : Binary64) : x.toRat = (x.num : ℚ) / x.den := by
  rw [toRat, num, den, zpow_eq_div two_ne_zero, ← mul_div_assoc]
  push_cast [Nat.pow_eq]
  rfl

theorem num_ne_zero (h : 0 < x.toRat) : x.num ≠ 0 := by
  intro hzero
  rw [toRat_eq_div, hzero, Nat.cast_zero, zero_div] at h
  exact lt_irrefl 0 h

@[simp] theorem toRat_zero : zero.toRat = 0 := by simp [toRat, zero]

theorem toRat_nonneg (x : Binary64) : 0 ≤ x.toRat := by
  unfold toRat
  positivity

/-! ## Comparisons -/

theorem den_cast_pos (x : Binary64) : (0 : ℚ) < x.den := by exact_mod_cast x.den_pos

theorem le_iff : x.le y = true ↔ x.toRat ≤ y.toRat := by
  rw [Binary64.le, decide_eq_true_iff, toRat_eq_div, toRat_eq_div,
    div_le_div_iff₀ x.den_cast_pos y.den_cast_pos]
  exact_mod_cast Iff.rfl

theorem lt_iff : x.lt y = true ↔ x.toRat < y.toRat := by
  rw [Binary64.lt, decide_eq_true_iff, toRat_eq_div, toRat_eq_div,
    div_lt_div_iff₀ x.den_cast_pos y.den_cast_pos]
  exact_mod_cast Iff.rfl

theorem isZero_iff : x.isZero = true ↔ x.toRat = 0 := by
  have hpos := two_zpow_pos x.exponent
  rw [isZero, beq_iff_eq, toRat, mul_eq_zero, Nat.cast_eq_zero]
  simp [hpos.ne']

/-- An integer is its numerator divided by its denominator. -/
theorem toRat_of_isInteger (h : x.isInteger = true) : x.toRat = (x.num / x.den : ℕ) := by
  have hdvd := Nat.dvd_of_mod_eq_zero (beq_iff_eq.mp h)
  rw [toRat_eq_div, Nat.cast_div hdvd x.den_cast_pos.ne']

theorem isInteger_iff : x.isInteger = true ↔ ∃ k : ℤ, x.toRat = k := by
  constructor
  · intro h
    exact ⟨(x.num / x.den : ℕ), by rw [toRat_of_isInteger h, Int.cast_natCast]⟩
  · rintro ⟨k, hk⟩
    rw [toRat_eq_div, div_eq_iff x.den_cast_pos.ne'] at hk
    have hk : (x.num : ℤ) = k * x.den := by exact_mod_cast hk
    have hdvd : (x.den : ℤ) ∣ x.num := ⟨k, by rw [hk, mul_comm]⟩
    rw [isInteger, beq_iff_eq]
    exact Nat.mod_eq_zero_of_dvd (Int.natCast_dvd_natCast.mp hdvd)

/-! ## Normal values -/

namespace IsNormal

theorem le_toRat (hx : x.IsNormal) : 2 ^ 52 * 2 ^ x.exponent ≤ x.toRat := by
  have hm : (2 ^ 52 : ℚ) ≤ x.significand := by exact_mod_cast hx.le_significand
  exact mul_le_mul_of_nonneg_right hm (two_zpow_pos _).le

theorem toRat_lt (hx : x.IsNormal) : x.toRat < 2 ^ 53 * 2 ^ x.exponent := by
  have hm : (x.significand : ℚ) < 2 ^ 53 := by exact_mod_cast hx.significand_lt
  exact mul_lt_mul_of_pos_right hm (two_zpow_pos _)

theorem toRat_pos (hx : x.IsNormal) : 0 < x.toRat := by
  have hpos := two_zpow_pos x.exponent
  have hle := hx.le_toRat
  linarith

theorem isValue (hx : x.IsNormal) : IsValue x.toRat := by
  refine ⟨x.significand, x.exponent, ?_, hx.le_exponent, hx.exponent_le, by simp [toRat]⟩
  rw [Nat.abs_cast]
  exact_mod_cast hx.significand_lt

theorem toRat_lt_of_exponent_lt (hx : x.IsNormal) (hy : y.IsNormal)
    (h : x.exponent < y.exponent) : x.toRat < y.toRat := by
  have hlt := hx.toRat_lt
  have hle := hy.le_toRat
  have hpow := two_mul_zpow_le h
  linarith

/-- A normal value is written in one way. -/
theorem eq_of_toRat_eq (hx : x.IsNormal) (hy : y.IsNormal) (h : x.toRat = y.toRat) : x = y := by
  have hexponent : x.exponent = y.exponent := by
    rcases lt_trichotomy x.exponent y.exponent with hlt | heq | hgt
    · exact absurd h (hx.toRat_lt_of_exponent_lt hy hlt).ne
    · exact heq
    · exact absurd h (hy.toRat_lt_of_exponent_lt hx hgt).ne'
  have hsignificand : x.significand = y.significand := by
    rw [toRat, toRat, hexponent] at h
    exact_mod_cast mul_right_cancel₀ (two_zpow_pos y.exponent).ne' h
  cases x
  cases y
  simp_all

end IsNormal

namespace IsRegular

theorem isValue (hx : x.IsRegular) : IsValue x.toRat := by
  obtain rfl | hx := hx
  · exact ⟨0, 0, by simp, by omega, by omega, by simp⟩
  · exact hx.isValue

theorem eq_of_toRat_eq (hx : x.IsRegular) (hy : y.IsRegular) (h : x.toRat = y.toRat) : x = y := by
  obtain rfl | hx := hx <;> obtain rfl | hy := hy
  · rfl
  · exact absurd h (by simpa using hy.toRat_pos.ne)
  · exact absurd h (by simpa using hx.toRat_pos.ne')
  · exact hx.eq_of_toRat_eq hy h

end IsRegular

/-- Powers of two, and integers of 53 bits, are values. -/
theorem isValue_two_zpow {e : ℤ} (hlow : -1074 ≤ e) (hhigh : e ≤ 971) : IsValue (2 ^ e) :=
  ⟨1, e, by norm_num, hlow, hhigh, by simp⟩

theorem isValue_natCast (h : n ≤ 2 ^ 53) : IsValue n := by
  obtain hlt | rfl := Nat.lt_or_eq_of_le h
  · exact ⟨n, 0, by rw [Nat.abs_cast]; exact_mod_cast hlt, by omega, by omega, by simp⟩
  · exact_mod_cast isValue_two_zpow (e := 53) (by omega) (by omega)

/-! ## Neighbours -/

/-- How far below the next lower value is: half as far where the significand
is a power of two. -/
def gap (x : Binary64) : ℚ :=
  if x.significand = 2 ^ 52 then 2 ^ x.exponent / 2 else 2 ^ x.exponent

theorem gap_pos (x : Binary64) : 0 < x.gap := by
  have hpos := two_zpow_pos x.exponent
  unfold gap
  split <;> linarith

theorem gap_le (x : Binary64) : x.gap ≤ 2 ^ x.exponent := by
  have hpos := two_zpow_pos x.exponent
  unfold gap
  split <;> linarith

/-- On the grid of `x` a value is a whole number of steps. -/
theorem exists_mul_zpow {m e e' : ℤ} (h : e' ≤ e) : ∃ k : ℤ, (m * 2 ^ e : ℚ) = k * 2 ^ e' := by
  refine ⟨m * 2 ^ (e - e').toNat, ?_⟩
  rw [zpow_eq_mul two_ne_zero h]
  push_cast
  ring

/-- No value lies between `x` and the next one on its grid. -/
theorem IsNormal.add_le_of_lt (hx : x.IsNormal) (hr : IsValue r) (h : x.toRat < r) :
    x.toRat + 2 ^ x.exponent ≤ r := by
  obtain ⟨m, e, hm, _, _, rfl⟩ := hr
  have hpos := two_zpow_pos x.exponent
  rcases le_or_gt x.exponent e with hle | hlt
  · obtain ⟨k, hk⟩ := exists_mul_zpow (m := m) hle
    rw [hk, toRat] at h ⊢
    have hlt : (x.significand : ℚ) < k := lt_of_mul_lt_mul_right h hpos.le
    have hstep : (x.significand : ℚ) + 1 ≤ k := by exact_mod_cast hlt
    calc (x.significand : ℚ) * 2 ^ x.exponent + 2 ^ x.exponent
        = (x.significand + 1) * 2 ^ x.exponent := by ring
      _ ≤ k * 2 ^ x.exponent := mul_le_mul_of_nonneg_right hstep hpos.le
  · -- values of lower exponents do not come up to `x`
    have hm : (m : ℚ) < 2 ^ 53 := by exact_mod_cast (abs_lt.mp hm).2
    have hr : (m : ℚ) * 2 ^ e < 2 ^ 53 * 2 ^ e := mul_lt_mul_of_pos_right hm (two_zpow_pos e)
    have hpow := two_mul_zpow_le hlt
    have hlow := hx.le_toRat
    linarith

/-- No value lies between `x` and the next lower one. -/
theorem IsNormal.le_sub_of_lt (hx : x.IsNormal) (hr : IsValue r) (h : r < x.toRat) :
    r ≤ x.toRat - x.gap := by
  obtain ⟨m, e, hm, _, _, rfl⟩ := hr
  have hpos := two_zpow_pos x.exponent
  have hgap := x.gap_le
  rcases le_or_gt x.exponent e with hle | hlt
  · obtain ⟨k, hk⟩ := exists_mul_zpow (m := m) hle
    rw [hk] at h ⊢
    have hlt : (k : ℚ) < x.significand := lt_of_mul_lt_mul_right h hpos.le
    have hstep : (k : ℚ) ≤ x.significand - 1 := by
      have hstep : k + 1 ≤ (x.significand : ℤ) := by exact_mod_cast hlt
      have hcast : (k : ℚ) + 1 ≤ x.significand := by exact_mod_cast hstep
      linarith
    calc (k : ℚ) * 2 ^ x.exponent
        ≤ (x.significand - 1) * 2 ^ x.exponent := mul_le_mul_of_nonneg_right hstep hpos.le
      _ = x.toRat - 2 ^ x.exponent := by rw [toRat]; ring
      _ ≤ x.toRat - x.gap := by linarith
  · have hm : (m : ℚ) ≤ 2 ^ 53 - 1 := by
      have hm : m + 1 ≤ 2 ^ 53 := (abs_lt.mp hm).2
      have hcast : (m : ℚ) + 1 ≤ 2 ^ 53 := by exact_mod_cast hm
      linarith
    have hr : (m : ℚ) * 2 ^ e ≤ (2 ^ 53 - 1) * 2 ^ e :=
      mul_le_mul_of_nonneg_right hm (two_zpow_pos e).le
    have hpow := two_mul_zpow_le hlt
    unfold gap
    split
    · next hpower =>
      rw [toRat, hpower]
      push_cast
      linarith
    · next hpower =>
      have hm : 2 ^ 52 + 1 ≤ x.significand :=
        Nat.lt_of_le_of_ne hx.le_significand (Ne.symm hpower)
      have hcast : (2 ^ 52 + 1 : ℚ) ≤ x.significand := by exact_mod_cast hm
      have hlow : (2 ^ 52 + 1 : ℚ) * 2 ^ x.exponent ≤ x.toRat :=
        mul_le_mul_of_nonneg_right hcast hpos.le
      linarith

/-- The next value on the grid of `x`. -/
theorem IsNormal.isValue_add (hx : x.IsNormal) (h : x.exponent < 971) :
    IsValue (x.toRat + 2 ^ x.exponent) := by
  have hlt := hx.significand_lt
  have hsum : x.toRat + 2 ^ x.exponent = (x.significand + 1) * 2 ^ x.exponent := by
    rw [toRat]; ring
  by_cases hfull : x.significand + 1 = 2 ^ 53
  · refine ⟨2 ^ 52, x.exponent + 1, by norm_num, by have := hx.le_exponent; omega, by omega, ?_⟩
    have hfull : (x.significand + 1 : ℚ) = 2 ^ 53 := by exact_mod_cast hfull
    rw [hsum, hfull, zpow_add_one₀ two_ne_zero]
    push_cast
    ring
  · refine ⟨x.significand + 1, x.exponent, ?_, hx.le_exponent, hx.exponent_le, ?_⟩
    · rw [abs_lt]
      omega
    · rw [hsum]
      push_cast
      ring

/-- The next lower value. -/
theorem IsNormal.isValue_sub (hx : x.IsNormal) (h : -1074 < x.exponent) :
    IsValue (x.toRat - x.gap) := by
  have hle := hx.le_significand
  have hlt := hx.significand_lt
  have hexponent := hx.exponent_le
  unfold gap
  split
  · next hpower =>
    refine ⟨2 ^ 53 - 1, x.exponent - 1, by norm_num, by omega, by omega, ?_⟩
    rw [toRat, hpower, zpow_sub_one₀ two_ne_zero]
    push_cast
    ring
  · refine ⟨x.significand - 1, x.exponent, ?_, hx.le_exponent, hexponent, ?_⟩
    · rw [abs_lt]
      omega
    · rw [toRat]
      push_cast
      ring

/-! ## Rounding -/

/-- Of two numbers, the lower one is at least as near exactly below the
midpoint. -/
theorem abs_sub_le_abs_sub_iff {a b : ℚ} (h : a < b) :
    |q - a| ≤ |q - b| ↔ q ≤ (a + b) / 2 := by
  rw [← sq_le_sq]
  constructor
  · intro hsq
    by_contra hlt
    nlinarith
  · intro hle
    nlinarith

theorem abs_sub_le_abs_sub_iff' {a b : ℚ} (h : a < b) :
    |q - b| ≤ |q - a| ↔ (a + b) / 2 ≤ q := by
  rw [← sq_le_sq]
  constructor
  · intro hsq
    by_contra hlt
    nlinarith
  · intro hle
    nlinarith

theorem abs_sub_eq_abs_sub_iff {a b : ℚ} (h : a < b) : |q - a| = |q - b| ↔ q = (a + b) / 2 := by
  rw [le_antisymm_iff, abs_sub_le_abs_sub_iff h, abs_sub_le_abs_sub_iff' h, ← le_antisymm_iff]

/-- A value is rounded to itself. -/
theorem isNearest_toRat (hx : x.IsRegular) : x.IsNearest x.toRat where
  regular := hx
  le y _ := by simp
  even y _ hne htie := by
    rw [sub_self, abs_zero, abs_eq_zero, sub_eq_zero] at htie
    exact absurd htie.symm hne

/-- A number that the format has is rounded to itself. -/
theorem IsNearest.toRat_eq (h : x.IsNearest q) (hq : IsValue q) : x.toRat = q := by
  have hle := h.le q hq
  rw [sub_self, abs_zero] at hle
  exact (sub_eq_zero.mp (abs_nonpos_iff.mp hle)).symm

/-- Rounding does not go past a value. -/
theorem IsNearest.le_toRat (h : x.IsNearest q) (hr : IsValue r) (hle : r ≤ q) : r ≤ x.toRat := by
  by_contra! hlt
  have hnear := (abs_sub_le_abs_sub_iff hlt).mp (h.le r hr)
  linarith

theorem IsNearest.toRat_le (h : x.IsNearest q) (hr : IsValue r) (hle : q ≤ r) : x.toRat ≤ r := by
  by_contra! hlt
  have hnear := (abs_sub_le_abs_sub_iff' hlt).mp (h.le r hr)
  linarith

/-- Half of an even value is a value. -/
theorem isValue_half (hx : x.IsNormal) (heven : x.significand % 2 = 0) : IsValue (x.toRat / 2) := by
  obtain ⟨k, hk⟩ := Nat.dvd_of_mod_eq_zero heven
  have hfull := hx.significand_lt
  refine ⟨k, x.exponent, ?_, hx.le_exponent, hx.exponent_le, ?_⟩
  · rw [Nat.abs_cast]
    omega
  · rw [toRat, hk]
    push_cast
    ring

/-- Between an even value and a greater one there is another, unless the
greater one is odd. -/
theorem exists_isValue_above (hx : x.IsNormal) (hy : y.IsNormal) (hlt : x.toRat < y.toRat)
    (hxeven : x.significand % 2 = 0) (hyeven : y.significand % 2 = 0) :
    ∃ r, IsValue r ∧ x.toRat < r ∧ r < y.toRat := by
  have hfull := hx.significand_lt
  have hle := hx.le_significand
  -- an even significand is not the last one, so that the next is normal
  have hnext : IsNormal ⟨x.significand + 1, x.exponent⟩ :=
    ⟨by show 2 ^ 52 ≤ x.significand + 1; omega, by show x.significand + 1 < 2 ^ 53; omega,
      hx.le_exponent, hx.exponent_le⟩
  have hsum : (⟨x.significand + 1, x.exponent⟩ : Binary64).toRat = x.toRat + 2 ^ x.exponent := by
    rw [toRat, toRat]
    push_cast
    ring
  have hpos := two_zpow_pos x.exponent
  refine ⟨_, hnext.isValue, by linarith, ?_⟩
  refine lt_of_le_of_ne (hsum ▸ hx.add_le_of_lt hy.isValue hlt) fun heq => ?_
  have hsame := congrArg Binary64.significand (hnext.eq_of_toRat_eq hy heq)
  dsimp only at hsame
  omega

/-- Between two even values there is another one. -/
theorem exists_isValue_between (hx : x.IsRegular) (hy : y.IsRegular) (hlt : x.toRat < y.toRat)
    (hxeven : x.significand % 2 = 0) (hyeven : y.significand % 2 = 0) :
    ∃ r, IsValue r ∧ x.toRat < r ∧ r < y.toRat := by
  obtain rfl | hy := hy
  · exact absurd hlt (not_lt.mpr (toRat_zero ▸ x.toRat_nonneg))
  obtain rfl | hx := hx
  · have hpos := hy.toRat_pos
    refine ⟨y.toRat / 2, isValue_half hy hyeven, ?_, by linarith⟩
    rw [toRat_zero]
    linarith
  · exact exists_isValue_above hx hy hlt hxeven hyeven

/-- Rounding keeps the order. -/
theorem IsNearest.mono (hx : x.IsNearest q) (hy : y.IsNearest r) (h : q ≤ r) :
    x.toRat ≤ y.toRat := by
  by_contra! hlt
  -- both numbers would be the midpoint, and both values even
  have hqmid := (abs_sub_le_abs_sub_iff' hlt).mp (hx.le _ hy.regular.isValue)
  have hrmid := (abs_sub_le_abs_sub_iff hlt).mp (hy.le _ hx.regular.isValue)
  have hq : q = (y.toRat + x.toRat) / 2 := by linarith
  obtain rfl : q = r := by linarith
  have htie := (abs_sub_eq_abs_sub_iff hlt).mpr hq
  obtain ⟨z, hz, hyz, hzx⟩ := exists_isValue_between hy.regular hx.regular hlt
    (hy.even _ hx.regular.isValue hlt.ne' htie.symm) (hx.even _ hy.regular.isValue hlt.ne htie)
  have hle := hx.le z hz
  rw [abs_sub_le_abs_sub_iff' hzx] at hle
  linarith

/-- A number is rounded to one value. -/
theorem IsNearest.unique (hx : x.IsNearest q) (hy : y.IsNearest q) : x = y :=
  hx.regular.eq_of_toRat_eq hy.regular (le_antisymm (hx.mono hy le_rfl) (hy.mono hx le_rfl))

/-! ## Cells -/

/-- Between the midpoints to the neighbours of `x`; a midpoint belongs to the
even one of the two. -/
def InCell (x : Binary64) (q : ℚ) : Prop :=
  if x.significand % 2 = 0 then x.toRat - x.gap / 2 ≤ q ∧ q ≤ x.toRat + 2 ^ x.exponent / 2
  else x.toRat - x.gap / 2 < q ∧ q < x.toRat + 2 ^ x.exponent / 2

theorem InCell.le (h : x.InCell q) :
    x.toRat - x.gap / 2 ≤ q ∧ q ≤ x.toRat + 2 ^ x.exponent / 2 := by
  unfold InCell at h
  split at h
  · exact h
  · exact ⟨h.1.le, h.2.le⟩

theorem inCell_of_lt (hlow : x.toRat - x.gap / 2 < q) (hhigh : q < x.toRat + 2 ^ x.exponent / 2) :
    x.InCell q := by
  unfold InCell
  split
  · exact ⟨hlow.le, hhigh.le⟩
  · exact ⟨hlow, hhigh⟩

theorem inCell_toRat (x : Binary64) : x.InCell x.toRat := by
  have hgap := x.gap_pos
  have hpos := two_zpow_pos x.exponent
  exact inCell_of_lt (by linarith) (by linarith)

/-- What lies between two numbers of a cell is in it. -/
theorem InCell.convex {a b : ℚ} (ha : x.InCell a) (hb : x.InCell b) (haq : a ≤ q) (hqb : q ≤ b) :
    x.InCell q := by
  unfold InCell at *
  split
  · next heven =>
    rw [if_pos heven] at ha hb
    exact ⟨ha.1.trans haq, hqb.trans hb.2⟩
  · next hodd =>
    rw [if_neg hodd] at ha hb
    exact ⟨ha.1.trans_le haq, hqb.trans_lt hb.2⟩

/-- What is rounded to a value is in its cell. -/
theorem IsNearest.inCell (h : x.IsNearest q) (hx : x.IsNormal) (hlow : -1074 < x.exponent)
    (hhigh : x.exponent < 971) : x.InCell q := by
  have hgap := x.gap_pos
  have hpos := two_zpow_pos x.exponent
  have hsub : x.toRat - x.gap < x.toRat := by linarith
  have hadd : x.toRat < x.toRat + 2 ^ x.exponent := by linarith
  have hle := (abs_sub_le_abs_sub_iff' hsub).mp (h.le _ (hx.isValue_sub hlow))
  have hge := (abs_sub_le_abs_sub_iff hadd).mp (h.le _ (hx.isValue_add hhigh))
  unfold InCell
  split
  · exact ⟨by linarith, by linarith⟩
  · next hodd =>
    constructor
    · refine lt_of_le_of_ne (by linarith) fun heq => hodd ?_
      refine h.even _ (hx.isValue_sub hlow) hsub.ne ?_
      exact (abs_sub_eq_abs_sub_iff hsub).mpr (by linarith)
    · refine lt_of_le_of_ne (by linarith) fun heq => hodd ?_
      refine h.even _ (hx.isValue_add hhigh) hadd.ne' ?_
      exact ((abs_sub_eq_abs_sub_iff hadd).mpr (by linarith)).symm

/-- What is in the cell of a value is rounded to it. -/
theorem InCell.isNearest (h : x.InCell q) (hx : x.IsNormal) : x.IsNearest q := by
  obtain ⟨hle, hge⟩ := h.le
  have hgap := x.gap_pos
  have hpos := two_zpow_pos x.exponent
  refine ⟨.inr hx, fun y hy => ?_, fun y hy hne htie => ?_⟩
  · rcases lt_trichotomy y x.toRat with hlt | rfl | hgt
    · have hy := hx.le_sub_of_lt hy hlt
      exact (abs_sub_le_abs_sub_iff' hlt).mpr (by linarith)
    · exact le_rfl
    · have hy := hx.add_le_of_lt hy hgt
      exact (abs_sub_le_abs_sub_iff hgt).mpr (by linarith)
  · by_contra hodd
    unfold InCell at h
    rw [if_neg hodd] at h
    obtain hlt | hgt := lt_or_gt_of_ne hne
    · have hy := hx.le_sub_of_lt hy hlt
      have hmid := (abs_sub_eq_abs_sub_iff hlt).mp htie
      linarith
    · have hy := hx.add_le_of_lt hy hgt
      have hmid := (abs_sub_eq_abs_sub_iff hgt).mp htie.symm
      linarith

/-- The numbers in its cell are rounded to a value, if it has neighbours. -/
theorem isNearest_iff_inCell (hx : x.IsNormal) (hlow : -1074 < x.exponent)
    (hhigh : x.exponent < 971) : x.IsNearest q ↔ x.InCell q :=
  ⟨fun h => h.inCell hx hlow hhigh, fun h => h.isNearest hx⟩

/-! ## Bit patterns -/

/-- The number that a bit pattern stands for: a sign, an exponent and the
lower bits of the significand.  The highest exponent stands for no number. -/
def ofBits? (b : ℕ) : Option ℚ :=
  let sign : ℚ := if b / 2 ^ 63 % 2 = 0 then 1 else -1
  let field : ℕ := b / 2 ^ 52 % 2 ^ 11
  let fraction : ℕ := b % 2 ^ 52
  if field = 2 ^ 11 - 1 then none
  else if field = 0 then some (sign * fraction * 2 ^ (-1074 : ℤ))
  else some (sign * (2 ^ 52 + fraction) * 2 ^ ((field : ℤ) - 1075))

/-- The bit pattern stands for the value, and its sign is clear. -/
theorem ofBits?_bits (hx : x.IsRegular) : x.bits < 2 ^ 63 ∧ ofBits? x.bits = some x.toRat := by
  obtain rfl | hx := hx
  · exact ⟨by decide, by simp [bits, isZero, zero, ofBits?, toRat]⟩
  · have hlow := hx.le_significand
    have hhigh := hx.significand_lt
    have helow := hx.le_exponent
    have hehigh := hx.exponent_le
    obtain ⟨field, hfield⟩ : ∃ field : ℕ, x.exponent = (field : ℤ) - 1075 :=
      ⟨(x.exponent + 1075).toNat, by omega⟩
    obtain ⟨fraction, hfraction⟩ : ∃ fraction, x.significand = 2 ^ 52 + fraction :=
      ⟨x.significand - 2 ^ 52, by omega⟩
    have hbits : x.bits = field * 2 ^ 52 + fraction := by
      have hzero : x.isZero = false := by
        rw [isZero, beq_eq_false_iff_ne]
        omega
      rw [bits, hzero, if_neg Bool.false_ne_true, Nat.pow_eq]
      omega
    have hsign : x.bits / 2 ^ 63 % 2 = 0 := by omega
    have hupper : x.bits / 2 ^ 52 % 2 ^ 11 = field := by omega
    have hlower : x.bits % 2 ^ 52 = fraction := by omega
    refine ⟨by omega, ?_⟩
    rw [ofBits?, hsign, hupper, hlower, if_pos rfl]
    rw [if_neg (by omega), if_neg (by omega), toRat, hfraction, hfield]
    push_cast
    ring_nf

end CommentDensity.Binary64
