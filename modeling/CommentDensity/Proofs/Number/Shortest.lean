import CommentDensity.Number.Shortest
import CommentDensity.Proofs.Number.Quotient
import CommentDensity.Proofs.Number.Numeral

/-!
# CommentDensity.Proofs.Number.Shortest

The shortest decimal that reads back.

With `k` digits the decimals next to a value are the two around it on the
grid of its `k`-th digit, and a decimal with fewer digits is on that grid or
below all of it.  So if any decimal of `k` digits reads back, one of the two
does (`isSome_withDigits?`), and with seventeen digits one always does
(`isSome_withDigits?_seventeen`).  The first of them in the order of `k`
therefore has the fewest digits (`digitCount_shortest_le`).
-/

namespace CommentDensity

/-! ## Sizes -/

theorem ten_ne_zero : (10 : ℚ) ≠ 0 := by norm_num

theorem ten_zpow_pos (e : ℤ) : (0 : ℚ) < 10 ^ e := by positivity

/-- A number lies between the powers of ten that its digits count. -/
theorem natCast_bounds {n : ℕ} (hn : n ≠ 0) :
    (10 : ℚ) ^ ((digitCount n : ℤ) - 1) ≤ n ∧ (n : ℚ) < 10 ^ (digitCount n : ℤ) := by
  have hpos := digitCount_pos hn
  have hlow : 10 ^ (digitCount n - 1) ≤ n := pow_le_of_digitCount (by omega)
  have hexponent : (digitCount n : ℤ) - 1 = (digitCount n - 1 : ℕ) := by omega
  constructor
  · rw [hexponent, zpow_natCast]
    exact_mod_cast hlow
  · rw [zpow_natCast]
    exact_mod_cast lt_pow_digitCount n

/-- A decimal lies between the powers of ten around its point. -/
theorem Decimal.toRat_bounds {x : Decimal} (h : x.digits ≠ 0) :
    10 ^ (x.point - 1) ≤ x.toRat ∧ x.toRat < 10 ^ x.point := by
  obtain ⟨hlow, hhigh⟩ := natCast_bounds h
  have hpos := ten_zpow_pos x.exponent
  have hpoint : x.point = digitCount x.digits + x.exponent := by
    rw [digitCount_of_ne_zero h]
    rfl
  have hpred : x.point - 1 = (digitCount x.digits : ℤ) - 1 + x.exponent := by omega
  rw [hpred, hpoint, zpow_add₀ ten_ne_zero, zpow_add₀ ten_ne_zero]
  exact ⟨mul_le_mul_of_nonneg_right hlow hpos.le, mul_lt_mul_of_pos_right hhigh hpos⟩

/-- The digits of the integer part say how large a fraction from one up is. -/
theorem quotient_bounds {n d : ℕ} (hd : 0 < d) (h : d ≤ n) :
    10 ^ ((digitCount (n / d) : ℤ) - 1) ≤ (n / d : ℚ) ∧
      (n / d : ℚ) < 10 ^ (digitCount (n / d) : ℤ) := by
  have hdpos : (0 : ℚ) < d := by exact_mod_cast hd
  obtain ⟨hlow, -⟩ := natCast_bounds (Nat.div_pos h hd).ne'
  have hhigh : n < 10 ^ digitCount (n / d) * d :=
    (Nat.div_lt_iff_lt_mul hd).mp (lt_pow_digitCount _)
  constructor
  · exact hlow.trans Nat.cast_div_le
  · rw [zpow_natCast, div_lt_iff₀ hdpos]
    exact_mod_cast hhigh

/-- Below one, those of the fraction upside down do. -/
theorem quotient_bounds_of_lt {n d : ℕ} (hn : 0 < n) (h : n < d) :
    10 ^ (-(digitCount ((d - 1) / n) : ℤ)) ≤ (n / d : ℚ) ∧
      (n / d : ℚ) < 10 ^ (1 - (digitCount ((d - 1) / n) : ℤ)) := by
  have hnpos : (0 : ℚ) < n := by exact_mod_cast hn
  have hdpos : (0 : ℚ) < d := by exact_mod_cast hn.trans h
  obtain ⟨k, hk⟩ : ∃ k, digitCount ((d - 1) / n) = k + 1 :=
    Nat.exists_eq_add_one.mpr (digitCount_pos (Nat.div_pos (by omega) hn).ne')
  have hlow : d - 1 < 10 ^ (k + 1) * n :=
    (Nat.div_lt_iff_lt_mul hn).mp (hk ▸ lt_pow_digitCount _)
  have hhigh : 10 ^ k * n ≤ d - 1 :=
    (Nat.le_div_iff_mul_le hn).mp (pow_le_of_digitCount (by omega))
  have hlow : d ≤ 10 ^ (k + 1) * n := by omega
  have hhigh : 10 ^ k * n < d := by omega
  have hpred : 1 - ((k + 1 : ℕ) : ℤ) = -(k : ℤ) := by omega
  rw [hk, hpred, zpow_neg, zpow_neg, zpow_natCast, zpow_natCast]
  constructor
  · rw [inv_le_comm₀ (by positivity) (by positivity), inv_div, div_le_iff₀ hnpos]
    exact_mod_cast hlow
  · rw [lt_inv_comm₀ (by positivity) (by positivity), inv_div, lt_div_iff₀ hnpos]
    exact_mod_cast hhigh

namespace Binary64

variable {x : Binary64} {k c : ℕ} {p : ℤ}

/-- The place of the first digit says how large the value is. -/
theorem place_bounds (h : 0 < x.toRat) :
    10 ^ (x.place - 1) ≤ x.toRat ∧ x.toRat < 10 ^ x.place := by
  rw [toRat_eq_div]
  unfold place
  split
  · next hle => exact quotient_bounds x.den_pos hle
  · next hlt =>
    have hnum := Nat.pos_of_ne_zero (num_ne_zero h)
    rw [sub_sub_cancel_left]
    exact quotient_bounds_of_lt hnum (Nat.lt_of_not_le hlt)

/-! ## Decimals in a cell -/

/-- Natural numbers compare as the numbers that they are multiples of. -/
theorem natCast_compare {a b : ℕ} {q r scale : ℚ} (hscale : 0 < scale) (ha : (a : ℚ) = q * scale)
    (hb : (b : ℚ) = r * scale) : (a ≤ b ↔ q ≤ r) ∧ (a < b ↔ q < r) := by
  rw [← mul_le_mul_iff_of_pos_right hscale, ← mul_lt_mul_iff_of_pos_right hscale, ← ha, ← hb]
  exact ⟨Nat.cast_le.symm, Nat.cast_lt.symm⟩

/-- The test says whether the decimal is in the cell. -/
theorem reads_iff (hx : x.IsNormal) : x.reads c p = true ↔ x.InCell (c * 10 ^ p) := by
  have htoRat : x.toRat = x.significand * 2 ^ x.exponent := rfl
  have hsignificand := hx.le_significand
  unfold reads InCell
  dsimp only
  generalize hl : (if x.significand = Nat.pow 2 52 then 4 * x.significand - 1
    else 4 * x.significand - 2) = low
  generalize hh : 4 * x.significand + 2 = high
  generalize hu : Nat.pow 2 x.exponent.toNat * Nat.pow 10 (-p).toNat = unit
  generalize hd : 4 * c * Nat.pow 10 p.toNat * Nat.pow 2 (-x.exponent).toNat = decimal
  -- everything in quarters of the last place, scaled to integers
  obtain ⟨scale, hscale, hunit, hdecimal⟩ : ∃ scale : ℚ, 0 < scale ∧
      (unit : ℚ) = 2 ^ x.exponent / 4 * scale ∧ (decimal : ℚ) = c * 10 ^ p * scale := by
    refine ⟨4 * ((2 ^ (-x.exponent).toNat * 10 ^ (-p).toNat : ℕ) : ℚ), by positivity, ?_, ?_⟩
    · rw [← hu, zpow_eq_div two_ne_zero x.exponent]
      push_cast [Nat.pow_eq]
      field_simp
    · rw [← hd, zpow_eq_div ten_ne_zero p]
      push_cast [Nat.pow_eq]
      field_simp
  have hlow : ((low * unit : ℕ) : ℚ) = (x.toRat - x.gap / 2) * scale := by
    have hone : 1 ≤ 4 * x.significand := by omega
    have htwo : 2 ≤ 4 * x.significand := by omega
    rw [Nat.cast_mul, hunit, ← hl, htoRat, gap, Nat.pow_eq]
    split
    · push_cast [hone]
      ring
    · push_cast [htwo]
      ring
  have hhigh : ((high * unit : ℕ) : ℚ) = (x.toRat + 2 ^ x.exponent / 2) * scale := by
    rw [Nat.cast_mul, hunit, ← hh, htoRat]
    push_cast
    ring
  obtain ⟨hle, hlt⟩ := natCast_compare hscale hlow hdecimal
  obtain ⟨hge, hgt⟩ := natCast_compare hscale hdecimal hhigh
  split <;> simp [hle, hlt, hge, hgt]

/-! ## The two decimals of so many digits -/

/-- The last point of the grid of the `k`-th digit that is not above `x`. -/
def gridBelow (x : Binary64) (k : ℕ) : ℕ :=
  x.num * Nat.pow 10 (-(x.place - k)).toNat / (x.den * Nat.pow 10 (x.place - k).toNat)

theorem toRat_gridPoint (hk : 1 ≤ k) : (gridPoint k c p).toRat = c * 10 ^ p := by
  obtain ⟨k, rfl⟩ := Nat.exists_eq_add_of_le' hk
  unfold gridPoint
  split
  · next hfull =>
    rw [Decimal.toRat, hfull, zpow_add_one₀ (by norm_num), Nat.add_sub_cancel]
    push_cast [Nat.pow_eq]
    ring
  · rfl

theorem digitCount_gridPoint (hk : 1 ≤ k) (hlow : 10 ^ (k - 1) ≤ c) (hhigh : c ≤ 10 ^ k) :
    digitCount (gridPoint k c p).digits = k := by
  obtain ⟨k, rfl⟩ := Nat.exists_eq_add_of_le' hk
  unfold gridPoint
  split
  · exact digitCount_eq le_rfl (Nat.pow_lt_pow_right (by decide) (by omega))
  · next hfull => exact digitCount_eq hlow (Nat.lt_of_le_of_ne hhigh hfull)

theorem gridBelow_eq (x : Binary64) (k : ℕ) :
    x.gridBelow k = ⌊x.toRat / 10 ^ (x.place - k)⌋₊ := by
  rw [gridBelow, ← Nat.floor_div_eq_div (K := ℚ), toRat_eq_div, zpow_eq_div ten_ne_zero,
    div_div_div_eq]
  push_cast [Nat.pow_eq]
  rfl

/-- The value lies between two points of the grid, and the lower one has `k`
digits. -/
theorem gridBelow_bounds (h : 0 < x.toRat) (hk : 1 ≤ k) :
    (10 ^ (k - 1) ≤ x.gridBelow k ∧ x.gridBelow k < 10 ^ k) ∧
      x.gridBelow k * 10 ^ (x.place - k) ≤ x.toRat ∧
      x.toRat < (x.gridBelow k + 1) * 10 ^ (x.place - k) := by
  obtain ⟨hlow, hhigh⟩ := place_bounds h
  have hpos := ten_zpow_pos (x.place - k)
  have hlast : ((k - 1 : ℕ) : ℤ) + (x.place - k) = x.place - 1 := by omega
  have hnext : (k : ℤ) + (x.place - k) = x.place := by omega
  have hnonneg : 0 ≤ x.toRat / 10 ^ (x.place - k) := by positivity
  rw [gridBelow_eq]
  refine ⟨⟨?_, ?_⟩, ?_, ?_⟩
  · rw [Nat.le_floor_iff hnonneg, le_div_iff₀ hpos, Nat.cast_pow, Nat.cast_ofNat,
      pow_mul_zpow ten_ne_zero, hlast]
    exact hlow
  · rw [Nat.floor_lt hnonneg, div_lt_iff₀ hpos, Nat.cast_pow, Nat.cast_ofNat,
      pow_mul_zpow ten_ne_zero, hnext]
    exact hhigh
  · exact (le_div_iff₀ hpos).mp (Nat.floor_le hnonneg)
  · exact (div_lt_iff₀ hpos).mp (Nat.lt_floor_add_one _)

theorem withDigits?_eq_some {d : Decimal} (h : x.withDigits? k = some d) :
    ∃ c, x.gridBelow k ≤ c ∧ c ≤ x.gridBelow k + 1 ∧ x.reads c (x.place - k) = true ∧
      d = gridPoint k c (x.place - k) := by
  unfold withDigits? at h
  dsimp only at h
  rw [← gridBelow] at h
  split at h
  · next hbelow habove =>
    split at h
    · exact ⟨_, by omega, le_rfl, habove, (Option.some.inj h).symm⟩
    · exact ⟨_, le_rfl, by omega, hbelow, (Option.some.inj h).symm⟩
  · next hbelow _ => exact ⟨_, le_rfl, by omega, hbelow, (Option.some.inj h).symm⟩
  · next _ habove => exact ⟨_, by omega, le_rfl, habove, (Option.some.inj h).symm⟩
  · cases h

theorem isSome_withDigits?_iff :
    (x.withDigits? k).isSome = true ↔ x.reads (x.gridBelow k) (x.place - k) = true ∨
      x.reads (x.gridBelow k + 1) (x.place - k) = true := by
  unfold withDigits?
  dsimp only
  rw [← gridBelow]
  split <;> simp [*]

/-- A decimal of so many digits reads back. -/
theorem inCell_of_withDigits? (hx : x.IsNormal) (hk : 1 ≤ k) {d : Decimal}
    (h : x.withDigits? k = some d) : x.InCell d.toRat ∧ digitCount d.digits = k := by
  obtain ⟨c, hlow, hhigh, hreads, rfl⟩ := withDigits?_eq_some h
  obtain ⟨⟨hbelow, habove⟩, -⟩ := gridBelow_bounds hx.toRat_pos hk
  exact ⟨toRat_gridPoint hk ▸ (reads_iff hx).mp hreads,
    digitCount_gridPoint hk (by omega) (by omega)⟩

/-- If a decimal of so many digits, or fewer, reads back, one is found. -/
theorem isSome_withDigits? (hx : x.IsNormal) (hk : 1 ≤ k) (hcount : digitCount c ≤ k)
    (hcell : x.InCell (c * 10 ^ p)) : (x.withDigits? k).isSome = true := by
  obtain ⟨⟨hdigits, -⟩, hbelow, habove⟩ := gridBelow_bounds hx.toRat_pos hk
  rw [isSome_withDigits?_iff, reads_iff hx, reads_iff hx, Nat.cast_add, Nat.cast_one]
  by_contra! hnone
  have hten := ten_zpow_pos (x.place - k)
  -- the decimal would lie strictly between the two points
  have hlow : x.gridBelow k * 10 ^ (x.place - k) < (c : ℚ) * 10 ^ p := by
    by_contra! hle
    exact hnone.1 (hcell.convex x.inCell_toRat hle hbelow)
  have hhigh : (c : ℚ) * 10 ^ p < (x.gridBelow k + 1) * 10 ^ (x.place - k) := by
    by_contra! hle
    exact hnone.2 (x.inCell_toRat.convex hcell habove.le hle)
  rcases le_or_gt (x.place - k) p with hle | hlt
  · -- on the grid, no point lies between them
    rw [zpow_eq_mul ten_ne_zero hle, ← mul_assoc] at hlow hhigh
    have hlow := lt_of_mul_lt_mul_right hlow hten.le
    have hhigh := lt_of_mul_lt_mul_right hhigh hten.le
    norm_cast at hlow hhigh
    omega
  · -- with places behind the grid, the decimal is below all of its points
    have hc : (c : ℚ) < 10 ^ k := by exact_mod_cast digitCount_le_iff.mp hcount
    have hgrid : (10 : ℚ) ^ (k - 1) ≤ x.gridBelow k := by exact_mod_cast hdigits
    refine lt_irrefl _ (hlow.trans ?_)
    calc (c : ℚ) * 10 ^ p < 10 ^ k * 10 ^ p := mul_lt_mul_of_pos_right hc (ten_zpow_pos p)
      _ = 10 ^ ((k : ℤ) + p) := pow_mul_zpow ten_ne_zero k p
      _ ≤ 10 ^ (((k - 1 : ℕ) : ℤ) + (x.place - k)) :=
          zpow_le_zpow_right₀ (by norm_num) (by omega)
      _ = 10 ^ (k - 1) * 10 ^ (x.place - k) := (pow_mul_zpow ten_ne_zero _ _).symm
      _ ≤ x.gridBelow k * 10 ^ (x.place - k) := mul_le_mul_of_nonneg_right hgrid hten.le

/-- Seventeen digits are enough: their grid is finer than the last place. -/
theorem isSome_withDigits?_seventeen (hx : x.IsNormal) : (x.withDigits? 17).isSome = true := by
  obtain ⟨⟨hdigits, -⟩, hbelow, habove⟩ := gridBelow_bounds hx.toRat_pos (k := 17) (by decide)
  rw [isSome_withDigits?_iff, reads_iff hx, reads_iff hx, Nat.cast_add, Nat.cast_one]
  have hstep := ten_zpow_pos (x.place - (17 : ℕ))
  generalize (10 : ℚ) ^ (x.place - (17 : ℕ)) = step at *
  have hgrid : (10 : ℚ) ^ 16 ≤ x.gridBelow 17 := by exact_mod_cast hdigits
  have hsmall : 10 ^ 16 * step ≤ x.toRat :=
    (mul_le_mul_of_nonneg_right hgrid hstep.le).trans hbelow
  have hpos := two_zpow_pos x.exponent
  have hgap := x.gap_pos
  by_cases hpower : x.significand = 2 ^ 52
  · -- the lower neighbour is nearer, so that only the upper point is safe
    have htoRat : x.toRat = 2 ^ 52 * 2 ^ x.exponent := by
      rw [toRat, hpower]
      push_cast
      rfl
    exact .inr (inCell_of_lt (by linarith) (by linarith))
  · have htoRat := hx.toRat_lt
    have hgap : x.gap = 2 ^ x.exponent := if_neg hpower
    rcases lt_or_ge (x.toRat - x.gridBelow 17 * step) (2 ^ x.exponent / 2) with hnear | hfar
    · exact .inl (inCell_of_lt (by linarith) (by linarith))
    · exact .inr (inCell_of_lt (by linarith) (by linarith))

/-! ## The fewest digits -/

/-- The shortest decimal is the first that is found. -/
theorem withDigits?_shortest (hx : x.IsNormal) :
    ∃ k, 1 ≤ k ∧ k ≤ 17 ∧ x.withDigits? k = some x.shortest ∧
      ∀ j, 1 ≤ j → j < k → x.withDigits? j = none := by
  have hsome : ((List.range' 1 17).findSome? x.withDigits?).isSome = true :=
    List.findSome?_isSome_iff.mpr ⟨17, by decide, isSome_withDigits?_seventeen hx⟩
  obtain ⟨d, hd⟩ := Option.isSome_iff_exists.mp hsome
  have hshortest : x.shortest = d := by rw [shortest, hd, Option.getD_some]
  obtain ⟨before, k, behind, hrange, hk, hnone⟩ := List.findSome?_eq_some_iff.mp hd
  have hsorted : (before ++ k :: behind).Pairwise (· < ·) := hrange ▸ List.pairwise_lt_range'
  have hmem : ∀ j, j ∈ before ++ k :: behind ↔ 1 ≤ j ∧ j < 18 := by
    intro j
    rw [← hrange, List.mem_range'_1]
  have hbounds := (hmem k).mp (by simp)
  refine ⟨k, by omega, by omega, hshortest ▸ hk, fun j hj hlt => hnone j ?_⟩
  obtain hbefore | hbehind := List.mem_append.mp ((hmem j).mpr (by omega))
  · exact hbefore
  · obtain rfl | hbehind := List.mem_cons.mp hbehind
    · exact absurd hlt (lt_irrefl j)
    · have hgt := (List.pairwise_cons.mp (List.pairwise_append.mp hsorted).2.1).1 j hbehind
      omega

/-- The shortest decimal reads back. -/
theorem inCell_shortest (hx : x.IsNormal) : x.InCell x.shortest.toRat := by
  obtain ⟨k, hk, -, hfound, -⟩ := withDigits?_shortest hx
  exact (inCell_of_withDigits? hx hk hfound).1

theorem InCell.pos {q : ℚ} (h : x.InCell q) (hx : x.IsNormal) : 0 < q := by
  have hle := hx.le_toRat
  have hgap := x.gap_le
  have hpos := two_zpow_pos x.exponent
  linarith [h.le.1]

/-- No decimal that reads back has fewer digits. -/
theorem digitCount_shortest_le (hx : x.IsNormal) (h : x.InCell (c * 10 ^ p)) :
    digitCount x.shortest.digits ≤ digitCount c := by
  obtain ⟨k, hk, -, hfound, hnone⟩ := withDigits?_shortest hx
  rw [(inCell_of_withDigits? hx hk hfound).2]
  by_contra! hlt
  have hc : c ≠ 0 := by
    rintro rfl
    have hpos := h.pos hx
    simp at hpos
  have hsome := isSome_withDigits? hx (digitCount_pos hc) le_rfl h
  rw [hnone _ (digitCount_pos hc) hlt] at hsome
  cases hsome

theorem digits_shortest_ne_zero (hx : x.IsNormal) : x.shortest.digits ≠ 0 := by
  intro hzero
  have hpos := (inCell_shortest hx).pos hx
  simp [Decimal.toRat, hzero] at hpos

/-- A zero at the end would be a digit too many. -/
theorem digits_shortest_mod_ten (hx : x.IsNormal) : x.shortest.digits % 10 ≠ 0 := by
  intro hzero
  obtain ⟨c, hc⟩ := Nat.dvd_of_mod_eq_zero hzero
  have hcell := inCell_shortest hx
  have hvalue : x.shortest.toRat = c * 10 ^ (x.shortest.exponent + 1) := by
    rw [Decimal.toRat, hc, zpow_add_one₀ ten_ne_zero]
    push_cast
    ring
  have hcount := digitCount_shortest_le hx (hvalue ▸ hcell)
  have hne := digits_shortest_ne_zero hx
  rw [hc, mul_comm, digitCount_mul_ten (by omega)] at hcount
  omega

/-- The point of the shortest decimal of a ratio takes two digits at most. -/
theorem point_shortest (hx : x.IsNormal) (hscale : InScale x.toRat) :
    (x.shortest.point - 1).natAbs < 100 := by
  obtain ⟨hlow, hhigh⟩ := Decimal.toRat_bounds (digits_shortest_ne_zero hx)
  obtain ⟨hcell, hcell'⟩ := (inCell_shortest hx).le
  have hle := hx.le_toRat
  have hgap := x.gap_le
  have hpos := two_zpow_pos x.exponent
  obtain ⟨hscale, hscale'⟩ := hscale
  norm_num at hscale hscale'
  have hbelow : (10 : ℚ) ^ (x.shortest.point - 1) < 10 ^ (20 : ℤ) := by
    refine hlow.trans_lt ?_
    norm_num
    linarith
  have habove : (10 : ℚ) ^ (-20 : ℤ) < 10 ^ x.shortest.point := by
    refine lt_trans ?_ hhigh
    norm_num
    linarith
  have hbelow := (zpow_lt_zpow_iff_right₀ (by norm_num)).mp hbelow
  have habove := (zpow_lt_zpow_iff_right₀ (by norm_num)).mp habove
  omega

/-! ## Whole values -/

/-- A decimal without places behind the point is an integer. -/
theorem natCast_mul_zpow (c : ℕ) (h : 0 ≤ p) : (c : ℚ) * 10 ^ p = (c * 10 ^ p.toNat : ℕ) := by
  obtain ⟨k, rfl⟩ := Int.eq_ofNat_of_zero_le h
  push_cast [Int.toNat_natCast, zpow_natCast]
  rfl

/-- A value that is no integer is not written as one. -/
theorem exponent_shortest_neg (hx : x.IsNormal) (hinteger : x.isInteger = false) :
    x.shortest.exponent < 0 := by
  by_contra! hexponent
  have hcell := inCell_shortest hx
  rw [Decimal.toRat, natCast_mul_zpow _ hexponent] at hcell
  generalize x.shortest.digits * 10 ^ x.shortest.exponent.toNat = n at hcell
  have hfraction : x.exponent ≤ -1 := by
    by_contra! hwhole
    rw [← Bool.not_eq_true, isInteger_iff] at hinteger
    refine hinteger ⟨x.significand * 2 ^ x.exponent.toNat, ?_⟩
    rw [toRat, zpow_eq_mul two_ne_zero (e := 0) (by omega), sub_zero, zpow_zero, mul_one]
    push_cast
    rfl
  -- the integer is a value itself, so that the value would be the integer
  have hhalf : (2 : ℚ) ^ x.exponent ≤ 2 ^ (-1 : ℤ) := zpow_le_zpow_right₀ one_le_two hfraction
  norm_num at hhalf
  have hn : n ≤ 2 ^ 53 := by
    have hlt := hx.toRat_lt
    have hle : (n : ℚ) ≤ 2 ^ 53 := by linarith [hcell.le.2]
    exact_mod_cast hle
  rw [← Bool.not_eq_true, isInteger_iff] at hinteger
  refine hinteger ⟨n, ?_⟩
  rw [(hcell.isNearest hx).toRat_eq (isValue_natCast hn), Int.cast_natCast]

/-- Below `10^16` the last place of an integer is at most one, or two from
`2^53` on, where all values are even. -/
theorem exponent_of_integer {n : ℕ} (hx : x.IsNormal) (hn : x.toRat = n) (hlt : n < 10 ^ 16) :
    (2 : ℚ) ^ x.exponent ≤ 1 ∨ 2 ^ 53 ≤ n ∧ n % 2 = 0 ∧ (2 : ℚ) ^ x.exponent = 2 := by
  have hle := hx.le_toRat
  have hcast : (n : ℚ) < 10 ^ 16 := by exact_mod_cast hlt
  rw [hn] at hle
  have hexponent : x.exponent ≤ 1 := by
    by_contra! hlarge
    have hpow : (2 : ℚ) ^ (2 : ℤ) ≤ 2 ^ x.exponent := zpow_le_zpow_right₀ one_le_two hlarge
    norm_num at hpow
    linarith
  rcases hexponent.lt_or_eq with hsmall | hone
  · exact .inl (zpow_le_one_of_nonpos₀ one_le_two (by omega))
  · have hsignificand : n = x.significand * 2 := by
      rw [toRat, hone, zpow_one] at hn
      exact_mod_cast hn.symm
    have hfull := hx.le_significand
    exact .inr ⟨by omega, by omega, by rw [hone, zpow_one]⟩

/-- No other even integer is in the cell of an integer below `10^16`. -/
theorem eq_of_inCell_of_even {n d : ℕ} (hx : x.IsNormal) (hn : x.toRat = n) (hlt : n < 10 ^ 16)
    (hcell : x.InCell d) (heven : d % 2 = 0) : n = d := by
  obtain ⟨hlow, hhigh⟩ := hcell.le
  have hgap := x.gap_le
  rw [hn] at hlow hhigh
  obtain hulp | ⟨-, hnEven, hulp⟩ := exponent_of_integer hx hn hlt
  · have hnd : (n : ℚ) < d + 1 := by linarith
    have hdn : (d : ℚ) < n + 1 := by linarith
    norm_cast at hnd hdn
    omega
  · have hnd : (n : ℚ) < d + 2 := by linarith
    have hdn : (d : ℚ) < n + 2 := by linarith
    norm_cast at hnd hdn
    omega

/-- A decimal with places behind the point is not in the cell of an integer
below `10^16`, if it has fewer digits. -/
theorem not_inCell_of_digitCount_lt {n : ℕ} (hx : x.IsNormal) (hn : x.toRat = n)
    (hlt : n < 10 ^ 16) (hp : p ≤ 0) (hcount : digitCount c < digitCount n) :
    ¬ x.InCell (c * 10 ^ p) := by
  intro hcell
  have hlow := hcell.le.1
  have hgap := x.gap_le
  rw [hn] at hlow
  have hone : (10 : ℚ) ^ p ≤ 1 := zpow_le_one_of_nonpos₀ (by norm_num) hp
  have hdecimal : (c : ℚ) * 10 ^ p ≤ c := mul_le_of_le_one_right (Nat.cast_nonneg c) hone
  obtain hulp | ⟨hlarge, -, hulp⟩ := exponent_of_integer hx hn hlt
  · have hless : c + 1 ≤ n := (lt_pow_digitCount c).trans_le (pow_le_of_digitCount hcount)
    have hless : (c : ℚ) + 1 ≤ n := by exact_mod_cast hless
    linarith
  · have hmost := digitCount_le_iff.mpr hlt
    have hfew : c < 10 ^ 15 := digitCount_le_iff.mp (by omega)
    have hnear : (n : ℚ) ≤ c + 1 := by linarith
    norm_cast at hnear
    omega

/-- A decimal with fewer digits than an integer below `10^16`, that reads as
it, is the integer with zeros left out. -/
theorem eq_mul_pow_of_inCell {n : ℕ} (hx : x.IsNormal) (hn : x.toRat = n) (hlt : n < 10 ^ 16)
    (hcell : x.InCell (c * 10 ^ p)) (hcount : digitCount c < digitCount n) :
    ∃ k : ℕ, n = c * 10 ^ k := by
  rcases le_or_gt p 0 with hp | hp
  · exact absurd hcell (not_inCell_of_digitCount_lt hx hn hlt hp hcount)
  · obtain ⟨k, hk⟩ : ∃ k, p.toNat = k + 1 := ⟨p.toNat - 1, by omega⟩
    rw [natCast_mul_zpow c hp.le, hk] at hcell
    have heven : c * 10 ^ (k + 1) % 2 = 0 := by
      rw [pow_succ, ← Nat.mul_assoc]
      omega
    exact ⟨k + 1, eq_of_inCell_of_even hx hn hlt hcell heven⟩

end Binary64

end CommentDensity
