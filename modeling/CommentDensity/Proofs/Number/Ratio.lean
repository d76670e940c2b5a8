import CommentDensity.Measure
import CommentDensity.Proofs.Number.Quotient

/-!
# CommentDensity.Proofs.Number.Ratio

The ratio of a measure, as a number.

Three roundings make a ratio: one for each count, and one for the quotient
of the rounded counts (`Measure.quotient`).  Each of them keeps the order and
does not go past `1`, `2^64` or `2^-64`, so the ratio does neither
(`isNearest_ratio`, `inScale_quotient`).  Counts up to `2^53` are values of
the format, so then the quotient alone is rounded.
-/

namespace CommentDensity

namespace Binary64

variable {x y : Binary64} {n k : ℕ}

/-! ## Counts -/

@[simp] theorem ofNat_zero : ofNat 0 = zero := ofQuotient_zero 1

theorem inScale_natCast (hn : n ≠ 0) (h : n ≤ 2 ^ 64) : InScale n := by
  have hone : (1 : ℚ) ≤ n := by exact_mod_cast Nat.one_le_iff_ne_zero.mpr hn
  have hlimit : (n : ℚ) ≤ 2 ^ 64 := by exact_mod_cast h
  have hsmall : (2 : ℚ) ^ (-64 : ℤ) ≤ 1 := zpow_le_one_of_nonpos₀ one_le_two (by omega)
  exact ⟨hsmall.trans hone, by exact_mod_cast hlimit⟩

/-- A count is rounded to the nearest value. -/
theorem isNearest_ofNat (hn : n ≠ 0) (h : n ≤ 2 ^ 64) : (ofNat n).IsNearest n := by
  have hone : (n : ℚ) / (1 : ℕ) = n := by rw [Nat.cast_one, div_one]
  have hscale := inScale_natCast hn h
  rw [← hone] at hscale
  have hnearest := isNearest_ofQuotient hn one_ne_zero hscale
  rwa [hone] at hnearest

theorem one_le_toRat_ofNat (hn : n ≠ 0) (h : n ≤ 2 ^ 64) : 1 ≤ (ofNat n).toRat := by
  refine (isNearest_ofNat hn h).le_toRat ?_ ?_
  · exact_mod_cast isValue_natCast (n := 1) (by norm_num)
  · exact_mod_cast Nat.one_le_iff_ne_zero.mpr hn

theorem toRat_ofNat_le (hn : n ≠ 0) (h : n ≤ 2 ^ 64) : (ofNat n).toRat ≤ 2 ^ (64 : ℤ) :=
  (isNearest_ofNat hn h).toRat_le (isValue_two_zpow (by omega) (by omega))
    (by exact_mod_cast h)

theorem toRat_ofNat_mono (hn : n ≠ 0) (hle : n ≤ k) (h : k ≤ 2 ^ 64) :
    (ofNat n).toRat ≤ (ofNat k).toRat :=
  (isNearest_ofNat hn (hle.trans h)).mono (isNearest_ofNat (by omega) h) (by exact_mod_cast hle)

/-- Counts up to `2^53` are not changed. -/
theorem toRat_ofNat_of_le (h : n ≤ 2 ^ 53) : (ofNat n).toRat = n := by
  by_cases hn : n = 0
  · rw [hn, ofNat_zero, toRat_zero, Nat.cast_zero]
  · exact (isNearest_ofNat hn (h.trans (by norm_num))).toRat_eq (isValue_natCast h)

/-! ## Quotients of values -/

@[simp] theorem div_of_zero (y : Binary64) : zero.div y = zero := by
  have hnum : zero.num = 0 := by simp [num, zero]
  rw [div, hnum, Nat.zero_mul, ofQuotient_zero]

/-- The quotient of two values is rounded to the nearest value. -/
theorem isNearest_div (hx : 0 < x.toRat) (hy : 0 < y.toRat) (h : InScale (x.toRat / y.toRat)) :
    (x.div y).IsNearest (x.toRat / y.toRat) := by
  have hquotient : ((x.num * y.den : ℕ) : ℚ) / (y.num * x.den : ℕ) = x.toRat / y.toRat := by
    rw [toRat_eq_div, toRat_eq_div, div_div_div_eq, mul_comm (x.den : ℚ)]
    push_cast
    rfl
  rw [← hquotient] at h ⊢
  exact isNearest_ofQuotient (mul_ne_zero (num_ne_zero hx) y.den_pos.ne')
    (mul_ne_zero (num_ne_zero hy) x.den_pos.ne') h

end Binary64

open Binary64

theorem Count.toNat_ne_zero {c : Count} (h : c ≠ 0) : c.toNat ≠ 0 := fun hzero =>
  h (Count.ext_toNat hzero)

theorem Count.toNat_le (c : Count) : c.toNat ≤ 2 ^ 64 := c.le_limit.trans (by decide)

namespace Measure

variable {m m' : Measure}

/-- The quotient of the counts as they are rounded. -/
def quotient (m : Measure) : ℚ :=
  (Binary64.ofNat m.comments.toNat).toRat / (Binary64.ofNat m.lines.toNat).toRat

theorem inScale_quotient (hlines : m.lines ≠ 0) (hcomments : m.comments ≠ 0) :
    InScale m.quotient := by
  have hl := Count.toNat_ne_zero hlines
  have hc := Count.toNat_ne_zero hcomments
  have hllow := one_le_toRat_ofNat hl m.lines.toNat_le
  have hlhigh := toRat_ofNat_le hl m.lines.toNat_le
  have hclow := one_le_toRat_ofNat hc m.comments.toNat_le
  have hchigh := toRat_ofNat_le hc m.comments.toNat_le
  have hlpos : 0 < (Binary64.ofNat m.lines.toNat).toRat := by linarith
  constructor
  · rw [quotient, le_div_iff₀ hlpos]
    calc (2 : ℚ) ^ (-64 : ℤ) * (Binary64.ofNat m.lines.toNat).toRat
        ≤ 2 ^ (-64 : ℤ) * 2 ^ (64 : ℤ) := mul_le_mul_of_nonneg_left hlhigh (two_zpow_pos _).le
      _ = 1 := by rw [← zpow_add₀ two_ne_zero]; norm_num
      _ ≤ _ := hclow
  · rw [quotient, div_le_iff₀ hlpos]
    calc (Binary64.ofNat m.comments.toNat).toRat ≤ 2 ^ (64 : ℤ) := hchigh
      _ ≤ 2 ^ (64 : ℤ) * (Binary64.ofNat m.lines.toNat).toRat :=
          le_mul_of_one_le_right (two_zpow_pos _).le hllow

/-- The ratio is the rounded quotient of the rounded counts. -/
theorem isNearest_ratio (hlines : m.lines ≠ 0) (hcomments : m.comments ≠ 0) :
    m.ratio.IsNearest m.quotient := by
  have hl := one_le_toRat_ofNat (Count.toNat_ne_zero hlines) m.lines.toNat_le
  have hc := one_le_toRat_ofNat (Count.toNat_ne_zero hcomments) m.comments.toNat_le
  rw [ratio, if_neg hlines]
  exact isNearest_div (by linarith) (by linarith) (inScale_quotient hlines hcomments)

theorem ratio_of_no_comments (h : m.comments = 0) : m.ratio = .zero := by
  unfold ratio
  split
  · rfl
  · rw [h, Count.toNat_zero, ofNat_zero, Binary64.div_of_zero]

theorem isRegular_ratio (m : Measure) : m.ratio.IsRegular := by
  by_cases hlines : m.lines = 0
  · exact .inl (ratio_of_no_lines hlines)
  · by_cases hcomments : m.comments = 0
    · exact .inl (ratio_of_no_comments hcomments)
    · exact (isNearest_ratio hlines hcomments).regular

theorem inScale_ratio (hlines : m.lines ≠ 0) (hcomments : m.comments ≠ 0) :
    InScale m.ratio.toRat := by
  have hnearest := isNearest_ratio hlines hcomments
  have hscale := inScale_quotient hlines hcomments
  exact ⟨hnearest.le_toRat (isValue_two_zpow (by omega) (by omega)) hscale.le,
    hnearest.toRat_le (isValue_two_zpow (by omega) (by omega)) hscale.le'⟩

theorem toRat_ratio_eq_zero_iff (m : Measure) :
    m.ratio.toRat = 0 ↔ m.lines = 0 ∨ m.comments = 0 := by
  constructor
  · intro h
    by_contra! hne
    exact (inScale_ratio hne.1 hne.2).pos.ne' h
  · rintro (h | h)
    · rw [ratio_of_no_lines h, toRat_zero]
    · rw [ratio_of_no_comments h, toRat_zero]

/-- More comments make no smaller ratio. -/
theorem toRat_ratio_le_of_comments (hlines : m'.lines = m.lines)
    (hcomments : m.comments.toNat ≤ m'.comments.toNat) : m.ratio.toRat ≤ m'.ratio.toRat := by
  by_cases hl : m.lines = 0
  · rw [ratio_of_no_lines hl, ratio_of_no_lines (hlines.trans hl)]
  by_cases hc : m.comments = 0
  · rw [ratio_of_no_comments hc, toRat_zero]
    exact m'.ratio.toRat_nonneg
  have hc' : m'.comments ≠ 0 := fun hzero => Count.toNat_ne_zero hc (by
    rw [hzero, Count.toNat_zero] at hcomments
    exact Nat.le_zero.mp hcomments)
  refine (isNearest_ratio hl hc).mono (isNearest_ratio (hlines ▸ hl) hc') ?_
  rw [quotient, quotient, hlines]
  exact div_le_div_of_nonneg_right
    (toRat_ofNat_mono (Count.toNat_ne_zero hc) hcomments m'.comments.toNat_le)
    (toRat_nonneg _)

/-- More lines make no greater ratio. -/
theorem toRat_ratio_le_of_lines (hcomments : m'.comments = m.comments) (hl : m.lines ≠ 0)
    (hlines : m.lines.toNat ≤ m'.lines.toNat) : m'.ratio.toRat ≤ m.ratio.toRat := by
  by_cases hc : m.comments = 0
  · rw [ratio_of_no_comments hc, ratio_of_no_comments (hcomments.trans hc)]
  have hl' : m'.lines ≠ 0 := fun hzero => Count.toNat_ne_zero hl (by
    rw [hzero, Count.toNat_zero] at hlines
    exact Nat.le_zero.mp hlines)
  refine (isNearest_ratio hl' (hcomments ▸ hc)).mono (isNearest_ratio hl hc) ?_
  have hpos := one_le_toRat_ofNat (Count.toNat_ne_zero hl) m.lines.toNat_le
  rw [quotient, quotient, hcomments]
  exact div_le_div_of_nonneg_left (toRat_nonneg _) (by linarith)
    (toRat_ofNat_mono (Count.toNat_ne_zero hl) hlines m'.lines.toNat_le)

theorem toRat_ratio_of_eq (h : m.lines = m.comments) (hlines : m.lines ≠ 0) :
    m.ratio.toRat = 1 := by
  have hpos := one_le_toRat_ofNat (Count.toNat_ne_zero hlines) m.lines.toNat_le
  have hone : m.quotient = 1 := by
    rw [quotient, ← h]
    exact div_self (by linarith)
  have hnearest := isNearest_ratio hlines (h ▸ hlines)
  rw [hone] at hnearest
  exact hnearest.toRat_eq (by exact_mod_cast isValue_natCast (n := 1) (by norm_num))

/-- The ratio of counts that are values themselves. -/
theorem isNearest_ratio_of_le (h : m.lines ≠ 0) (hlines : m.lines.toNat ≤ 2 ^ 53)
    (hcomments : m.comments.toNat ≤ 2 ^ 53) :
    m.ratio.IsNearest (m.comments.toNat / m.lines.toNat) := by
  by_cases hc : m.comments = 0
  · have hnearest := isNearest_toRat (x := .zero) (.inl rfl)
    rw [toRat_zero] at hnearest
    rwa [ratio_of_no_comments hc, hc, Count.toNat_zero, Nat.cast_zero, zero_div]
  · have hnearest := isNearest_ratio h hc
    rwa [quotient, toRat_ofNat_of_le hlines, toRat_ofNat_of_le hcomments] at hnearest

/-! ## The ratio as a number -/

/-- The ratio is zero exactly without lines or without comments, and else
between `2^-64` and `2^64`; its bit pattern is that of a finite number, with
the sign clear.  It does not fall when there are more comments nor rise when
there are more lines, and is `1` where there are as many of both.

Of counts up to `2^53` it is the value nearest to their quotient, a tie going
to the even one, so that equal quotients have the same bit pattern. -/
theorem ratio_correctly_rounded (m : Measure) :
    (m.ratio.toRat = 0 ↔ m.lines = 0 ∨ m.comments = 0) ∧
    (m.lines ≠ 0 → m.comments ≠ 0 →
      2 ^ (-64 : ℤ) ≤ m.ratio.toRat ∧ m.ratio.toRat ≤ 2 ^ (64 : ℤ)) ∧
    (m.ratio.bits < 2 ^ 63 ∧ Binary64.ofBits? m.ratio.bits = some m.ratio.toRat) ∧
    (∀ m' : Measure, m'.lines = m.lines → m.comments.toNat ≤ m'.comments.toNat →
      m.ratio.toRat ≤ m'.ratio.toRat) ∧
    (∀ m' : Measure, m'.comments = m.comments → 1 ≤ m.lines.toNat →
      m.lines.toNat ≤ m'.lines.toNat → m'.ratio.toRat ≤ m.ratio.toRat) ∧
    (m.lines = m.comments → m.lines ≠ 0 → m.ratio.toRat = 1) ∧
    (m.lines ≠ 0 → m.lines.toNat ≤ 2 ^ 53 → m.comments.toNat ≤ 2 ^ 53 →
      m.ratio.IsNearest (m.comments.toNat / m.lines.toNat) ∧
      ∀ m' : Measure, m'.lines ≠ 0 → m'.lines.toNat ≤ 2 ^ 53 → m'.comments.toNat ≤ 2 ^ 53 →
        (m.comments.toNat / m.lines.toNat : ℚ) = m'.comments.toNat / m'.lines.toNat →
        m.ratio.bits = m'.ratio.bits) := by
  refine ⟨m.toRat_ratio_eq_zero_iff, fun hl hc => ?_, ofBits?_bits m.isRegular_ratio,
    fun m' hl hc => toRat_ratio_le_of_comments hl hc, fun m' hc hone hl => ?_, toRat_ratio_of_eq,
    fun h hl hc => ?_⟩
  · have hscale := inScale_ratio hl hc
    exact ⟨hscale.le, hscale.le'⟩
  · refine toRat_ratio_le_of_lines hc (fun hzero => ?_) hl
    rw [hzero] at hone
    exact absurd hone (by decide)
  · have hnearest := isNearest_ratio_of_le h hl hc
    refine ⟨hnearest, fun m' h' hl' hc' hsame => ?_⟩
    have hnearest' := isNearest_ratio_of_le h' hl' hc'
    rw [← hsame] at hnearest'
    rw [hnearest.unique hnearest']

/-- The quotient of one and three, which is no binary64. -/
example : (⟨.ofNat 3, .ofNat 1, .ofString "."⟩ : Measure).ratio.bits = 0x3fd5555555555555 := by
  decide +kernel

end Measure

end CommentDensity
