import CommentDensity.Proofs.Number.Ratio
import CommentDensity.Proofs.Number.Shortest

/-!
# CommentDensity.Proofs.Number.RatioText

The text of a ratio reads back.

A ratio is written in one of three ways (`Measure.ratioText_eq`): with an
exponent, as an integer with `.0` behind it, or with its places behind a
point.  Each of the texts is rounded to the ratio again, and no decimal with
fewer digits is (`IsShortest`), so that a text belongs to one ratio.
-/

namespace CommentDensity

/-! ## Shortest texts -/

/-- The text is a numeral that is rounded to `x`, and no decimal that is
rounded to `x` has fewer digits.  The zeros at the end of an integer that
ends in `.0` are not counted. -/
def IsShortest (text : List Char) (x : Binary64) : Prop :=
  ∃ n, Numeral.read? text = some n ∧ x.IsNearest n.value ∧
    ∀ (c : ℕ) (p : ℤ), x.IsNearest (c * 10 ^ p) → n.trimmed.length ≤ digitCount c ∧
      (¬ ['.', '0'] <:+ text → n.significant.length ≤ digitCount c)

/-- A text is rounded to one value. -/
theorem IsShortest.unique {text : List Char} {x y : Binary64} (hx : IsShortest text x)
    (hy : IsShortest text y) : x = y := by
  obtain ⟨n, hread, hnearest, -⟩ := hx
  obtain ⟨n', hread', hnearest', -⟩ := hy
  obtain rfl : n = n' := Option.some.inj (hread.symm.trans hread')
  exact hnearest.unique hnearest'

theorem Numeral.length_trimmed_le (n : Numeral) : n.trimmed.length ≤ n.significant.length :=
  (List.rdropWhile_prefix _ _).length_le

namespace Binary64

variable {x : Binary64}

/-- Values of this size have neighbours, so that their cells say what is
rounded to them. -/
theorem IsNearest.inCell_of_inScale {q : ℚ} (h : x.IsNearest q) (hx : x.IsNormal)
    (hscale : InScale x.toRat) : x.InCell q := by
  obtain ⟨hlow, hhigh⟩ := hx.exponent_bounds hscale
  exact (isNearest_iff_inCell hx (by omega) (by omega)).mp h

/-- A text with the value and the digits of the shortest decimal. -/
theorem isShortest_of_shortest (hx : x.IsNormal) (hscale : InScale x.toRat) {text : List Char}
    {n : Numeral} (hread : Numeral.read? text = some n) (hvalue : n.value = x.shortest.toRat)
    (hdigits : n.significant = decimalDigits x.shortest.digits) : IsShortest text x := by
  refine ⟨n, hread, ?_, fun c p hnearest => ?_⟩
  · rw [hvalue]
    exact (inCell_shortest hx).isNearest hx
  · have hcell := hnearest.inCell_of_inScale hx hscale
    have hcount : n.significant.length ≤ digitCount c := by
      rw [hdigits, ← digitCount_of_ne_zero (digits_shortest_ne_zero hx)]
      exact digitCount_shortest_le hx hcell
    exact ⟨n.length_trimmed_le.trans hcount, fun _ => hcount⟩

/-- An integer below `10^16` with `.0` behind it. -/
theorem isShortest_integer {n : ℕ} (hx : x.IsNormal) (hscale : InScale x.toRat)
    (hn : x.toRat = n) (hlt : n < 10 ^ 16) : IsShortest (decimalDigits n ++ ['.', '0']) x := by
  have hne : n ≠ 0 := fun hzero => hx.toRat_pos.ne' (by rw [hn, hzero, Nat.cast_zero])
  have hzero : IsDigits ['0'] := isDigits_singleton rfl
  have hall : decimalDigits n ++ ['0'] = decimalDigits (n * 10) := (decimalDigits_mul_ten hne).symm
  refine ⟨_, Numeral.read?_point (isDigits_decimalDigits n) hzero, ?_, fun c p hnearest => ?_⟩
  · have hvalue : Numeral.value ⟨decimalDigits n, ['0'], 0⟩ = x.toRat := by
      have hexponent : (0 : ℤ) - (['0'].length : ℕ) = -1 := rfl
      rw [Numeral.value, Numeral.digits, hall, digitsValue_decimalDigits, hn, hexponent,
        Nat.cast_mul, Nat.cast_ofNat, zpow_neg_one, mul_inv_cancel_right₀ ten_ne_zero]
    rw [hvalue]
    exact isNearest_toRat (.inr hx)
  · have hcell := hnearest.inCell_of_inScale hx hscale
    refine ⟨?_, fun hsuffix => absurd (List.suffix_append _ _) hsuffix⟩
    rw [Numeral.trimmed, Numeral.significant, Numeral.digits, hall,
      dropWhile_decimalDigits (by omega)]
    by_cases hcount : digitCount n ≤ digitCount c
    · rw [digitCount_of_ne_zero hne] at hcount
      refine le_trans ?_ hcount
      rw [decimalDigits_mul_ten hne]
      exact length_rdropWhile_zeros_le _ 1
    · obtain ⟨k, rfl⟩ := eq_mul_pow_of_inCell hx hn hlt hcell (by omega)
      have hc : c ≠ 0 := fun hzero => hne (by rw [hzero, Nat.zero_mul])
      rw [digitCount_of_ne_zero hc, Nat.mul_assoc, ← pow_succ, decimalDigits_mul_pow hc]
      exact length_rdropWhile_zeros_le _ _

/-- Zero has no digits that count. -/
theorem isShortest_zero : IsShortest (['0'] ++ ['.', '0']) zero := by
  have hdigit : IsDigits ['0'] := isDigits_singleton rfl
  refine ⟨_, Numeral.read?_point hdigit hdigit, ?_, fun c p _ => ⟨Nat.zero_le _, fun hsuffix => ?_⟩⟩
  · have hvalue : Numeral.value ⟨['0'], ['0'], 0⟩ = zero.toRat := by
      simp [Numeral.value, Numeral.digits, digitsValue]
    rw [hvalue]
    exact isNearest_toRat (.inl rfl)
  · exact absurd (List.suffix_append _ _) hsuffix

end Binary64

/-! ## The text of a ratio -/

namespace Measure

open Binary64

variable {m m' : Measure}

/-- The least ratio without an exponent is what `1e-4` is rounded to. -/
theorem isNearest_positionalFrom : positionalFrom.IsNearest (1 / 10 ^ 4) := by
  have hquotient : ((1 : ℕ) : ℚ) / (10000 : ℕ) = 1 / 10 ^ 4 := by norm_num
  have hscale : InScale (1 / 10 ^ 4) := ⟨by norm_num, by norm_num⟩
  rw [← hquotient] at hscale ⊢
  exact isNearest_ofQuotient one_ne_zero (by decide) hscale

theorem toRat_positionalBelow : positionalBelow.toRat = 10 ^ 16 := by
  have hvalue : IsValue (10 ^ 16) := ⟨5 ^ 16, 16, by norm_num, by omega, by omega, by norm_num⟩
  have hnearest := isNearest_ofNat (n := Nat.pow 10 16) (by decide) (by decide)
  rw [Nat.pow_eq, Nat.cast_pow, Nat.cast_ofNat] at hnearest
  exact hnearest.toRat_eq hvalue

/-- The ratio is not zero, and below `1e-4` or from `1e16` up. -/
def IsExtreme (m : Measure) : Prop :=
  m.ratio.toRat ≠ 0 ∧ (m.ratio.toRat < positionalFrom.toRat ∨ 10 ^ 16 ≤ m.ratio.toRat)

/-- The three ways to write a ratio. -/
theorem ratioText_eq (hlines : m.lines ≠ 0) :
    (m.IsExtreme ∧ m.ratioText = String.ofList m.ratio.shortest.scientific) ∨
    (¬ m.IsExtreme ∧ ∃ n : ℕ, m.ratio.toRat = n ∧
      m.ratioText = String.ofList (decimalDigits n ++ ['.', '0'])) ∨
    (¬ m.IsExtreme ∧ m.ratio.isInteger = false ∧
      m.ratioText = String.ofList m.ratio.shortest.positional) := by
  have hextreme : (!m.ratio.isZero && (m.ratio.lt positionalFrom || positionalBelow.le m.ratio))
      = true ↔ m.IsExtreme := by
    rw [Bool.and_eq_true, Bool.or_eq_true, Bool.not_eq_true', ← Bool.not_eq_true, isZero_iff,
      lt_iff, le_iff, toRat_positionalBelow, IsExtreme]
  unfold ratioText
  dsimp only
  rw [if_neg hlines]
  split
  · next h => exact .inl ⟨hextreme.mp h, rfl⟩
  · next h =>
    have hextreme : ¬ m.IsExtreme := fun hm => h (hextreme.mpr hm)
    split
    · next hinteger => exact .inr (.inl ⟨hextreme, _, toRat_of_isInteger hinteger, rfl⟩)
    · next hinteger => exact .inr (.inr ⟨hextreme, Bool.not_eq_true _ |>.mp hinteger, rfl⟩)

theorem isNormal_ratio (h : m.ratio.toRat ≠ 0) : m.ratio.IsNormal ∧ InScale m.ratio.toRat := by
  constructor
  · obtain hzero | hnormal := m.isRegular_ratio
    · exact absurd (by rw [hzero, toRat_zero]) h
    · exact hnormal
  · rw [ne_eq, toRat_ratio_eq_zero_iff, not_or] at h
    exact inScale_ratio h.1 h.2

theorem ratioText_scientific (h : m.IsExtreme)
    (htext : m.ratioText = String.ofList m.ratio.shortest.scientific) :
    IsShortest m.ratioText.toList m.ratio ∧ Numeral.IsScientific m.ratioText.toList := by
  obtain ⟨hnormal, hscale⟩ := isNormal_ratio h.1
  obtain ⟨hform, n, hread, hvalue, hdigits⟩ :=
    Decimal.read?_scientific (digits_shortest_ne_zero hnormal) (point_shortest hnormal hscale)
  rw [htext, String.toList_ofList]
  exact ⟨isShortest_of_shortest hnormal hscale hread hvalue hdigits, hform⟩

theorem ratioText_integer {n : ℕ} (h : ¬ m.IsExtreme) (hn : m.ratio.toRat = n)
    (htext : m.ratioText = String.ofList (decimalDigits n ++ ['.', '0'])) :
    IsShortest m.ratioText.toList m.ratio ∧ Numeral.IsPositional m.ratioText.toList ∧
      ['.', '0'] <:+ m.ratioText.toList := by
  rw [htext, String.toList_ofList]
  refine ⟨?_, ⟨_, _, rfl, isDigits_decimalDigits n, isDigits_singleton rfl⟩,
    List.suffix_append _ _⟩
  by_cases hzero : m.ratio.toRat = 0
  · have hratio : m.ratio = .zero :=
      m.isRegular_ratio.eq_of_toRat_eq (.inl rfl) (by rw [hzero, toRat_zero])
    have hn : n = 0 := by exact_mod_cast hn.symm.trans hzero
    rw [hratio, hn]
    exact isShortest_zero
  · obtain ⟨hnormal, hscale⟩ := isNormal_ratio hzero
    refine isShortest_integer hnormal hscale hn ?_
    have hlt : m.ratio.toRat < 10 ^ 16 := by
      by_contra! hle
      exact h ⟨hzero, .inr hle⟩
    rw [hn] at hlt
    exact_mod_cast hlt

theorem ratioText_positional (hinteger : m.ratio.isInteger = false)
    (htext : m.ratioText = String.ofList m.ratio.shortest.positional) :
    IsShortest m.ratioText.toList m.ratio ∧ Numeral.IsPositional m.ratioText.toList ∧
      ¬ ['.', '0'] <:+ m.ratioText.toList := by
  have hne : m.ratio.toRat ≠ 0 := by
    intro hzero
    rw [← Bool.not_eq_true, isInteger_iff] at hinteger
    exact hinteger ⟨0, by rw [hzero, Int.cast_zero]⟩
  obtain ⟨hnormal, hscale⟩ := isNormal_ratio hne
  have hexponent := exponent_shortest_neg hnormal hinteger
  obtain ⟨hform, n, hread, hvalue, hdigits⟩ :=
    Decimal.read?_positional (digits_shortest_ne_zero hnormal) hexponent
  rw [htext, String.toList_ofList]
  exact ⟨isShortest_of_shortest hnormal hscale hread hvalue hdigits, hform,
    Decimal.not_suffix_positional (digits_shortest_mod_ten hnormal) hexponent⟩

theorem isShortest_ratioText (hlines : m.lines ≠ 0) : IsShortest m.ratioText.toList m.ratio := by
  obtain ⟨h, htext⟩ | ⟨h, n, hn, htext⟩ | ⟨-, hinteger, htext⟩ := ratioText_eq hlines
  · exact (ratioText_scientific h htext).1
  · exact (ratioText_integer h hn htext).1
  · exact (ratioText_positional hinteger htext).1

theorem isScientific_ratioText (hlines : m.lines ≠ 0) (h : m.IsExtreme) :
    Numeral.IsScientific m.ratioText.toList := by
  obtain ⟨-, htext⟩ | ⟨hnot, -⟩ | ⟨hnot, -⟩ := ratioText_eq hlines
  · exact (ratioText_scientific h htext).2
  · exact absurd h hnot
  · exact absurd h hnot

theorem isPositional_ratioText (hlines : m.lines ≠ 0) (h : ¬ m.IsExtreme) :
    Numeral.IsPositional m.ratioText.toList ∧
      (['.', '0'] <:+ m.ratioText.toList ↔ ∃ k : ℤ, m.ratio.toRat = k) := by
  obtain ⟨hextreme, -⟩ | ⟨-, n, hn, htext⟩ | ⟨-, hinteger, htext⟩ := ratioText_eq hlines
  · exact absurd hextreme h
  · obtain ⟨-, hform, hsuffix⟩ := ratioText_integer h hn htext
    exact ⟨hform, iff_of_true hsuffix ⟨n, by rw [hn, Int.cast_natCast]⟩⟩
  · obtain ⟨-, hform, hsuffix⟩ := ratioText_positional hinteger htext
    rw [← Bool.not_eq_true, isInteger_iff] at hinteger
    exact ⟨hform, iff_of_false hsuffix hinteger⟩

/-- Only without lines is a bare `0` written: other texts have a point or an
exponent. -/
theorem ratioText_eq_zero_iff (m : Measure) : m.ratioText = "0" ↔ m.lines = 0 := by
  constructor
  · intro h
    by_contra hlines
    by_cases hextreme : m.IsExtreme
    · obtain ⟨d, fraction, sign, a, b, htext, -⟩ := isScientific_ratioText hlines hextreme
      rw [h] at htext
      have hmark : 'e' ∈ ("0" : String).toList := by simp [htext]
      exact absurd hmark (by decide)
    · obtain ⟨⟨whole, fraction, htext, -⟩, -⟩ := isPositional_ratioText hlines hextreme
      rw [h] at htext
      have hmark : '.' ∈ ("0" : String).toList := by simp [htext]
      exact absurd hmark (by decide)
  · intro h
    unfold ratioText
    dsimp only
    rw [if_pos h]

/-- Two texts are equal if the ratios are, and only then. -/
theorem ratioText_eq_iff (hlines : m.lines ≠ 0) (hlines' : m'.lines ≠ 0) :
    m.ratioText = m'.ratioText ↔ m.ratio = m'.ratio := by
  constructor
  · intro h
    have hshortest := isShortest_ratioText hlines
    rw [h] at hshortest
    exact hshortest.unique (isShortest_ratioText hlines')
  · intro h
    unfold ratioText
    dsimp only
    rw [if_neg hlines, if_neg hlines', h]

/-- The text is a bare `0` without lines, and only then.  Every other text is
rounded to the ratio again, and has the fewest digits of all decimals that
are: with an exponent of two digits if the ratio is not zero and below `1e-4`
or from `1e16` up, and else with digits on both sides of a point, which end
in `.0` exactly for integers.  So two texts are equal if the ratios are, and
only then. -/
theorem ratioText_reads_back (m : Measure) :
    (m.ratioText = "0" ↔ m.lines = 0) ∧
    (m.lines ≠ 0 →
      IsShortest m.ratioText.toList m.ratio ∧
      (m.IsExtreme → Numeral.IsScientific m.ratioText.toList) ∧
      (¬ m.IsExtreme → Numeral.IsPositional m.ratioText.toList ∧
        (['.', '0'] <:+ m.ratioText.toList ↔ ∃ k : ℤ, m.ratio.toRat = k)) ∧
      ∀ m' : Measure, m'.lines ≠ 0 → (m.ratioText = m'.ratioText ↔ m.ratio = m'.ratio)) ∧
    positionalFrom.IsNearest (1 / 10 ^ 4) :=
  ⟨m.ratioText_eq_zero_iff, fun hlines =>
    ⟨isShortest_ratioText hlines, isScientific_ratioText hlines, isPositional_ratioText hlines,
      fun _ hlines' => ratioText_eq_iff hlines hlines'⟩, isNearest_positionalFrom⟩

/-- A ratio in each of the two forms. -/
example : (⟨.ofNat 3, .ofNat 1, .ofString "."⟩ : Measure).ratioText = "0.3333333333333333" ∧
    (⟨.ofNat 20000, .ofNat 1, .ofString "."⟩ : Measure).ratioText = "5e-05" := by
  decide +kernel

end Measure

end CommentDensity
