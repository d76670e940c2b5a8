import CommentDensity.Proofs.Number.Nearest
import CommentDensity.Proofs.Number.Numeral
import CommentDensity.Proofs.Number.Rounding
import CommentDensity.Proofs.Report.Reading

/-!
# CommentDensity.Proofs.Report.Hundredths

The ratio of a directory line, with two places.

The text is the ratio's hundredths, rounded once and from the exact value,
so that it is the nearest number with two places and greater ratios have no
smaller ones (`Measure.hundredths_correctly_rounded`).
-/

namespace CommentDensity

/-- What stands behind the last ` ratio:` of the line. -/
def Line.Shows (line : Line) (ratio : List Char) : Prop :=
  ∃ front, BeforeRatio front line.text.toList ∧
    line.text.toList = front ++ " ratio:".toList ++ ratio

theorem Line.Shows.unique {line : Line} {ratio ratio' : List Char} (h : line.Shows ratio)
    (h' : line.Shows ratio') : ratio = ratio' := by
  obtain ⟨front, hfront, htext⟩ := h
  obtain ⟨front', hfront', htext'⟩ := h'
  obtain rfl := hfront.unique hfront'
  exact List.append_cancel_left (htext.symm.trans htext')

theorem Line.shows_hundredths (m : Measure) : (Line.directory m).Shows m.ratio.hundredths := by
  have htext : (Line.directory m).text.toList = (m.root.display ++ field "comments" m.comments ++
      field "lines" m.lines).toList ++ " ratio:".toList ++ m.ratio.hundredths := by
    simp [text]
  exact ⟨_, htext ▸ beforeRatio_append (isNumeral_hundredths m.ratio) _, htext⟩

namespace Binary64

/-- The number of hundredths. -/
def roundedHundredths (x : Binary64) : ℕ := roundHalfEven (x.num * 100) x.den

theorem roundsTo_roundedHundredths (x : Binary64) :
    RoundsTo (x.toRat * 100) x.roundedHundredths := by
  have hrounds := roundsTo_roundHalfEven (x.num * 100) x.den_pos
  rwa [Nat.cast_mul, Nat.cast_ofNat, mul_div_right_comm, ← toRat_eq_div] at hrounds

/-- An integer and two digits. -/
def hundredthsNumeral (x : Binary64) : Numeral :=
  ⟨decimalDigits (x.roundedHundredths / 100), paddedDigits 2 (x.roundedHundredths % 100), 0⟩

variable {x : Binary64}

theorem read?_hundredths (x : Binary64) :
    Numeral.read? x.hundredths = some x.hundredthsNumeral :=
  Numeral.read?_point (isDigits_decimalDigits _) (isDigits_paddedDigits 2 _)

theorem length_fraction_hundredths (x : Binary64) : x.hundredthsNumeral.fraction.length = 2 :=
  length_paddedDigits (by decide) (Nat.mod_lt _ (by decide))

theorem value_hundredths (x : Binary64) :
    x.hundredthsNumeral.value = (x.roundedHundredths : ℚ) / 100 := by
  have hdigits : digitsValue 0 x.hundredthsNumeral.digits = x.roundedHundredths := by
    have hlength := length_fraction_hundredths x
    rw [Numeral.digits, digitsValue_append, digitsValue_eq, hlength]
    rw [hundredthsNumeral, digitsValue_decimalDigits, digitsValue_paddedDigits]
    omega
  have hexponent : x.hundredthsNumeral.exponent = 0 := rfl
  rw [Numeral.value, hdigits, hexponent, length_fraction_hundredths, div_eq_mul_inv]
  norm_num

/-- The integer part begins with a zero only if it is zero. -/
theorem whole_hundredths (h : x.hundredthsNumeral.whole.head? = some '0') :
    x.hundredthsNumeral.whole = ['0'] := by
  have hwhole : x.hundredthsNumeral.whole = decimalDigits (x.roundedHundredths / 100) := rfl
  by_cases hzero : x.roundedHundredths / 100 = 0
  · rw [hwhole, hzero]
    rfl
  · obtain ⟨d, ds, hds, hd⟩ := exists_decimalDigits_eq_cons hzero
    rw [hwhole, hds, List.head?_cons, Option.some.injEq] at h
    exact absurd h hd

/-- A distance in hundredths. -/
theorem abs_sub_div_hundred (q k : ℚ) : |q - k / 100| = |q * 100 - k| / 100 := by
  have hscaled : q - k / 100 = (q * 100 - k) / 100 := by ring
  rw [hscaled, abs_div, abs_of_pos (by norm_num : (0 : ℚ) < 100)]

/-- No multiple of a hundredth is nearer, and where another is as near, the
even one is taken. -/
theorem roundedHundredths_nearest (x : Binary64) (k : ℤ) :
    |x.toRat - x.roundedHundredths / 100| ≤ |x.toRat - k / 100| ∧
      (k ≠ x.roundedHundredths → |x.toRat - k / 100| = |x.toRat - x.roundedHundredths / 100| →
        x.roundedHundredths % 2 = 0) := by
  have hrounds := x.roundsTo_roundedHundredths
  rw [abs_sub_div_hundred, abs_sub_div_hundred]
  refine ⟨div_le_div_of_nonneg_right (hrounds.abs_sub_le k) (by norm_num), fun hk htie => ?_⟩
  exact hrounds.even_of_tie hk ((div_left_inj' (by norm_num)).mp htie)

theorem abs_sub_roundedHundredths_le (x : Binary64) :
    |x.toRat - x.roundedHundredths / 100| ≤ 1 / 200 := by
  rw [abs_sub_div_hundred]
  linarith [x.roundsTo_roundedHundredths.near]

theorem roundedHundredths_mono {y : Binary64} (h : x.toRat ≤ y.toRat) :
    x.roundedHundredths ≤ y.roundedHundredths :=
  x.roundsTo_roundedHundredths.mono y.roundsTo_roundedHundredths (by linarith)

end Binary64

/-! ## The line -/

/-- A directory line shows the ratio as an integer without needless zeros, a
point and two digits.  Of all multiples of a hundredth the number is the one
nearest to the ratio, a tie going to the even one; so it is at most half a
hundredth away, and a greater ratio shows no smaller number. -/
theorem Measure.hundredths_correctly_rounded (m : Measure) :
    ∃ text n, (Line.directory m).Shows text ∧ Numeral.read? text = some n ∧
      (text = n.whole ++ '.' :: n.fraction ∧ IsDigits n.whole ∧ IsDigits n.fraction ∧
        (n.whole.head? = some '0' → n.whole = ['0']) ∧ n.fraction.length = 2) ∧
      (∃ h : ℕ, n.value = h / 100 ∧ ∀ k : ℤ,
        |m.ratio.toRat - h / 100| ≤ |m.ratio.toRat - k / 100| ∧
        (k ≠ h → |m.ratio.toRat - k / 100| = |m.ratio.toRat - h / 100| → h % 2 = 0)) ∧
      |m.ratio.toRat - n.value| ≤ 1 / 200 ∧
      ∀ (m' : Measure) (text' : List Char) (n' : Numeral), (Line.directory m').Shows text' →
        Numeral.read? text' = some n' → m.ratio.toRat ≤ m'.ratio.toRat → n.value ≤ n'.value := by
  have hvalue := m.ratio.value_hundredths
  refine ⟨_, _, Line.shows_hundredths m, m.ratio.read?_hundredths,
    ⟨rfl, isDigits_decimalDigits _, isDigits_paddedDigits 2 _, Binary64.whole_hundredths,
      m.ratio.length_fraction_hundredths⟩,
    ⟨_, hvalue, m.ratio.roundedHundredths_nearest⟩, ?_, fun m' text' n' hshows hread hle => ?_⟩
  · rw [hvalue]
    exact m.ratio.abs_sub_roundedHundredths_le
  · rw [hshows.unique (Line.shows_hundredths m'), Binary64.read?_hundredths] at hread
    obtain rfl := Option.some.inj hread
    rw [hvalue, Binary64.value_hundredths]
    have hmono : (m.ratio.roundedHundredths : ℚ) ≤ m'.ratio.roundedHundredths := by
      exact_mod_cast Binary64.roundedHundredths_mono hle
    linarith

/-- Two ties: one goes down to the even hundredth, the other up. -/
example : (Binary64.ofQuotient 1 8).hundredths = "0.12".toList ∧
    (Binary64.ofQuotient 3 8).hundredths = "0.38".toList := by
  decide +kernel

end CommentDensity
