import CommentDensity.Number.DecimalText
import CommentDensity.Proofs.Text.Split
import Mathlib

/-!
# CommentDensity.Proofs.Number.Numeral

Decimal numerals, read as exact numbers.

A numeral is made of digits, maybe a point with more digits behind it, and
maybe an exponent with a sign (`Numeral.read?`).  Nothing is rounded: its
value is a fraction, and all its digits are kept.

A decimal is read back from either of its texts, with its value and its
digits: `Decimal.read?_positional`, `Decimal.read?_scientific`.
-/

namespace CommentDensity

/-! ## Numerals -/

/-- Digits in front of a point, digits behind it, and a power of ten. -/
structure Numeral where
  whole : List Char
  fraction : List Char
  exponent : ℤ

/-- One digit or more. -/
def IsDigits (cs : List Char) : Prop := cs ≠ [] ∧ ∀ c ∈ cs, c.isDigit = true

instance (cs : List Char) : Decidable (IsDigits cs) := inferInstanceAs (Decidable (_ ∧ _))

namespace Numeral

/-- All digits. -/
def digits (n : Numeral) : List Char := n.whole ++ n.fraction

/-- The number that is written. -/
def value (n : Numeral) : ℚ := digitsValue 0 n.digits * 10 ^ (n.exponent - n.fraction.length)

/-- The digits from the first that is not zero. -/
def significant (n : Numeral) : List Char := n.digits.dropWhile (· == '0')

/-- The significant digits up to the last that is not zero. -/
def trimmed (n : Numeral) : List Char := n.significant.rdropWhile (· == '0')

/-- Digits, and maybe a point with more digits behind it. -/
def readFixed? (exponent : ℤ) (text : List Char) : Option Numeral :=
  match split '.' text with
  | [whole] => if IsDigits whole then some ⟨whole, [], exponent⟩ else none
  | [whole, fraction] =>
    if IsDigits whole ∧ IsDigits fraction then some ⟨whole, fraction, exponent⟩ else none
  | _ => none

/-- A sign and digits. -/
def readSigned? : List Char → Option ℤ
  | '+' :: cs => (readDigits? cs).map fun n : ℕ => (n : ℤ)
  | '-' :: cs => (readDigits? cs).map fun n : ℕ => -(n : ℤ)
  | _ => none

/-- The numeral that a text is. -/
def read? (text : List Char) : Option Numeral :=
  match split 'e' text with
  | [mantissa] => readFixed? 0 mantissa
  | [mantissa, exponent] => (readSigned? exponent).bind fun e => readFixed? e mantissa
  | _ => none

/-- Digits on both sides of a point. -/
def IsPositional (text : List Char) : Prop :=
  ∃ whole fraction, text = whole ++ '.' :: fraction ∧ IsDigits whole ∧ IsDigits fraction

/-- A digit, digits behind a point if there are more, and an exponent with a
sign and two digits. -/
def IsScientific (text : List Char) : Prop :=
  ∃ d fraction sign a b, text = d :: fraction ++ ['e', sign, a, b] ∧ d.isDigit = true ∧
    (fraction = [] ∨ ∃ digits, fraction = '.' :: digits ∧ IsDigits digits) ∧
    (sign = '+' ∨ sign = '-') ∧ a.isDigit = true ∧ b.isDigit = true

end Numeral

/-! ## Digits -/

theorem notMem_of_isDigit {cs : List Char} (h : ∀ c ∈ cs, c.isDigit = true) {c : Char}
    (hc : c.isDigit = false) : c ∉ cs := by
  intro hmem
  rw [h c hmem] at hc
  cases hc

theorem isDigits_singleton {c : Char} (h : c.isDigit = true) : IsDigits [c] :=
  ⟨List.cons_ne_nil c [], by simpa using h⟩

theorem isDigits_decimalDigits (n : ℕ) : IsDigits (decimalDigits n) :=
  ⟨decimalDigits_ne_nil n, isDigit_decimalDigits n⟩

theorem isDigit_replicate {k : ℕ} : ∀ c ∈ List.replicate k '0', c.isDigit = true := by
  intro c hc
  rw [List.eq_of_mem_replicate hc]
  rfl

theorem isDigits_paddedDigits (width n : ℕ) : IsDigits (paddedDigits width n) := by
  constructor
  · simp [paddedDigits, decimalDigits_ne_nil]
  · intro c hc
    obtain hc | hc := List.mem_append.mp hc
    · exact isDigit_replicate c hc
    · exact isDigit_decimalDigits n c hc

/-- The digits in front count as many times ten as there are digits behind. -/
theorem digitsValue_eq (n : ℕ) (cs : List Char) :
    digitsValue n cs = n * 10 ^ cs.length + digitsValue 0 cs := by
  induction cs using List.reverseRecOn with
  | nil => simp [digitsValue]
  | append_singleton cs c ih =>
    rw [digitsValue_append, digitsValue_append, ih, List.length_append, List.length_singleton]
    simp only [digitsValue, List.foldl_cons, List.foldl_nil]
    ring

theorem digitsValue_replicate (k : ℕ) : digitsValue 0 (List.replicate k '0') = 0 := by
  induction k with
  | zero => rfl
  | succ k ih =>
    rw [List.replicate_succ', digitsValue_append, ih]
    rfl

/-- Zeros in front make no difference. -/
theorem digitsValue_zeros_append (k : ℕ) (cs : List Char) :
    digitsValue 0 (List.replicate k '0' ++ cs) = digitsValue 0 cs := by
  rw [digitsValue_append, digitsValue_replicate]

theorem digitsValue_paddedDigits (width n : ℕ) : digitsValue 0 (paddedDigits width n) = n := by
  rw [paddedDigits, digitsValue_zeros_append, digitsValue_decimalDigits]

/-- A number has at most `k` digits if it is below `10^k`. -/
theorem digitCount_le_iff {n k : ℕ} : digitCount n ≤ k ↔ n < 10 ^ k := by
  unfold digitCount
  split
  · next hn => simp [hn]
  · next hn =>
    rcases Nat.eq_zero_or_pos k with rfl | hk
    · have hpos := List.length_pos_iff.mpr (decimalDigits_ne_nil n)
      simp only [pow_zero]
      omega
    · exact Nat.length_toDigits_le_iff (by decide) hk

theorem lt_pow_digitCount (n : ℕ) : n < 10 ^ digitCount n := digitCount_le_iff.mp le_rfl

theorem pow_le_of_digitCount {n k : ℕ} (h : k < digitCount n) : 10 ^ k ≤ n := by
  by_contra! hlt
  exact absurd (digitCount_le_iff.mpr hlt) (not_le.mpr h)

theorem digitCount_of_ne_zero {n : ℕ} (hn : n ≠ 0) : digitCount n = (decimalDigits n).length := by
  rw [digitCount, if_neg hn]

theorem digitCount_pos {n : ℕ} (hn : n ≠ 0) : 0 < digitCount n := by
  rw [digitCount_of_ne_zero hn]
  exact List.length_pos_iff.mpr (decimalDigits_ne_nil n)

/-- The number of digits is where the number lies between powers of ten. -/
theorem digitCount_eq {n k : ℕ} (hlow : 10 ^ k ≤ n) (hhigh : n < 10 ^ (k + 1)) :
    digitCount n = k + 1 := by
  have hle := digitCount_le_iff.mpr hhigh
  have hlt : ¬ digitCount n ≤ k := fun h => absurd (digitCount_le_iff.mp h) (not_lt.mpr hlow)
  omega

theorem length_paddedDigits {width n : ℕ} (hwidth : 0 < width) (h : n < 10 ^ width) :
    (paddedDigits width n).length = width := by
  have hle : (decimalDigits n).length ≤ width :=
    (Nat.length_toDigits_le_iff (by decide) hwidth).mpr h
  rw [paddedDigits, List.length_append, List.length_replicate]
  omega

/-- A number other than zero does not begin with a zero. -/
theorem exists_decimalDigits_eq_cons {n : ℕ} (hn : n ≠ 0) :
    ∃ d ds, decimalDigits n = d :: ds ∧ d ≠ '0' := by
  induction n using Nat.strongRecOn with
  | _ n ih =>
    by_cases hlt : n < 10
    · have hchar : ∀ d < 10, d ≠ 0 → d.digitChar ≠ '0' := by decide
      exact ⟨n.digitChar, [], decimalDigits_of_lt hlt, hchar n hlt hn⟩
    · obtain ⟨d, ds, hds, hd⟩ := ih (n / 10) (by omega) (by omega)
      exact ⟨d, ds ++ [(n % 10).digitChar],
        by rw [decimalDigits_of_le (by omega), hds, List.cons_append], hd⟩

theorem dropWhile_decimalDigits {n : ℕ} (hn : n ≠ 0) :
    (decimalDigits n).dropWhile (· == '0') = decimalDigits n := by
  obtain ⟨d, ds, hds, hd⟩ := exists_decimalDigits_eq_cons hn
  have hd : (d == '0') = false := by simpa using hd
  rw [hds, List.dropWhile_cons, hd, if_neg Bool.false_ne_true]

theorem dropWhile_zeros_append {n : ℕ} (hn : n ≠ 0) (k : ℕ) :
    (List.replicate k '0' ++ decimalDigits n).dropWhile (· == '0') = decimalDigits n := by
  rw [List.dropWhile_append_of_pos fun c hc => by simp [List.eq_of_mem_replicate hc],
    dropWhile_decimalDigits hn]

/-- The last digit is the remainder by ten. -/
theorem exists_decimalDigits_eq_concat (n : ℕ) :
    ∃ ds, decimalDigits n = ds ++ [(n % 10).digitChar] := by
  by_cases hlt : n < 10
  · exact ⟨[], by rw [decimalDigits_of_lt hlt, Nat.mod_eq_of_lt hlt, List.nil_append]⟩
  · exact ⟨_, decimalDigits_of_le (by omega)⟩

theorem digitChar_ne_zero {n : ℕ} (h : n % 10 ≠ 0) : (n % 10).digitChar ≠ '0' := by
  have hchar : ∀ d < 10, d ≠ 0 → d.digitChar ≠ '0' := by decide
  exact hchar _ (Nat.mod_lt n (by decide)) h

/-- Ten times a number has one zero more. -/
theorem decimalDigits_mul_ten {n : ℕ} (hn : n ≠ 0) :
    decimalDigits (n * 10) = decimalDigits n ++ ['0'] := by
  rw [decimalDigits_of_le (by omega), Nat.mul_div_cancel _ (by decide), Nat.mul_mod_left]
  rfl

theorem decimalDigits_mul_pow {n : ℕ} (hn : n ≠ 0) (k : ℕ) :
    decimalDigits (n * 10 ^ k) = decimalDigits n ++ List.replicate k '0' := by
  induction k with
  | zero => rw [pow_zero, Nat.mul_one, List.replicate_zero, List.append_nil]
  | succ k ih =>
    have hne : n * 10 ^ k ≠ 0 := Nat.mul_ne_zero hn (pow_ne_zero k (by decide))
    rw [pow_succ, ← Nat.mul_assoc, decimalDigits_mul_ten hne, ih, List.append_assoc,
      ← List.replicate_succ']

theorem digitCount_mul_ten {n : ℕ} (hn : n ≠ 0) : digitCount (n * 10) = digitCount n + 1 := by
  rw [digitCount_of_ne_zero (by omega), digitCount_of_ne_zero hn, decimalDigits_mul_ten hn,
    List.length_append, List.length_singleton]

/-- Zeros at the end go away. -/
theorem length_rdropWhile_zeros_le (cs : List Char) (k : ℕ) :
    ((cs ++ List.replicate k '0').rdropWhile (· == '0')).length ≤ cs.length := by
  induction k with
  | zero =>
    rw [List.replicate_zero, List.append_nil]
    exact (List.rdropWhile_prefix _ _).length_le
  | succ k ih =>
    rw [List.replicate_succ', ← List.append_assoc, List.rdropWhile_concat_pos _ _ _ rfl]
    exact ih

/-! ## Reading what is written -/

namespace Numeral

variable {whole fraction : List Char}

theorem readFixed?_whole (e : ℤ) (hwhole : IsDigits whole) :
    readFixed? e whole = some ⟨whole, [], e⟩ := by
  rw [readFixed?, split_of_notMem (notMem_of_isDigit hwhole.2 rfl)]
  exact if_pos hwhole

theorem readFixed?_point (e : ℤ) (hwhole : IsDigits whole) (hfraction : IsDigits fraction) :
    readFixed? e (whole ++ '.' :: fraction) = some ⟨whole, fraction, e⟩ := by
  rw [readFixed?, split_cons_of_notMem (notMem_of_isDigit hwhole.2 rfl),
    split_of_notMem (notMem_of_isDigit hfraction.2 rfl)]
  exact if_pos ⟨hwhole, hfraction⟩

theorem read?_point (hwhole : IsDigits whole) (hfraction : IsDigits fraction) :
    read? (whole ++ '.' :: fraction) = some ⟨whole, fraction, 0⟩ := by
  have hmark : 'e' ∉ whole ++ '.' :: fraction := by
    simp [notMem_of_isDigit hwhole.2 (c := 'e') rfl,
      notMem_of_isDigit hfraction.2 (c := 'e') rfl]
  rw [read?, split_of_notMem hmark]
  exact readFixed?_point 0 hwhole hfraction

/-- A text in front of an exponent. -/
theorem read?_exponent {mantissa digits : List Char} {sign : Char} {e : ℤ}
    (hmantissa : 'e' ∉ mantissa) (hdigits : 'e' ∉ digits) (hsign : sign ≠ 'e')
    (hread : readSigned? (sign :: digits) = some e) :
    read? (mantissa ++ 'e' :: sign :: digits) = readFixed? e mantissa := by
  have hmark : 'e' ∉ sign :: digits := by simp [hsign.symm, hdigits]
  rw [read?, split_cons_of_notMem hmantissa, split_of_notMem hmark]
  dsimp only
  rw [hread, Option.bind_some]

theorem readSigned?_padded (width : ℕ) (e : ℤ) :
    readSigned? ((if e < 0 then '-' else '+') :: paddedDigits width e.natAbs) = some e := by
  have hread : readDigits? (paddedDigits width e.natAbs) = some e.natAbs := by
    have hdigits := isDigits_paddedDigits width e.natAbs
    rw [readDigits?, if_pos ⟨hdigits.1, List.all_eq_true.mpr hdigits.2⟩, digitsValue_paddedDigits]
  split
  · rw [readSigned?, hread, Option.map_some, Option.some.injEq]
    omega
  · rw [readSigned?, hread, Option.map_some, Option.some.injEq]
    omega

end Numeral

namespace Decimal

/-- The number that a decimal stands for. -/
def toRat (x : Decimal) : ℚ := x.digits * 10 ^ x.exponent

variable {x : Decimal}

/-- The text with a point, of a decimal with places behind the point. -/
theorem positional_eq (h : x.exponent < 0) :
    ∃ k whole fraction, x.positional = whole ++ '.' :: fraction ∧
      whole ++ fraction = List.replicate k '0' ++ decimalDigits x.digits ∧
      whole ≠ [] ∧ fraction.length = (-x.exponent).toNat := by
  have hpoint : x.point = (decimalDigits x.digits).length + x.exponent := rfl
  unfold positional
  dsimp only
  split
  · refine ⟨1 + (-x.point).toNat, ['0'], _, rfl, ?_, by simp, ?_⟩
    · rw [List.replicate_add, List.replicate_one, List.append_assoc]
    · rw [List.length_append, List.length_replicate]
      omega
  · refine ⟨0, (decimalDigits x.digits).take x.point.toNat,
      (decimalDigits x.digits).drop x.point.toNat, ?_, ?_, ?_, ?_⟩
    · rw [if_neg (by omega)]
    · rw [List.take_append_drop, List.replicate_zero, List.nil_append]
    · rw [ne_eq, List.take_eq_nil_iff, not_or]
      exact ⟨by omega, decimalDigits_ne_nil _⟩
    · rw [List.length_drop]
      omega

/-- The text with a point has the value and the digits of the decimal. -/
theorem read?_positional (hdigits : x.digits ≠ 0) (h : x.exponent < 0) :
    Numeral.IsPositional x.positional ∧ ∃ n, Numeral.read? x.positional = some n ∧
      n.value = x.toRat ∧ n.significant = decimalDigits x.digits := by
  obtain ⟨k, whole, fraction, htext, hall, hwhole, hlength⟩ := positional_eq h
  have hdigit : ∀ c ∈ whole ++ fraction, c.isDigit = true := by
    rw [hall]
    intro c hc
    obtain hc | hc := List.mem_append.mp hc
    · exact isDigit_replicate c hc
    · exact isDigit_decimalDigits _ c hc
  have hwhole : IsDigits whole := ⟨hwhole, fun c hc => hdigit c (List.mem_append_left _ hc)⟩
  have hfraction : IsDigits fraction := by
    refine ⟨?_, fun c hc => hdigit c (List.mem_append_right _ hc)⟩
    rintro rfl
    rw [List.length_nil] at hlength
    omega
  refine ⟨⟨whole, fraction, htext, hwhole, hfraction⟩, ⟨whole, fraction, 0⟩,
    htext ▸ Numeral.read?_point hwhole hfraction, ?_, ?_⟩
  · have hexponent : (0 : ℤ) - fraction.length = x.exponent := by omega
    rw [Numeral.value, Numeral.digits, hall, digitsValue_zeros_append, digitsValue_decimalDigits,
      hexponent, toRat]
  · rw [Numeral.significant, Numeral.digits, hall, dropWhile_zeros_append hdigits]

/-- It does not end in `.0` unless the last digit is a zero. -/
theorem not_suffix_positional (hlast : x.digits % 10 ≠ 0) (h : x.exponent < 0) :
    ¬ ['.', '0'] <:+ x.positional := by
  obtain ⟨k, whole, fraction, htext, hall, -, hlength⟩ := positional_eq h
  have hne : fraction ≠ [] := by
    rintro rfl
    rw [List.length_nil] at hlength
    omega
  obtain ⟨ds, hds⟩ := exists_decimalDigits_eq_concat x.digits
  have hfraction : fraction.getLast? = some (x.digits % 10).digitChar := by
    have hlast := congrArg List.getLast? hall
    rw [List.getLast?_append_of_ne_nil _ hne, hds, ← List.append_assoc,
      List.getLast?_concat] at hlast
    exact hlast
  rintro ⟨front, hfront⟩
  have hzero : x.positional.getLast? = some '0' := by
    rw [← hfront, List.getLast?_append_of_ne_nil _ (by simp)]
    rfl
  rw [htext, List.getLast?_append_of_ne_nil _ (by simp), List.getLast?_cons, hfraction] at hzero
  exact digitChar_ne_zero hlast (by simpa using hzero)

/-- The text with an exponent: a digit, the others behind a point, and the
place of the point. -/
theorem scientific_eq (hdigits : x.digits ≠ 0) :
    ∃ d ds mantissa, decimalDigits x.digits = d :: ds ∧
      x.scientific = d :: mantissa ++ 'e' ::
        (if x.point - 1 < 0 then '-' else '+') :: paddedDigits 2 (x.point - 1).natAbs ∧
      (mantissa = [] ∧ ds = [] ∨ mantissa = '.' :: ds ∧ ds ≠ []) := by
  obtain ⟨d, ds, hds, -⟩ := exists_decimalDigits_eq_cons hdigits
  unfold scientific
  rw [hds]
  cases ds with
  | nil => exact ⟨d, [], [], rfl, rfl, .inl ⟨rfl, rfl⟩⟩
  | cons c cs => exact ⟨d, c :: cs, _, rfl, rfl, .inr ⟨rfl, List.cons_ne_nil c cs⟩⟩

/-- The text with an exponent has the value and the digits of the decimal. -/
theorem read?_scientific (hdigits : x.digits ≠ 0) (h : (x.point - 1).natAbs < 100) :
    Numeral.IsScientific x.scientific ∧ ∃ n, Numeral.read? x.scientific = some n ∧
      n.value = x.toRat ∧ n.significant = decimalDigits x.digits := by
  obtain ⟨d, ds, mantissa, hds, htext, hmantissa⟩ := scientific_eq hdigits
  have hpoint : x.point = (decimalDigits x.digits).length + x.exponent := rfl
  have hall : [d] ++ ds = decimalDigits x.digits := hds.symm
  have hdigit : ∀ c ∈ d :: ds, c.isDigit = true := hds ▸ isDigit_decimalDigits x.digits
  have hfirst := isDigits_singleton (hdigit d List.mem_cons_self)
  have hrest : ds ≠ [] → IsDigits ds := fun hne =>
    ⟨hne, fun c hc => hdigit c (List.mem_cons_of_mem _ hc)⟩
  have hpadded := isDigits_paddedDigits 2 (x.point - 1).natAbs
  obtain ⟨a, b, hab⟩ : ∃ a b, paddedDigits 2 (x.point - 1).natAbs = [a, b] :=
    List.length_eq_two.mp (length_paddedDigits (by decide) h)
  -- the two shapes of what stands in front of the exponent
  obtain ⟨hform, hmark, hread⟩ :
      (mantissa = [] ∨ ∃ digits, mantissa = '.' :: digits ∧ IsDigits digits) ∧
      'e' ∉ d :: mantissa ∧
      ∀ e, Numeral.readFixed? e (d :: mantissa) = some ⟨[d], ds, e⟩ := by
    have hde : 'e' ∉ [d] := notMem_of_isDigit hfirst.2 rfl
    obtain ⟨rfl, rfl⟩ | ⟨rfl, hne⟩ := hmantissa
    · exact ⟨.inl rfl, hde, fun e => Numeral.readFixed?_whole e hfirst⟩
    · have hdse := notMem_of_isDigit (hrest hne).2 (c := 'e') rfl
      exact ⟨.inr ⟨ds, rfl, hrest hne⟩, by simpa [hdse] using hde,
        fun e => Numeral.readFixed?_point e hfirst (hrest hne)⟩
  refine ⟨⟨d, mantissa, _, a, b, hab ▸ htext, hfirst.2 d List.mem_cons_self, hform, ?_, ?_, ?_⟩,
    ⟨[d], ds, x.point - 1⟩, ?_, ?_, ?_⟩
  · split <;> simp
  · exact hpadded.2 a (by simp [hab])
  · exact hpadded.2 b (by simp [hab])
  · rw [htext, Numeral.read?_exponent hmark (notMem_of_isDigit hpadded.2 rfl)
      (by split <;> decide) (Numeral.readSigned?_padded 2 (x.point - 1)), hread]
  · have hexponent : x.point - 1 - (ds.length : ℤ) = x.exponent := by
      rw [hpoint, hds, List.length_cons]
      push_cast
      omega
    rw [Numeral.value, Numeral.digits, hall, digitsValue_decimalDigits, hexponent, toRat]
  · rw [Numeral.significant, Numeral.digits, hall, dropWhile_decimalDigits hdigits]

end Decimal

end CommentDensity
