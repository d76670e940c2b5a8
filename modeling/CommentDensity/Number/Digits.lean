/-!
# CommentDensity.Number.Digits

Natural numbers in decimal digits.

`decimalDigits` writes a number without leading zeros, `readDigits?` reads
one or more digits, and reading what was written gives the number back.
-/

namespace CommentDensity

/-! ## Writing -/

/-- The digits of a number, the first one not zero unless it is alone. -/
def decimalDigits (n : Nat) : List Char := Nat.toDigits 10 n

/-- The number of digits; zero counts as having none. -/
def digitCount (n : Nat) : Nat := if n = 0 then 0 else (decimalDigits n).length

/-- The digits with zeros in front, up to `width` of them. -/
def paddedDigits (width n : Nat) : List Char :=
  List.replicate (width - (decimalDigits n).length) '0' ++ decimalDigits n

/-! ## Reading -/

/-- The value of digits that follow a number. -/
def digitsValue (n : Nat) (cs : List Char) : Nat :=
  cs.foldl (fun n c => n * 10 + (c.toNat - '0'.toNat)) n

/-- The number that one or more digits write. -/
def readDigits? (cs : List Char) : Option Nat :=
  if cs ≠ [] ∧ cs.all Char.isDigit then some (digitsValue 0 cs) else none

theorem digitsValue_append (n : Nat) (cs ds : List Char) :
    digitsValue n (cs ++ ds) = digitsValue (digitsValue n cs) ds := by
  simp [digitsValue, List.foldl_append]

theorem isDigit_digitChar {d : Nat} (h : d < 10) : d.digitChar.isDigit = true := by
  have : ∀ d < 10, d.digitChar.isDigit = true := by decide
  exact this d h

theorem toNat_digitChar {d : Nat} (h : d < 10) : d.digitChar.toNat - 48 = d := by
  have : ∀ d < 10, d.digitChar.toNat - 48 = d := by decide
  exact this d h

/-- Digits are written by writing the higher ones first. -/
theorem decimalDigits_of_lt {n : Nat} (h : n < 10) : decimalDigits n = [n.digitChar] :=
  Nat.toDigits_of_lt_base h

theorem decimalDigits_of_le {n : Nat} (h : 10 ≤ n) :
    decimalDigits n = decimalDigits (n / 10) ++ [(n % 10).digitChar] :=
  Nat.toDigits_of_base_le (by decide) h

theorem isDigit_decimalDigits (n : Nat) : ∀ c ∈ decimalDigits n, c.isDigit = true := by
  induction n using Nat.strongRecOn with
  | _ n ih =>
    by_cases h : n < 10
    · simp [decimalDigits_of_lt h, isDigit_digitChar h]
    · rw [decimalDigits_of_le (by omega)]
      intro c hc
      rcases List.mem_append.mp hc with hc | hc
      · exact ih (n / 10) (by omega) c hc
      · rw [List.mem_singleton.mp hc]
        exact isDigit_digitChar (Nat.mod_lt _ (by decide))

theorem decimalDigits_ne_nil (n : Nat) : decimalDigits n ≠ [] := by
  by_cases h : n < 10
  · simp [decimalDigits_of_lt h]
  · simp [decimalDigits_of_le (Nat.le_of_not_lt h)]

theorem digitsValue_decimalDigits (n : Nat) : digitsValue 0 (decimalDigits n) = n := by
  induction n using Nat.strongRecOn with
  | _ n ih =>
    by_cases h : n < 10
    · simp [decimalDigits_of_lt h, digitsValue, toNat_digitChar h]
    · rw [decimalDigits_of_le (by omega), digitsValue_append, ih (n / 10) (by omega)]
      simp [digitsValue, toNat_digitChar (Nat.mod_lt n (by decide : 0 < 10))]
      omega

/-- Reading what was written gives the number back. -/
@[simp] theorem readDigits?_decimalDigits (n : Nat) : readDigits? (decimalDigits n) = some n := by
  have h : (decimalDigits n).all Char.isDigit := by
    simpa [List.all_eq_true] using isDigit_decimalDigits n
  simp [readDigits?, decimalDigits_ne_nil, h, digitsValue_decimalDigits]

end CommentDensity
