/-!
# CommentDensity.Text.Order

Dictionary order.

Sorting by an order that is linear forgets in which order a list came
(`LinearLe.mergeSort_eq`), and dictionary order is linear where that of the
elements is (`LinearLe.dictionaryLe`).
-/

namespace CommentDensity

/-- Lists in dictionary order: the first difference decides, and a proper
front comes first. -/
def dictionaryLe [DecidableEq α] (le : α → α → Bool) : List α → List α → Bool
  | [], _ => true
  | _ :: _, [] => false
  | a :: as, b :: bs => if a = b then dictionaryLe le as bs else le a b

/-- Texts in the order of their characters, which is that of their UTF-8
bytes. -/
def textLe : List Char → List Char → Bool := dictionaryLe (· ≤ ·)

/-- Lists of texts in dictionary order. -/
def textsLe : List (List Char) → List (List Char) → Bool := dictionaryLe textLe

/-! ## Linear orders -/

/-- Any two elements come in one order, and in both only if they are the
same. -/
structure LinearLe (le : α → α → Bool) : Prop where
  trans : ∀ a b c, le a b = true → le b c = true → le a c = true
  total : ∀ a b, (le a b || le b a) = true
  antisymm : ∀ a b, le a b = true → le b a = true → a = b

namespace LinearLe

variable {le : α → α → Bool}

theorem mergeSort_eq (h : LinearLe le) {as bs : List α} (hperm : as.Perm bs) :
    as.mergeSort le = bs.mergeSort le := by
  have hsorted := List.pairwise_mergeSort h.trans h.total
  refine List.Perm.eq_of_pairwise (fun a b _ _ => h.antisymm a b) (hsorted as) (hsorted bs) ?_
  exact (List.mergeSort_perm as le).trans (hperm.trans (List.mergeSort_perm bs le).symm)

variable [DecidableEq α]

/-! What two elements do not decide is left to `p`, `q` and `r`. -/

theorem trans_or_else (h : LinearLe le) {a b c : α} {p q r : Bool}
    (hab : (if a = b then p else le a b) = true) (hbc : (if b = c then q else le b c) = true)
    (hr : p = true → q = true → r = true) : (if a = c then r else le a c) = true := by
  by_cases heq : a = b
  · subst heq
    rw [if_pos rfl] at hab
    split
    · next hac => exact hr hab (by simpa [hac] using hbc)
    · next hac => simpa [hac] using hbc
  · rw [if_neg heq] at hab
    by_cases heq' : b = c
    · subst heq'
      rwa [if_neg heq]
    · rw [if_neg heq'] at hbc
      have hac : a ≠ c := by
        rintro rfl
        exact heq (h.antisymm a b hab hbc)
      rw [if_neg hac]
      exact h.trans a b c hab hbc

theorem total_or_else (h : LinearLe le) (a b : α) {p q : Bool} (hpq : (p || q) = true) :
    ((if a = b then p else le a b) || (if b = a then q else le b a)) = true := by
  by_cases heq : a = b
  · subst heq
    simpa using hpq
  · simpa [heq, Ne.symm heq] using h.total a b

theorem antisymm_or_else (h : LinearLe le) {a b : α} {p q : Bool}
    (hab : (if a = b then p else le a b) = true) (hba : (if b = a then q else le b a) = true) :
    a = b ∧ p = true ∧ q = true := by
  by_cases heq : a = b
  · subst heq
    exact ⟨rfl, by simpa using hab, by simpa using hba⟩
  · rw [if_neg heq] at hab
    rw [if_neg (Ne.symm heq)] at hba
    exact absurd (h.antisymm a b hab hba) heq

theorem dictionaryLe_trans (h : LinearLe le) (as bs cs : List α)
    (hab : dictionaryLe le as bs = true) (hbc : dictionaryLe le bs cs = true) :
    dictionaryLe le as cs = true := by
  induction as generalizing bs cs with
  | nil => rfl
  | cons a as ih =>
    match bs, cs with
    | [], _ => cases hab
    | b :: bs, [] => cases hbc
    | b :: bs, c :: cs => exact h.trans_or_else hab hbc (ih bs cs)

theorem dictionaryLe_total (h : LinearLe le) (as bs : List α) :
    (dictionaryLe le as bs || dictionaryLe le bs as) = true := by
  induction as generalizing bs with
  | nil => rfl
  | cons a as ih =>
    cases bs with
    | nil => rfl
    | cons b bs => exact h.total_or_else a b (ih bs)

theorem dictionaryLe_antisymm (h : LinearLe le) (as bs : List α)
    (hab : dictionaryLe le as bs = true) (hba : dictionaryLe le bs as = true) : as = bs := by
  induction as generalizing bs with
  | nil =>
    cases bs with
    | nil => rfl
    | cons b bs => cases hba
  | cons a as ih =>
    cases bs with
    | nil => cases hab
    | cons b bs =>
      obtain ⟨rfl, hab, hba⟩ := h.antisymm_or_else hab hba
      rw [ih bs hab hba]

theorem dictionaryLe (h : LinearLe le) : LinearLe (dictionaryLe le) :=
  ⟨h.dictionaryLe_trans, h.dictionaryLe_total, h.dictionaryLe_antisymm⟩

end LinearLe

theorem linearLe_textLe : LinearLe textLe := by
  have hchar : LinearLe fun a b : Char => decide (a ≤ b) :=
    ⟨fun a b c hab hbc => decide_eq_true
        (Char.le_trans (of_decide_eq_true hab) (of_decide_eq_true hbc)),
      fun a b => by simpa using Char.le_total a b,
      fun a b hab hba => Char.le_antisymm (of_decide_eq_true hab) (of_decide_eq_true hba)⟩
  exact hchar.dictionaryLe

theorem linearLe_textsLe : LinearLe textsLe := linearLe_textLe.dictionaryLe

end CommentDensity
