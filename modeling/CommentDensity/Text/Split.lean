/-!
# CommentDensity.Text.Split

Cutting a list at its separators.
-/

namespace CommentDensity

/-- Puts an element in front of the first of several parts. -/
def intoFirst (a : α) : List (List α) → List (List α)
  | [] => [[a]]
  | part :: parts => (a :: part) :: parts

/-- The parts between the separators, one more than there are separators. -/
def split [BEq α] (sep : α) (as : List α) : List (List α) :=
  as.foldr (fun a parts => if a == sep then [] :: parts else intoFirst a parts) [[]]

@[simp] theorem split_nil [BEq α] (sep : α) : split sep [] = [[]] := rfl

theorem split_cons [BEq α] (sep a : α) (as : List α) :
    split sep (a :: as) = if a == sep then [] :: split sep as else intoFirst a (split sep as) := rfl

theorem split_ne_nil [BEq α] (sep : α) (as : List α) : split sep as ≠ [] := by
  cases as with
  | nil => simp
  | cons a as =>
    rw [split_cons]
    split
    · simp
    · unfold intoFirst
      split <;> simp

/-- Nothing is lost: the parts with the separator between them are the list. -/
theorem intercalate_split [BEq α] [LawfulBEq α] (sep : α) (as : List α) :
    List.intercalate [sep] (split sep as) = as := by
  induction as with
  | nil => rfl
  | cons a as ih =>
    have hne := split_ne_nil sep as
    rw [split_cons]
    cases hs : split sep as with
    | nil => exact absurd hs hne
    | cons part parts =>
      rw [hs] at ih
      split
      · next h => simp_all [List.intercalate, List.intersperse]
      · cases parts <;> simp_all [intoFirst, List.intercalate, List.intersperse]

end CommentDensity
