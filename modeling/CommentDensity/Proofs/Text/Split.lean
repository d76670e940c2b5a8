import CommentDensity.Text.Split
import Mathlib.Data.List.TakeDrop

/-!
# CommentDensity.Proofs.Text.Split

Taking apart what was put together.

A list is cut at its separators, so elements that hold none come back as
they went in, whether the separator stood between them
(`split_intercalate`) or behind each (`split_terminated`, where an empty
part is left behind the last).  The last separator of a list is at one place
(`append_sep_inj`).  `span_append` is the same for a front that a reader takes
off because all of it is of one kind.
-/

namespace CommentDensity

variable {α : Type} {sep : α}

/-- A list that ends in the separator, or is empty, has parts that all do. -/
theorem exists_terminated {as : List α} (h : as = [] ∨ as.getLast? = some sep) :
    ∃ parts : List (List α), (∀ p ∈ parts, sep ∉ p) ∧
      as = parts.flatMap fun p => p ++ [sep] := by
  -- on the length: a part is taken off the front
  induction hn : as.length using Nat.strongRecOn generalizing as with
  | _ n ih =>
    obtain rfl | hlast := h
    · exact ⟨[], by simp, rfl⟩
    · obtain ⟨part, rest, rfl, hpart⟩ := List.eq_append_cons_of_mem (List.mem_of_getLast? hlast)
      have hrest : rest = [] ∨ rest.getLast? = some sep := by
        cases rest with
        | nil => exact .inl rfl
        | cons a rest => right; simpa [List.getLast?_append, List.getLast?_cons] using hlast
      have hlen : rest.length < n := by
        simp only [List.length_append, List.length_cons] at hn
        omega
      obtain ⟨parts, hparts, rfl⟩ := ih rest.length hlen hrest rfl
      exact ⟨part :: parts, by simpa using ⟨hpart, hparts⟩, by simp⟩

/-- Wherever else a list is cut, its last separator is not further in front. -/
theorem prefix_of_last {as bs as' bs' : List α} (h : as ++ sep :: bs = as' ++ sep :: bs')
    (hlast : sep ∉ bs) : as' <+: as := by
  obtain ⟨more, rfl, hmore⟩ | ⟨more, rfl, _⟩ := List.append_eq_append_iff.mp h
  · cases more with
    | nil => simp
    | cons a more =>
      have hbs : bs = more ++ sep :: bs' := (List.cons.inj hmore).2
      exact absurd (by simp [hbs]) hlast
  · exact List.prefix_append as' more

/-- The front that is taken off is what is of the kind, if the rest begins with
something else. -/
theorem span_append {p : α → Bool} {front rest : List α} (hfront : ∀ a ∈ front, p a = true)
    (hrest : ∀ a, rest.head? = some a → p a = false) : (front ++ rest).span p = (front, rest) := by
  rw [List.span_eq_takeWhile_dropWhile, List.takeWhile_append_of_pos hfront,
    List.dropWhile_append_of_pos hfront]
  cases rest with
  | nil => simp
  | cons a rest => simp [hrest a rfl]

theorem append_sep_inj {as bs as' bs' : List α} (h : as ++ sep :: bs = as' ++ sep :: bs')
    (hbs : sep ∉ bs) (hbs' : sep ∉ bs') : as = as' ∧ bs = bs' := by
  have hle : as'.length ≤ as.length := (prefix_of_last h hbs).length_le
  have hsame : as = as' := (prefix_of_last h.symm hbs').eq_of_length_le hle
  subst hsame
  exact ⟨rfl, (List.cons.inj (List.append_cancel_left h)).2⟩

variable [BEq α] [LawfulBEq α]

/-- The parts on both sides of a separator. -/
theorem split_append_cons (sep : α) (as bs : List α) :
    split sep (as ++ sep :: bs) = split sep as ++ split sep bs := by
  induction as with
  | nil => simp [split_cons]
  | cons a as ih =>
    rw [List.cons_append, split_cons, split_cons, ih]
    split
    · rfl
    · cases hs : split sep as with
      | nil => exact absurd hs (split_ne_nil sep as)
      | cons part parts => rfl

/-- No separator is left in a part. -/
theorem notMem_of_mem_split {as part : List α} (h : part ∈ split sep as) : sep ∉ part := by
  induction as generalizing part with
  | nil =>
    rw [List.mem_singleton.mp h]
    exact List.not_mem_nil
  | cons a as ih =>
    rw [split_cons] at h
    split at h
    · obtain rfl | h := List.mem_cons.mp h
      · exact List.not_mem_nil
      · exact ih h
    · next ha =>
      cases hs : split sep as with
      | nil => exact absurd hs (split_ne_nil sep as)
      | cons first parts =>
        rw [hs] at h ih
        obtain rfl | h := List.mem_cons.mp h
        · have hne : sep ≠ a := by
            rintro rfl
            exact ha (beq_self_eq_true sep)
          exact List.not_mem_cons_of_ne_of_not_mem hne (ih List.mem_cons_self)
        · exact ih (List.mem_cons_of_mem first h)

theorem split_of_notMem {as : List α} (h : sep ∉ as) : split sep as = [as] := by
  induction as with
  | nil => rfl
  | cons a as ih =>
    rw [List.mem_cons, not_or] at h
    have hne : (a == sep) = false := by simpa using Ne.symm h.1
    rw [split_cons, hne, ih h.2]
    rfl

/-- What stands in front of the first separator is a part. -/
theorem split_cons_of_notMem {part : List α} (h : sep ∉ part) (as : List α) :
    split sep (part ++ sep :: as) = part :: split sep as := by
  rw [split_append_cons, split_of_notMem h, List.singleton_append]

/-- What has been put together with a separator is taken apart at it. -/
theorem split_intercalate {part : List α} {parts : List (List α)} (hpart : sep ∉ part)
    (hparts : ∀ p ∈ parts, sep ∉ p) :
    split sep (List.intercalate [sep] (part :: parts)) = part :: parts := by
  induction parts generalizing part with
  | nil => rw [List.intercalate_singleton, split_of_notMem hpart]
  | cons next parts ih =>
    rw [List.intercalate_cons_cons, List.append_assoc, List.singleton_append,
      split_cons_of_notMem hpart, ih (hparts next List.mem_cons_self)
        fun p hp => hparts p (List.mem_cons_of_mem _ hp)]

/-- Parts that all end in the separator. -/
theorem split_terminated {parts : List (List α)} (h : ∀ p ∈ parts, sep ∉ p) :
    split sep (parts.flatMap fun p => p ++ [sep]) = parts ++ [[]] := by
  induction parts with
  | nil => rfl
  | cons part parts ih =>
    have hrest := ih fun p hp => h p (List.mem_cons_of_mem _ hp)
    rw [List.flatMap_cons, List.append_assoc, List.singleton_append,
      split_cons_of_notMem (h part List.mem_cons_self), hrest, List.cons_append]

end CommentDensity
