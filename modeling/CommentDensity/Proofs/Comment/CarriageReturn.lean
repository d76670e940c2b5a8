import CommentDensity.Comment.Count
import CommentDensity.Proofs.Text.Newline

/-!
# CommentDensity.Proofs.Comment.CarriageReturn

Carriage returns in front of newlines, which no comment takes notice of.

The pass over a text knows of what is ahead its first character, and several
counts.  With a `\r` in front of a newline the first character is another
one, but neither of the two begins, ends or bars a comment: whatever comes
before them finds the same (`seenAlike_crlf`).  So where every `\r` of a text
has its `\n`, the pass goes on behind it as if the `\r` were not there
(`foldr_normalize`), and the text has as many comments as with its line ends
normalized (`count_normalize`).
-/

namespace CommentDensity

namespace Ahead

variable {style : Style}

/-- A character that comes before either of two positions finds the same
there: neither begins with a star or a slash, and what it takes from the
counts agrees. -/
structure SeenAlike (style : Style) (a b : Ahead) : Prop where
  here_eq : a.here = b.here
  line_eq : a.line = b.line
  close_eq : a.close = b.close
  closeBehind_eq : a.closeBehind = b.closeBehind
  closerBehind_eq : a.closerBehind = b.closerBehind
  closeAtStar_eq : a.closeAtStar style = b.closeAtStar style
  plain_left : a.next ≠ some '*' ∧ a.next ≠ some '/'
  plain_right : b.next ≠ some '*' ∧ b.next ≠ some '/'

theorem SeenAlike.before_eq {a b : Ahead} (h : SeenAlike style a b) (c : Char) :
    a.before style c = b.before style c := by
  simp [before, hereAt, h.here_eq, h.line_eq, h.close_eq, h.closeBehind_eq, h.closerBehind_eq,
    h.closeAtStar_eq, h.plain_left, h.plain_right]

/-- No comment begins with a `\r`. -/
theorem here_before_cr (a : Ahead) : (a.before style '\r').here = a.here := by
  cases style <;> simp [before, hereAt, Style.opener]

/-- A newline looks the same with a `\r` in front of it. -/
theorem seenAlike_crlf (a : Ahead) :
    SeenAlike style ((a.before style '\n').before style '\r') (a.before style '\n') where
  here_eq := here_before_cr (a.before style '\n')
  line_eq := by simp [before]
  close_eq := by simp [before]
  closeBehind_eq := by simp [before]
  closerBehind_eq := by cases style <;> simp [before, Style.closer]
  closeAtStar_eq := by cases style <;> simp [before, closeAtStar]
  plain_left := by simp [before]
  plain_right := by simp [before]

/-- The pass over text in which every `\r` has its `\n`: that over the
normalized text, with one more step for a `\r` at the front. -/
theorem foldr_normalize {s : List Char} (h : Newline.Paired s) :
    s.foldr (before style) atEnd =
      if s.head? = some '\r' then ((Newline.normalize s).foldr (before style) atEnd).before style '\r'
      else (Newline.normalize s).foldr (before style) atEnd := by
  induction s with
  | nil => rfl
  | cons c s ih =>
    obtain ⟨hnext, hs⟩ := Newline.paired_cons.mp h
    have ih := ih hs
    rw [List.foldr_cons, Newline.normalize_cons_of_paired h, List.head?_cons]
    by_cases hcr : c = '\r'
    · subst hcr
      have hplain : s.head? ≠ some '\r' := by simp [hnext rfl]
      rw [ih, if_neg hplain, if_pos rfl, if_pos rfl]
    · rw [if_neg (by simpa using hcr), if_neg hcr, List.foldr_cons, ih]
      split
      · next hhead =>
        -- the step for the `\r` at the front of `s` comes right behind that for its `\n`
        obtain ⟨u, rfl⟩ := List.head?_eq_some_iff.mp hhead
        have hu := Newline.paired_cons.mp hs
        obtain ⟨v, rfl⟩ := List.head?_eq_some_iff.mp (hu.1 rfl)
        rw [Newline.normalize_cons_of_paired hs, if_pos rfl,
          Newline.normalize_cons_of_paired hu.2, if_neg (by decide), List.foldr_cons,
          (seenAlike_crlf _).before_eq]
      · rfl

end Ahead

/-- Where every `\r` has its `\n`, the comments are those of the normalized
text. -/
theorem Style.count_normalize {s : List Char} (h : Newline.Paired s) (style : Style) :
    style.count (Newline.normalize s) = style.count s := by
  rw [Style.count, Style.count, Ahead.foldr_normalize h]
  split
  · exact (Ahead.here_before_cr _).symm
  · rfl

end CommentDensity
