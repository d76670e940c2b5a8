import CommentDensity.Comment.Scan

/-!
# CommentDensity.Comment.Count

Counting comments in one pass.

The count from a position on depends on the text behind it alone, and so do
the counts behind the places a comment that starts there may end.  `Ahead`
holds those counts for one position, and `Ahead.before` moves it one
character to the left.  A right fold therefore counts a text in time
proportional to its length, however many openers are never closed.

`foldr_before` says that each field is what it is named for, and
`count_eq_scan` that the result is the scan's.
-/

namespace CommentDensity

/-- What is known about the text from a position on. -/
structure Ahead where
  /-- Its first character. -/
  next : Option Char
  /-- Its comments. -/
  here : Nat
  /-- The comments behind its first character. -/
  behind : Nat
  /-- The comments behind its first `\n`. -/
  line : Option Nat
  /-- The comments behind the end of a block whose opening stars end here. -/
  close : Option Nat
  /-- The same behind the stars it begins with, if it does. -/
  closeBehind : Option Nat
  /-- The comments behind a closer that stands behind those stars. -/
  closerBehind : Option Nat
  /-- The comments behind a block whose opener stands directly before. -/
  opened : Option Nat
  deriving DecidableEq, Repr

namespace Ahead

/-- At the end of a text there is nothing ahead. -/
def atEnd : Ahead where
  next := none
  here := 0
  behind := 0
  line := none
  close := none
  closeBehind := none
  closerBehind := none
  opened := none

/-- Where a star comes before the position: the end of a block that is open
at that star. -/
def closeAtStar (style : Style) (a : Ahead) : Option Nat :=
  match style, a.next with
  | .csharp, some '/' => some a.behind
  | .csharp, _ => a.close
  | .fsharp, none => none
  | .fsharp, some '/' => none
  | .fsharp, some ')' => a.close.or (some a.behind)
  | .fsharp, _ => a.close

/-- The comments from a character on, when it comes before the position. -/
def hereAt (style : Style) (c : Char) (a : Ahead) : Nat :=
  let found :=
    if c = '/' ∧ a.next = some '/' then a.line
    else if c = style.opener ∧ a.next = some '*' then a.opened
    else none
  match found with
  | some n => n + 1
  | none => a.here

/-- The position one character to the left. -/
def before (style : Style) (c : Char) (a : Ahead) : Ahead :=
  if c = '*' then
    { next := some c
      here := a.here
      behind := a.here
      line := a.line
      close := a.closeAtStar style
      closeBehind := a.closeBehind
      closerBehind := a.closerBehind
      opened := a.closeBehind.or (if a.next = some '*' then a.closerBehind else none) }
  else
    { next := some c
      here := a.hereAt style c
      behind := a.here
      line := if c = '\n' then some a.here else a.line
      close := a.close
      closeBehind := a.close
      closerBehind := if c = style.closer then some a.here else none
      opened := none }

end Ahead

/-- How many comments a text has. -/
def Style.count (style : Style) (s : List Char) : Nat :=
  (s.foldr (Ahead.before style) Ahead.atEnd).here

/-! ## The fold computes the scan -/

namespace Ahead

/-- What is ahead in a text, field by field from the rules of the scan. -/
def ofText (style : Style) (s : List Char) : Ahead where
  next := s.head?
  here := style.scan s
  behind := style.scan s.tail
  line := (Style.afterLine? s).map style.scan
  close := (style.close? s).map style.scan
  closeBehind := (style.close? (s.dropWhile (· = '*'))).map style.scan
  closerBehind :=
    match s.dropWhile (· = '*') with
    | [] => none
    | c :: r => if c = style.closer then some (style.scan r) else none
  opened := if s.head? = some '*' then (style.blockRest? s).map style.scan else none

theorem atEnd_eq_ofText (style : Style) : atEnd = ofText style [] := by
  simp [atEnd, ofText, Style.afterLine?, Style.close?]

theorem closeAtStar_ofText (style : Style) (s : List Char) :
    (ofText style s).closeAtStar style = (style.close? ('*' :: s)).map style.scan := by
  cases s with
  | nil => cases style <;> simp [closeAtStar, ofText, Style.close?]
  | cons c s =>
    by_cases h : c = '/'
    · subst h; cases style <;> simp [closeAtStar, ofText]
    · cases style with
      | csharp =>
        rw [Style.close?_csharp_star h]
        simp only [closeAtStar, ofText, List.head?_cons]
        split <;> simp_all
      | fsharp =>
        by_cases h' : c = ')'
        · subst h'
          simp only [Style.close?_fsharp_star_paren, closeAtStar, ofText, List.head?_cons,
            List.tail_cons, Style.close?_of_ne_star .fsharp (by decide : ')' ≠ '*')]
          cases Style.close? .fsharp s <;> simp
        · rw [Style.close?_fsharp_star h h']
          simp only [closeAtStar, ofText, List.head?_cons]
          split <;> simp_all

/-- A block's opening stars, taken one at a time. -/
theorem opened_ofText (style : Style) (s : List Char) :
    (style.blockRest? ('*' :: s)).map style.scan =
      (ofText style s).closeBehind.or
        (if (ofText style s).next = some '*' then (ofText style s).closerBehind else none) := by
  have hdrop : ('*' :: s).dropWhile (· = '*') = s.dropWhile (· = '*') := by simp
  simp only [Style.blockRest?, ofText, hdrop]
  cases hc : style.close? (s.dropWhile (· = '*')) with
  | some r => simp
  | none =>
    cases s with
    | nil => simp
    | cons c s =>
      by_cases h : c = '*'
      · subst h
        have hle : (s.dropWhile (· = '*')).length ≤ s.length :=
          (List.dropWhile_suffix _).length_le
        have hn : ¬(s.length + 1 + 1 ≤ (s.dropWhile (· = '*')).length + 1) := by omega
        simp only [List.dropWhile_cons, List.length_cons, decide_true, ↓reduceIte, hn,
          List.head?_cons, Option.map_none, Option.none_or]
        cases s.dropWhile (· = '*') with
        | nil => rfl
        | cons d r => by_cases hd : d = style.closer <;> simp [hd]
      · simp [h]

theorem before_ofText (style : Style) (c : Char) (s : List Char) :
    before style c (ofText style s) = ofText style (c :: s) := by
  unfold before
  split
  · next h =>
    subst h
    have hrest : style.rest? ('*' :: s) = none := by
      cases style <;> cases s <;> simp [Style.rest?, Style.opener]
    simp only [closeAtStar_ofText, ← opened_ofText]
    simp [ofText, Style.scan_of_none hrest, Style.afterLine?]
  · next h =>
    have hdrop : (c :: s).dropWhile (· = '*') = c :: s := by simp [h]
    have hclose : style.close? (c :: s) = style.close? s := style.close?_of_ne_star h s
    have hhere : (ofText style s).hereAt style c = style.scan (c :: s) := by
      have hfound : (style.rest? (c :: s)).map style.scan =
          if c = '/' ∧ (ofText style s).next = some '/' then (ofText style s).line
          else if c = style.opener ∧ (ofText style s).next = some '*' then (ofText style s).opened
          else none := by
        cases s with
        | nil => simp [Style.rest?, ofText]
        | cons d s =>
          simp only [Style.rest?, ofText, List.head?_cons, Option.some.injEq]
          by_cases h1 : c = '/' ∧ d = '/'
          · simp only [h1, and_self, if_true]
            simp [Style.afterLine?]
          · rw [if_neg h1, if_neg h1]
            by_cases h2 : c = style.opener ∧ d = '*'
            · simp [h2]
            · rw [if_neg h2, if_neg h2]; rfl
      unfold hereAt
      rw [← hfound]
      cases hr : style.rest? (c :: s) with
      | none => simp [Style.scan_of_none hr, ofText]
      | some r => simp [Style.scan_of_some hr]
    rw [hhere]
    simp only [ofText, hdrop, hclose, List.head?_cons, List.tail_cons, Style.afterLine?,
      Option.some.injEq, h, if_false]
    split <;> simp

/-- Every field of the fold is what it is named for. -/
theorem foldr_before (style : Style) (s : List Char) :
    s.foldr (before style) atEnd = ofText style s := by
  induction s with
  | nil => exact atEnd_eq_ofText style
  | cons c s ih => rw [List.foldr_cons, ih, before_ofText]

end Ahead

/-- The one pass counts what the scan counts. -/
theorem Style.count_eq_scan (style : Style) (s : List Char) : style.count s = style.scan s := by
  rw [Style.count, Ahead.foldr_before]; rfl

end CommentDensity
