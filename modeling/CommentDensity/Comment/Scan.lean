import CommentDensity.Comment.Style

/-!
# CommentDensity.Comment.Scan

Where a comment ends, said directly.

* A line comment ends behind the first `\n`; without one there is no
  comment.
* A block opens with the opener and *all* the stars behind it, and
  `close?` looks for its end in the text behind those stars.  If there is
  none and the opening stars are two or more, the last of them may close the
  block itself, as in `/**/`.

`Style.scan` counts the comments of a text by these rules.
-/

namespace CommentDensity.Style

/-- What follows the first `\n`. -/
def afterLine? : List Char → Option (List Char)
  | [] => none
  | c :: s => if c = '\n' then some s else afterLine? s

/-- What follows the block, given what follows its opening stars.  In C#
the first `*/` ends it.  In F# the last `*)` does, among those before the
first stars that a `/` or the end of the text follows. -/
def close? : Style → List Char → Option (List Char)
  | _, [] => none
  | .csharp, c :: s =>
    if c = '*' then
      match s with
      | '/' :: r => some r
      | _ => close? .csharp s
    else close? .csharp s
  | .fsharp, c :: s =>
    if c = '*' then
      match s with
      | [] => none
      | '/' :: _ => none
      | ')' :: r => (close? .fsharp s).or (some r)
      | _ => close? .fsharp s
    else close? .fsharp s

/-- What follows the block, given what follows its opener. -/
def blockRest? (style : Style) (s : List Char) : Option (List Char) :=
  let inside := s.dropWhile (· = '*')
  (style.close? inside).or <|
    if s.length ≤ inside.length + 1 then none
    else match inside with
      | [] => none
      | c :: r => if c = style.closer then some r else none

/-- What follows the comment at the front of a text, if one starts there. -/
def rest? (style : Style) : List Char → Option (List Char)
  | c :: d :: s =>
    if c = '/' ∧ d = '/' then afterLine? s
    else if c = style.opener ∧ d = '*' then style.blockRest? (d :: s)
    else none
  | _ => none

/-- How many comments a text has. -/
def scan (style : Style) (s : List Char) : Nat := countEnds style.rest? s

/-! ## Inside a block -/

/-- What is no star neither ends a block nor bars it. -/
theorem close?_of_ne_star (style : Style) {c : Char} (h : c ≠ '*') (s : List Char) :
    style.close? (c :: s) = style.close? s := by
  cases style <;> simp [close?, h]

@[simp] theorem close?_csharp_star_slash (s : List Char) :
    close? .csharp ('*' :: '/' :: s) = some s := by simp [close?]

theorem close?_csharp_star {c : Char} (h : c ≠ '/') (s : List Char) :
    close? .csharp ('*' :: c :: s) = close? .csharp (c :: s) := by
  rw [close?, if_pos rfl]
  rintro r ⟨⟩
  exact h rfl

@[simp] theorem close?_fsharp_star_nil : close? .fsharp ['*'] = none := by simp [close?]

@[simp] theorem close?_fsharp_star_slash (s : List Char) :
    close? .fsharp ('*' :: '/' :: s) = none := by simp [close?]

@[simp] theorem close?_fsharp_star_paren (s : List Char) :
    close? .fsharp ('*' :: ')' :: s) = (close? .fsharp s).or (some s) := by simp [close?]

theorem close?_fsharp_star {c : Char} (h : c ≠ '/') (h' : c ≠ ')') (s : List Char) :
    close? .fsharp ('*' :: c :: s) = close? .fsharp (c :: s) := by
  rw [close?, if_pos rfl]
  · rintro ⟨⟩
  · rintro r ⟨⟩; exact h rfl
  · rintro r ⟨⟩; exact h' rfl

/-! ## A comment leaves an end of the text -/

theorem afterLine?_suffix {s r : List Char} (h : afterLine? s = some r) : r <:+ s := by
  induction s with
  | nil => simp [afterLine?] at h
  | cons c s ih =>
    unfold afterLine? at h
    split at h
    · exact Option.some.inj h ▸ List.suffix_cons c s
    · exact (ih h).trans (List.suffix_cons c s)

theorem close?_suffix {style : Style} {s r : List Char} (h : style.close? s = some r) :
    r <:+ s := by
  induction s with
  | nil => simp [close?] at h
  | cons c s ih =>
    have hskip : style.close? s = some r → r <:+ c :: s :=
      fun h => (ih h).trans (List.suffix_cons c s)
    cases style with
    | csharp =>
      simp only [close?] at h
      split at h
      · split at h
        · next t => cases h; exact ⟨[c, '/'], rfl⟩
        · exact hskip h
      · exact hskip h
    | fsharp =>
      simp only [close?] at h
      split at h
      · split at h
        · simp at h
        · simp at h
        · next t =>
          obtain h | ⟨_, h⟩ := Option.or_eq_some_iff.mp h
          · exact hskip h
          · cases h; exact ⟨[c, ')'], rfl⟩
        · exact hskip h
      · exact hskip h

theorem blockRest?_suffix {style : Style} {s r : List Char} (h : style.blockRest? s = some r) :
    r <:+ s := by
  have hinside : s.dropWhile (· = '*') <:+ s := List.dropWhile_suffix _
  unfold blockRest? at h
  obtain h | ⟨_, h⟩ := Option.or_eq_some_iff.mp h
  · exact (close?_suffix h).trans hinside
  · split at h
    · simp at h
    · split at h
      · simp at h
      · next c t ht =>
        split at h
        · exact Option.some.inj h ▸ (List.suffix_cons c t).trans (ht ▸ hinside)
        · simp at h

/-- A comment takes its first character, and leaves an end of the others. -/
theorem rest?_suffix {style : Style} {c : Char} {s r : List Char}
    (h : style.rest? (c :: s) = some r) : r <:+ s := by
  cases s with
  | nil => simp [rest?] at h
  | cons d s =>
    simp only [rest?] at h
    split at h
    · exact (afterLine?_suffix h).trans (List.suffix_cons d s)
    · split at h
      · exact blockRest?_suffix h
      · simp at h

theorem length_rest? {style : Style} {c : Char} {s r : List Char}
    (h : style.rest? (c :: s) = some r) : r.length ≤ s.length :=
  (rest?_suffix h).length_le

/-- Where neither two slashes nor an opener and a star stand, no comment
starts. -/
theorem rest?_eq_none {style : Style} {s : List Char} (hline : ¬ ['/', '/'] <+: s)
    (hblock : ¬ [style.opener, '*'] <+: s) : style.rest? s = none := by
  match s with
  | [] => rfl
  | [c] => rfl
  | c :: d :: s =>
    have hline' : ¬ (c = '/' ∧ d = '/') := by
      simpa [List.cons_prefix_cons, eq_comm] using hline
    have hblock' : ¬ (c = style.opener ∧ d = '*') := by
      simpa [List.cons_prefix_cons, eq_comm] using hblock
    simp only [rest?, hline', hblock', if_false]

/-! ## The scan, one step at a time -/

@[simp] theorem scan_nil (style : Style) : style.scan [] = 0 := by simp [scan]

theorem scan_of_none {style : Style} {c : Char} {s : List Char}
    (h : style.rest? (c :: s) = none) : style.scan (c :: s) = style.scan s :=
  countEnds_of_none h

theorem scan_of_some {style : Style} {c : Char} {s r : List Char}
    (h : style.rest? (c :: s) = some r) : style.scan (c :: s) = style.scan r + 1 :=
  countEnds_of_some h (length_rest? h)

end CommentDensity.Style
