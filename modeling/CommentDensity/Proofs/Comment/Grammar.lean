import CommentDensity.Comment.Count
import CommentDensity.Proofs.Text.Preference

/-!
# CommentDensity.Proofs.Comment.Grammar

The scan matches the grammar.

`Style.pattern` is a grammar with backtracking; `Style.rest?` says directly
where a comment ends.  They agree at every position (`rest?_pattern`), so
the one pass of `Style.count` counts the successive matches of the pattern
(`count_eq_count_pattern`).

A block is read from its end:

* `loop?` — behind the stars that may close the block: one more stretch,
  or the closer;
* `first?_stars` — these stars are taken all or none, since neither a
  stretch nor the closer begins with a star;
* `first?_plain` — so the first stretch ends at its first star, and what is
  found there is what `close?` finds;
* `first?_opening` — only opening stars can be given back, and that leads
  to nothing but the closer directly behind them.
-/

namespace CommentDensity.Style

open Pattern

/-! ## The parts of the pattern -/

/-- One star or more. -/
def starsPattern : Pattern := Pattern.plus (.char '*')

/-- Any characters but stars. -/
def plainPattern : Pattern := Pattern.star (.one (.noneOf ['*']))

/-- A stretch after the first: no slash in front, stars at its end. -/
def stretchPattern : Pattern :=
  .seq (.one (.noneOf ['/', '*'])) (.seq plainPattern starsPattern)

theorem consumes_stretchPattern : stretchPattern.Consumes := (consumes_one _).seq _

theorem blockPattern_eq (style : Style) :
    style.blockPattern = .seq (.char style.opener) (.seq starsPattern (.seq plainPattern
      (.seq starsPattern (.seq (.star stretchPattern) (.char style.closer))))) := rfl

/-! ## Line comments -/

/-- The text up to the first `\n`, and the `\n`. -/
theorem first?_line (s : List Char) :
    (Pattern.star (.one (.noneOf ['\n']))).first? ((Pattern.char '\n').first? some) s =
      afterLine? s := by
  induction s with
  | nil => simp [afterLine?]
  | cons c s ih =>
    rw [first?_star_one_cons, ih, first?_char_cons, afterLine?]
    by_cases h : c = '\n' <;> simp [CharSet.has, h]

theorem first?_linePattern (s : List Char) :
    linePattern.first? some s =
      match s with
      | '/' :: '/' :: r => afterLine? r
      | _ => none := by
  simp only [linePattern, first?_seq]
  split
  · simp [first?_line]
  · next h =>
    cases s with
    | nil => rfl
    | cons c s =>
      rw [first?_char_cons]
      split
      · next hc =>
        cases s with
        | nil => rfl
        | cons d s =>
          rw [first?_char_cons, if_neg]
          rintro rfl
          exact h s (by rw [hc])
      · rfl

/-! ## Blocks, from the end -/

/-- The head of what is left without its stars is no star. -/
theorem ne_star_of_dropWhile_eq_cons {s r : List Char} {c : Char}
    (h : s.dropWhile (· = '*') = c :: r) : c ≠ '*' := by
  have := List.head?_dropWhile_not (· = '*') s
  rw [h] at this
  simpa using this

/-- Where a block is open at stars, what follows them decides: a slash bars
it in either style, and a closer ends it unless it ends further on. -/
theorem close?_stars (style : Style) (s : List Char) :
    style.close? ('*' :: s) =
      match s.dropWhile (· = '*') with
      | [] => none
      | c :: r =>
        (if c = '/' then none else style.close? r).or
          (if c = style.closer then some r else none) := by
  induction s with
  | nil => cases style <;> simp [close?]
  | cons c s ih =>
    by_cases hc : c = '*'
    · subst hc
      rw [List.dropWhile_cons_of_pos (by simp), ← ih]
      cases style with
      | csharp => rw [close?_csharp_star (by decide)]
      | fsharp => rw [close?_fsharp_star (by decide) (by decide)]
    · rw [List.dropWhile_cons_of_neg (by simpa using hc)]
      cases style with
      | csharp =>
        by_cases hd : c = '/'
        · subst hd; simp [closer]
        · rw [close?_csharp_star hd, close?_of_ne_star _ hc]
          simp [hd, closer]
      | fsharp =>
        by_cases hd : c = '/'
        · subst hd; simp [closer]
        · by_cases hp : c = ')'
          · subst hp; simp [closer]
          · rw [close?_fsharp_star hd hp, close?_of_ne_star _ hc]
            simp [hd, hp, closer]

/-- What is found behind stars that may close a block. -/
def loop? (style : Style) : List Char → Option (List Char) :=
  (Pattern.star stretchPattern).first? ((Pattern.char style.closer).first? some)

theorem loop?_nil (style : Style) : style.loop? [] = none := by
  rw [loop?, first?_star consumes_stretchPattern]
  simp [stretchPattern]

/-- The rule of the loop. -/
theorem loop?_cons (style : Style) (c : Char) (s : List Char) :
    style.loop? (c :: s) =
      (if c = '/' ∨ c = '*' then none
        else plainPattern.first? (starsPattern.first? style.loop?) s).or
      (if c = style.closer then some s else none) := by
  rw [loop?, first?_star consumes_stretchPattern, ← loop?]
  by_cases hc : c = '/' ∨ c = '*' <;> simp [stretchPattern, CharSet.has, hc]

theorem loop?_star (style : Style) (s : List Char) : style.loop? ('*' :: s) = none := by
  rw [loop?_cons, if_pos (.inr rfl), if_neg (by cases style <;> decide)]
  rfl

/-- Stars are taken together by what cannot begin with one. -/
theorem first?_stars {after : List Char → Option α} (h : ∀ s, after ('*' :: s) = none)
    (c : Char) (s : List Char) :
    starsPattern.first? after (c :: s) =
      if c = '*' then after (s.dropWhile (· = '*')) else none := by
  have hstar : ∀ s, (Pattern.star (.char '*')).first? after s = after (s.dropWhile (· = '*')) := by
    intro s
    induction s with
    | nil => simp [char]
    | cons d s ih =>
      rw [char, first?_star_one_cons, ← char, ih]
      by_cases hd : d = '*' <;> simp [hd, CharSet.has, h]
  simp only [starsPattern, plus, first?_seq, first?_char_cons, hstar]

/-- What is found behind the opening stars is the end that the scan finds. -/
theorem first?_plain (style : Style) (s : List Char) :
    plainPattern.first? (starsPattern.first? style.loop?) s = style.close? s := by
  -- on the length: behind stars the loop goes on with a shorter text
  induction hs : s.length using Nat.strongRecOn generalizing s with
  | _ n ih =>
    cases s with
    | nil => simp [plainPattern, starsPattern, plus, close?]
    | cons c s =>
      rw [plainPattern, first?_star_one_cons, ← plainPattern, first?_stars (loop?_star style)]
      by_cases hc : c = '*'
      · subst hc
        rw [close?_stars]
        have hle : (s.dropWhile (· = '*')).length ≤ s.length :=
          (List.dropWhile_suffix _).length_le
        cases hi : s.dropWhile (· = '*') with
        | nil => simp [CharSet.has, loop?_nil]
        | cons d r =>
          have hd : d ≠ '*' := ne_star_of_dropWhile_eq_cons hi
          rw [hi] at hle
          simp only [List.length_cons] at hle hs
          have ihr : plainPattern.first? (starsPattern.first? style.loop?) r = style.close? r :=
            ih r.length (by omega) r rfl
          simp [CharSet.has, loop?_cons, ihr, hd]
      · have ihs : plainPattern.first? (starsPattern.first? style.loop?) s = style.close? s :=
          ih s.length (by simp at hs; omega) s rfl
        rw [ihs, if_neg hc, close?_of_ne_star _ hc]
        simp [CharSet.has, hc]

/-! ## Opening stars -/

/-- Opening stars that are given back can only close the block themselves. -/
theorem close?_star_of_eq_none {style : Style} {s : List Char}
    (h : style.close? (s.dropWhile (· = '*')) = none) :
    style.close? ('*' :: s) =
      match s.dropWhile (· = '*') with
      | [] => none
      | c :: r => if c = style.closer then some r else none := by
  rw [close?_stars]
  cases hi : s.dropWhile (· = '*') with
  | nil => rfl
  | cons c r =>
    rw [hi, close?_of_ne_star style (ne_star_of_dropWhile_eq_cons hi)] at h
    simp [h]

theorem first?_opening (style : Style) (s : List Char) :
    starsPattern.first? style.close? ('*' :: s) = style.blockRest? ('*' :: s) := by
  have hstar : ∀ s, (Pattern.star (.char '*')).first? style.close? s =
      style.blockRest? ('*' :: s) := by
    intro s
    induction s with
    | nil => simp [char, blockRest?, close?]
    | cons c s ih =>
      rw [char, first?_star_one_cons, ← char, ih]
      by_cases hc : c = '*'
      · subst hc
        have hle : (s.dropWhile (· = '*')).length ≤ s.length :=
          (List.dropWhile_suffix _).length_le
        have htwo : ¬ s.length + 1 + 1 ≤ (s.dropWhile (· = '*')).length + 1 := by omega
        simp only [blockRest?, CharSet.has, beq_self_eq_true, ↓reduceIte, List.dropWhile_cons,
          decide_true, List.length_cons, htwo]
        cases hclose : style.close? (s.dropWhile (· = '*')) with
        | some r => rfl
        | none =>
          rw [close?_star_of_eq_none hclose, Option.none_or, Option.none_or]
          split
          · rfl
          · exact Option.or_self
      · simp [blockRest?, CharSet.has, hc]
  simp [starsPattern, plus, hstar]

/-- A block comment at the front of a text. -/
theorem first?_blockPattern (style : Style) (s : List Char) :
    style.blockPattern.first? some s =
      match s with
      | c :: '*' :: r => if c = style.opener then style.blockRest? ('*' :: r) else none
      | _ => none := by
  have hinside : plainPattern.first? (starsPattern.first?
      ((Pattern.star stretchPattern).first? ((Pattern.char style.closer).first? some))) =
        style.close? := funext (first?_plain style)
  simp only [blockPattern_eq, first?_seq, hinside]
  split
  · rw [first?_char_cons, first?_opening]
  · next h =>
    cases s with
    | nil => rfl
    | cons c s =>
      rw [first?_char_cons]
      split
      · cases s with
        | nil => rfl
        | cons d s =>
          simp only [starsPattern, plus, first?_seq, first?_char_cons]
          rw [if_neg]
          rintro rfl
          exact h c s rfl
      · rfl

/-! ## The whole grammar -/

/-- At every position the pattern finds the comment that the scan finds. -/
theorem rest?_pattern (style : Style) (s : List Char) :
    style.pattern.rest? s = style.rest? s := by
  rw [rest?_eq_first?, pattern, first?_alt, first?_linePattern, first?_blockPattern]
  match s with
  | [] => rfl
  | [_] => simp [rest?]
  | c :: d :: s =>
    simp only [rest?]
    by_cases hline : c = '/' ∧ d = '/'
    · obtain ⟨rfl, rfl⟩ := hline
      simp
    · rw [if_neg hline]
      have hno : ∀ r, c :: d :: s ≠ '/' :: '/' :: r := by
        rintro r ⟨⟩
        exact hline ⟨rfl, rfl⟩
      split
      · next heq => exact absurd heq (hno _)
      · by_cases hd : d = '*'
        · subst hd; simp
        · simp [hd]

/-- Comments are the successive matches of the pattern. -/
theorem count_eq_count_pattern (style : Style) (s : List Char) :
    style.count s = style.pattern.count s := by
  rw [count_eq_scan, scan, Pattern.count]
  congr 1
  exact funext fun s => (rest?_pattern style s).symm

end CommentDensity.Style
