import CommentDensity.Proofs.Comment.BlockRun
import CommentDensity.Proofs.Comment.Document
import CommentDensity.Proofs.Comment.Position

/-!
# CommentDensity.Proofs.Comment.Unclosed

What is found behind a C# block that is never closed.

A block fails only if no `*/` stands behind its opening stars
(`close?_csharp_eq_none_iff`).  Each later opener lies behind these stars, so
what would close it is missing too (`no_block_behind`).  From there on the
comments are line comments alone, and those can be read off the lines
(`spansFrom_linePattern`), although the pass goes over them a character at a
time and knows of no lines.
-/

namespace CommentDensity

/-! ## Searches that fail -/

/-- A word that stands nowhere is not found, and no other is missed. -/
theorem find?_eq_none_iff {t word : List Char} (hword : word ≠ []) {p : Nat} :
    find? t word p = none ↔ ¬ word <:+: t.drop p := by
  rw [find?, List.find?_eq_none, infix_drop_iff]
  constructor
  · rintro hnone ⟨i, hi, hstands⟩
    have hlt := lt_length_of_standsAt hword hstands
    exact hnone i (List.mem_range'_1.mpr ⟨hi, by omega⟩) hstands
  · intro hno i hi hstands
    exact hno ⟨i, (List.mem_range'_1.mp hi).1, hstands⟩

/-- A character more in front moves what is found by one. -/
theorem find?_cons_succ (c : Char) (t word : List Char) (p : Nat) :
    find? (c :: t) word (p + 1) = (find? t word p).map (· + 1) := by
  have hlen : (c :: t).length - (p + 1) = t.length - p := by rw [List.length_cons]; omega
  have hrange : List.range' (p + 1) (t.length - p) =
      (List.range' p (t.length - p)).map (· + 1) := by
    rw [Nat.add_comm p 1, ← List.map_add_range']
    exact List.map_congr_left fun i _ => Nat.add_comm 1 i
  rw [find?, find?, hlen, hrange, List.find?_map]
  rfl

/-- An end of a text that does not begin with one of the kind is behind all
that the text begins with. -/
theorem suffix_dropWhile {α : Type} {kind : α → Bool} {s u : List α} (h : u <:+ s)
    (hu : ∀ a, u.head? = some a → kind a = false) : u <:+ s.dropWhile kind := by
  induction s with
  | nil => simpa using h
  | cons a s ih =>
    obtain rfl | h := List.suffix_cons_iff.mp h
    · rw [List.dropWhile_cons_of_neg (by simpa using hu a rfl)]
    · by_cases ha : kind a = true
      · rw [List.dropWhile_cons_of_pos ha]
        exact ih h
      · rw [List.dropWhile_cons_of_neg ha]
        exact h.trans (List.suffix_cons a s)

namespace Style

/-! ## No block behind one that is not closed -/

/-- In C# nothing but a `*/` ends a block that is open. -/
theorem close?_csharp_eq_none_iff {s : List Char} :
    close? .csharp s = none ↔ ¬ ['*', '/'] <:+: s := by
  have hdrop := close?_csharp_drop s 0
  rw [List.drop_zero] at hdrop
  rw [hdrop, Option.map_eq_none_iff, find?_eq_none_iff (by simp), List.drop_zero]

/-- Without a `*/` from its first star on, a C# block has no end. -/
theorem blockRest?_of_no_closer {s : List Char} (h : ¬ ['*', '/'] <:+: '*' :: s) :
    blockRest? .csharp ('*' :: s) = none := by
  rw [blockRest?_of_no_bar h]
  exact close?_csharp_eq_none_iff.mpr fun hs => h (List.infix_cons hs)

theorem rest?_blockPattern (style : Style) (s : List Char) :
    style.blockPattern.rest? s =
      match s with
      | c :: '*' :: r => if c = style.opener then style.blockRest? ('*' :: r) else none
      | _ => none :=
  (Pattern.rest?_eq_first? _ s).trans (first?_blockPattern style s)

/-- Where an opener and a star open no block, none opens further on. -/
theorem no_block_behind {s : List Char} (hopen : ['/', '*'] <+: s)
    (hnone : Style.rest? .csharp s = none) {u : List Char} (hu : u <:+ s) :
    Style.csharp.blockPattern.rest? u = none := by
  obtain ⟨s, rfl⟩ := hopen
  have hblock : blockRest? .csharp ('*' :: s) = none := by simpa [rest?, opener] using hnone
  have hclose : close? .csharp (s.dropWhile (· = '*')) = none := by
    rw [blockRest?, List.dropWhile_cons_of_pos (by simp)] at hblock
    exact (Option.or_eq_none_iff.mp hblock).1
  rw [rest?_blockPattern]
  split
  · next c r =>
    split
    · next hc =>
      -- the opener is the first one, or it stands behind the stars of that
      obtain hsame | hbehind := List.suffix_cons_iff.mp hu
      · obtain ⟨_, hrest⟩ := List.cons.inj hsame
        rw [hrest]
        exact hblock
      · have hslash : c ≠ '*' := by rw [hc]; decide
        have hinside : c :: '*' :: r <:+ ('*' :: s).dropWhile (· = '*') :=
          suffix_dropWhile hbehind (by rintro a ⟨⟩; simpa using hslash)
        rw [List.dropWhile_cons_of_pos (by simp)] at hinside
        have hno : ¬ ['*', '/'] <:+: '*' :: r := fun h =>
          close?_csharp_eq_none_iff.mp hclose
            (h.trans ((List.suffix_cons c _).trans hinside).isInfix)
        exact blockRest?_of_no_closer hno
    · rfl
  · rfl

/-! ## Line comments alone -/

theorem rest?_linePattern (s : List Char) :
    linePattern.rest? s =
      match s with
      | '/' :: '/' :: r => afterLine? r
      | _ => none :=
  (Pattern.rest?_eq_first? _ s).trans (first?_linePattern s)

theorem rest?_linePattern_eq_none {s : List Char} (h : ¬ ['/', '/'] <+: s) :
    linePattern.rest? s = none := by
  rw [rest?_linePattern]
  split
  · next r => exact absurd ⟨r, rfl⟩ h
  · rfl

theorem afterLine?_eq_none {s : List Char} (h : '\n' ∉ s) : afterLine? s = none := by
  induction s with
  | nil => rfl
  | cons c s ih =>
    rw [List.mem_cons, not_or] at h
    rw [afterLine?, if_neg (Ne.symm h.1), ih h.2]

/-- Where no block can be found, the comments are the line comments. -/
theorem rest?_pattern_of_blockPattern {style : Style} {s : List Char}
    (h : style.blockPattern.rest? s = none) : style.pattern.rest? s = linePattern.rest? s := by
  simp only [Pattern.rest?_eq_first?] at h ⊢
  rw [pattern, Pattern.first?_alt, h, Option.or_none]

end Style

/-- The comment of a line that a newline ends and that begins at position `p`:
from its first `//` up to and with the newline. -/
def lineComment? (p : Nat) (line : List Char) : Option Span :=
  (find? line ['/', '/'] 0).map fun i => ⟨p + i, p + line.length + 1⟩

/-- The comments of successive lines, each ended by a newline. -/
def lineComments : Nat → List (List Char) → List Span
  | _, [] => []
  | p, line :: lines => (lineComment? p line).toList ++ lineComments (p + line.length + 1) lines

theorem lineComment?_of_slashes {line : List Char} (h : ['/', '/'] <+: line) (p : Nat) :
    lineComment? p line = some ⟨p, p + line.length + 1⟩ := by
  have hpos : 0 < line.length := Nat.lt_of_lt_of_le (by decide) h.length_le
  have hfront : ['/', '/'].isPrefixOf (line.drop 0) = true := List.isPrefixOf_iff_prefix.mpr h
  rw [lineComment?, find?_eq _ hpos, if_pos hfront]
  rfl

theorem lineComment?_cons {c : Char} {line : List Char} (h : ¬ ['/', '/'] <+: c :: line) (p : Nat) :
    lineComment? p (c :: line) = lineComment? (p + 1) line := by
  have hfront : ¬ ['/', '/'].isPrefixOf ((c :: line).drop 0) = true :=
    mt List.isPrefixOf_iff_prefix.mp h
  rw [lineComment?, find?_eq _ (by simp), if_neg hfront, find?_cons_succ, Option.map_map]
  congr 1
  funext i
  simp only [Function.comp_apply, List.length_cons, Span.mk.injEq]
  omega

/-- There are as many as lines with two slashes. -/
theorem length_lineComments (p : Nat) (lines : List (List Char)) :
    (lineComments p lines).length = lines.countP fun line => ['/', '/'] <:+: line := by
  induction lines generalizing p with
  | nil => rfl
  | cons line lines ih =>
    have hfound : (lineComment? p line).toList.length = if ['/', '/'] <:+: line then 1 else 0 := by
      have hnone : find? line ['/', '/'] 0 = none ↔ ¬ ['/', '/'] <:+: line.drop 0 :=
        find?_eq_none_iff (by simp)
      rw [List.drop_zero] at hnone
      split
      · next h =>
        obtain ⟨i, hi⟩ := Option.ne_none_iff_exists'.mp fun hno => hnone.mp hno h
        simp [lineComment?, hi]
      · next h => simp [lineComment?, hnone.mpr h]
    rw [lineComments, List.length_append, hfound, ih, List.countP_cons, Nat.add_comm]
    simp

namespace Style

/-- The pass over a line finds its comment, and goes on behind the newline. -/
theorem spansFrom_line {line : List Char} (h : '\n' ∉ line) (p : Nat) (s : List Char) :
    spansFrom linePattern.rest? p (line ++ '\n' :: s) =
      (lineComment? p line).toList ++ spansFrom linePattern.rest? (p + line.length + 1) s := by
  induction line generalizing p with
  | nil =>
    have hrest : linePattern.rest? ('\n' :: s) = none :=
      rest?_linePattern_eq_none (by simp [List.cons_prefix_cons])
    rw [List.nil_append, spansFrom_of_none hrest]
    rfl
  | cons c line ih =>
    by_cases hslashes : ['/', '/'] <+: c :: line
    · rw [lineComment?_of_slashes hslashes]
      obtain ⟨text, htext⟩ := hslashes
      have htail : '\n' ∉ text := fun hmem => h (htext ▸ List.mem_append_right _ hmem)
      have hrest : linePattern.rest? (c :: (line ++ '\n' :: s)) = some s := by
        rw [← List.cons_append, ← htext, rest?_linePattern]
        exact afterLine?_line htail s
      have hle : s.length ≤ (line ++ '\n' :: s).length := by simp; omega
      have hstop : p + ((line ++ '\n' :: s).length + 1 - s.length) =
          p + (c :: line).length + 1 := by
        simp only [List.length_append, List.length_cons]
        omega
      rw [List.cons_append, spansFrom_of_some hrest hle, hstop]
      rfl
    · have hfront : ¬ ['/', '/'] <+: c :: line ++ '\n' :: s :=
        mt (isPrefix_append_cons_iff (by decide) s).mp hslashes
      have hrest : linePattern.rest? (c :: (line ++ '\n' :: s)) = none :=
        rest?_linePattern_eq_none hfront
      have hline : p + 1 + line.length = p + (c :: line).length := by rw [List.length_cons]; omega
      rw [lineComment?_cons hslashes, List.cons_append, spansFrom_of_none hrest,
        ih (List.not_mem_of_not_mem_cons h), hline]

/-- Behind the last newline there is no line comment. -/
theorem spansFrom_unended {s : List Char} (h : '\n' ∉ s) (p : Nat) :
    spansFrom linePattern.rest? p s = [] := by
  induction s generalizing p with
  | nil => simp [spansFrom]
  | cons c s ih =>
    have hrest : linePattern.rest? (c :: s) = none := by
      rw [rest?_linePattern]
      split
      · next r heq =>
        refine afterLine?_eq_none fun hmem => h ?_
        rw [heq]
        simp [hmem]
      · rfl
    rw [spansFrom_of_none hrest, ih (List.not_mem_of_not_mem_cons h)]

/-- The line comments of a text are those of its lines, but for the last one,
which no newline ends. -/
theorem spansFrom_linePattern (p : Nat) (s : List Char) :
    spansFrom linePattern.rest? p s = lineComments p (split '\n' s).dropLast := by
  -- on the length: a line is taken off the front
  induction hn : s.length using Nat.strongRecOn generalizing p s with
  | _ n ih =>
    by_cases hmem : '\n' ∈ s
    · obtain ⟨line, rest, rfl, hline⟩ := List.eq_append_cons_of_mem hmem
      have hrest := ih rest.length (by simp at hn; omega) (p + line.length + 1) rest rfl
      rw [spansFrom_line hline, hrest, split_cons_of_notMem hline,
        List.dropLast_cons_of_ne_nil (split_ne_nil '\n' rest), lineComments]
    · rw [spansFrom_unended hmem, split_of_notMem hmem]
      rfl

end Style

/-- **A block that is never closed.**  Where the pass over a C# text comes to
a `/*` and no comment starts there, no block is found from there on.  What is
found is one line comment for each line with two slashes, of the lines from
there on that a newline ends. -/
theorem csharp_unclosed_block {t : List Char} {p : Nat}
    (hreached : Reached Style.csharp.pattern.rest? t p)
    (hopen : standsAt t ['/', '*'] p = true)
    (hnone : Style.csharp.pattern.rest? (t.drop p) = none) :
    (Style.csharp.spans t).length = Style.csharp.count t ∧
    (∀ q, p ≤ q → Style.csharp.blockPattern.rest? (t.drop q) = none) ∧
    (∀ m ∈ Style.csharp.spans t, p ≤ m.start → m.isLine t = true) ∧
    (Style.csharp.spans t).filter (p ≤ ·.start) =
      lineComments p (split '\n' (t.drop p)).dropLast ∧
    ((Style.csharp.spans t).filter (p ≤ ·.start)).length =
      (split '\n' (t.drop p)).dropLast.countP fun line => ['/', '/'] <:+: line := by
  have hrest : Style.csharp.pattern.rest? = Style.csharp.rest? :=
    funext (Style.rest?_pattern .csharp)
  have hblock : ∀ u, u <:+ t.drop p → Style.csharp.blockPattern.rest? u = none := fun u hu =>
    Style.no_block_behind (standsAt_iff.mp hopen) (hrest ▸ hnone) hu
  have hline : ∀ u, u <:+ t.drop p → Style.csharp.rest? u = Style.linePattern.rest? u := by
    intro u hu
    rw [← hrest]
    exact Style.rest?_pattern_of_blockPattern (hblock u hu)
  have hbehind : ∀ q, p ≤ q → t.drop q <:+ t.drop p := by
    intro q hq
    rw [← Nat.add_sub_of_le hq, ← List.drop_drop]
    exact List.drop_suffix _ _
  have hfound : (Style.csharp.spans t).filter (p ≤ ·.start) =
      lineComments p (split '\n' (t.drop p)).dropLast := by
    rw [hrest] at hreached
    rw [Style.spans_eq, hreached.filter_spansFrom Style.csharp.advances_rest?,
      spansFrom_congr Style.csharp.advances_rest? hline, Style.spansFrom_linePattern]
  refine ⟨Style.length_spans .csharp t, fun q hq => hblock _ (hbehind q hq), ?_, hfound, ?_⟩
  · intro m hm hstart
    obtain ⟨_, _, hsome⟩ := Style.mem_spans hm
    by_contra hno
    rw [hline _ (hbehind _ hstart),
      Style.rest?_linePattern_eq_none (mt standsAt_iff.mpr hno)] at hsome
    cases hsome
  · rw [hfound, length_lineComments]

/-- The closer that overlaps its opener closes nothing, four slashes begin
one comment, and the last line has no newline to end it. -/
theorem csharp_unclosed_block_overlapping :
    (Reached Style.csharp.pattern.rest? "/* a */ /*/ // b\n//// /** c\n// d".toList 8 ∧
      standsAt "/* a */ /*/ // b\n//// /** c\n// d".toList ['/', '*'] 8 = true ∧
      Style.csharp.pattern.rest? ("/* a */ /*/ // b\n//// /** c\n// d".toList.drop 8) = none) ∧
    (Style.csharp.spans "/* a */ /*/ // b\n//// /** c\n// d".toList).filter (8 ≤ ·.start) =
      [⟨12, 17⟩, ⟨17, 28⟩] := by
  have hreached : Reached Style.csharp.pattern.rest?
      "/* a */ /*/ // b\n//// /** c\n// d".toList 8 := by
    have hfound : Reached Style.csharp.pattern.rest?
        "/* a */ /*/ // b\n//// /** c\n// d".toList 7 :=
      .found .front (by decide) (by decide) (by decide +kernel)
    exact .passed hfound (by decide) (by decide +kernel)
  have hopen : standsAt "/* a */ /*/ // b\n//// /** c\n// d".toList ['/', '*'] 8 = true := by
    decide
  have hnone : Style.csharp.pattern.rest?
      ("/* a */ /*/ // b\n//// /** c\n// d".toList.drop 8) = none := by
    decide +kernel
  exact ⟨⟨hreached, hopen, hnone⟩,
    (csharp_unclosed_block hreached hopen hnone).2.2.2.1.trans (by decide +kernel)⟩

end CommentDensity
