import CommentDensity.Comment.Count
import CommentDensity.Proofs.Text.Split
import Mathlib.Data.List.Infix
import Mathlib.Data.List.TakeWhile

/-!
# CommentDensity.Proofs.Comment.Document

The comments of a text that is put together from parts.

The scan never looks back.  So where every comment of one part also ends in
it, the text behind is counted as if it stood alone, and the counts add up:

* `scan_line` — a line in which no block opens is one comment if it has a
  `//`, however many, and none otherwise;
* `scan_code`, `scan_lineComment`, `scan_blockComment` — the pieces of a C#
  document.  A block ends at its own `*/` and not before it, since the first
  `*/` behind its opening stars is that one (`close?_block`).

A text of such parts is then counted by induction on them
(`count_lines_append`, `count_pieces`).
-/

namespace CommentDensity

/-! ## Words in a text -/

/-- What stands at the front of a text stands in front of a character that
the word does not have. -/
theorem isPrefix_append_cons_iff {α : Type} {word as : List α} {a : α} (h : a ∉ word)
    (bs : List α) : word <+: as ++ a :: bs ↔ word <+: as := by
  constructor
  · intro hword
    have hfront : as ++ [a] <+: as ++ a :: bs := ⟨bs, by simp⟩
    obtain hle | hle := List.prefix_or_prefix_of_prefix hword hfront
    · obtain rfl | hle := List.prefix_concat_iff.mp hle
      · simp at h
      · exact hle
    · have ha : a ∈ word := hle.subset (by simp)
      exact absurd ha h
  · intro hword
    exact hword.trans (List.prefix_append as (a :: bs))

namespace Style

variable {style : Style}

/-- A line comment ends with its line. -/
theorem afterLine?_line {line : List Char} (h : '\n' ∉ line) (s : List Char) :
    afterLine? (line ++ '\n' :: s) = some s := by
  induction line with
  | nil => simp [afterLine?]
  | cons c line ih =>
    rw [List.mem_cons, not_or] at h
    have hc : c ≠ '\n' := Ne.symm h.1
    simp only [List.cons_append, afterLine?, hc, if_false]
    exact ih h.2

theorem scan_lineComment {line : List Char} (h : '\n' ∉ line) (s : List Char) :
    style.scan ('/' :: '/' :: line ++ '\n' :: s) = style.scan s + 1 := by
  have hrest : style.rest? ('/' :: '/' :: line ++ '\n' :: s) = some s := by
    simp [rest?, afterLine?_line h]
  exact scan_of_some hrest

/-! ## Lines -/

/-- Whether a line has two slashes. -/
def hasSlashes (line : List Char) : Bool := ['/', '/'] <:+: line

/-- A line in which no block opens is one comment at most, and what follows
is counted on its own. -/
theorem scan_line {line : List Char} (hline : '\n' ∉ line)
    (hopen : ¬ [style.opener, '*'] <:+: line) (s : List Char) :
    style.scan (line ++ '\n' :: s) = (if hasSlashes line then 1 else 0) + style.scan s := by
  induction line with
  | nil =>
    have hrest : style.rest? ('\n' :: s) = none :=
      rest?_eq_none (by simp [List.cons_prefix_cons])
        (by cases style <;> simp [List.cons_prefix_cons, opener])
    simp [scan_of_none hrest, hasSlashes]
  | cons c line ih =>
    by_cases hslashes : ['/', '/'] <+: c :: line
    · obtain ⟨text, htext⟩ := hslashes
      have hin : hasSlashes (c :: line) = true := by
        simp only [hasSlashes, ← htext, decide_eq_true_eq]
        exact (List.prefix_append _ text).isInfix
      have htail : '\n' ∉ text := by
        intro hmem
        exact hline (htext ▸ List.mem_append_right _ hmem)
      rw [hin, if_pos rfl, ← htext, Nat.add_comm]
      exact scan_lineComment htail s
    · have hopener : ¬ [style.opener, '*'] <+: c :: line := fun h => hopen h.isInfix
      have hnl : '\n' ∉ [style.opener, '*'] := by cases style <;> decide
      have hrest : style.rest? (c :: line ++ '\n' :: s) = none := by
        apply rest?_eq_none
        · rwa [isPrefix_append_cons_iff (by decide)]
        · rwa [isPrefix_append_cons_iff hnl]
      have hsame : hasSlashes (c :: line) = hasSlashes line := by
        simp [hasSlashes, List.infix_cons_iff, hslashes]
      rw [List.mem_cons, not_or] at hline
      have hinside : ¬ [style.opener, '*'] <:+: line := fun h => hopen (List.infix_cons h)
      rw [List.cons_append] at hrest ⊢
      rw [scan_of_none hrest, ih hline.2 hinside, hsame]

/-- Whole lines are counted one by one. -/
theorem scan_lines {lines : List (List Char)}
    (h : ∀ line ∈ lines, '\n' ∉ line ∧ ¬ [style.opener, '*'] <:+: line) (s : List Char) :
    style.scan ((lines.flatMap fun line => line ++ ['\n']) ++ s) =
      lines.countP hasSlashes + style.scan s := by
  induction lines with
  | nil => simp
  | cons line lines ih =>
    obtain ⟨hline, hopen⟩ := h line List.mem_cons_self
    have hlines := ih fun l hl => h l (List.mem_cons_of_mem _ hl)
    have hassoc : ((line :: lines).flatMap fun line => line ++ ['\n']) ++ s =
        line ++ '\n' :: ((lines.flatMap fun line => line ++ ['\n']) ++ s) := by simp
    rw [hassoc, scan_line hline hopen, hlines, List.countP_cons]
    omega

/-! ## Pieces of a C# document -/

/-- Text without slashes is passed over. -/
theorem scan_code {text : List Char} (h : '/' ∉ text) (s : List Char) :
    Style.csharp.scan (text ++ s) = Style.csharp.scan s := by
  induction text with
  | nil => rfl
  | cons c text ih =>
    rw [List.mem_cons, not_or] at h
    have hrest : Style.csharp.rest? (c :: (text ++ s)) = none :=
      rest?_eq_none (by simp [List.cons_prefix_cons, h.1])
        (by simp [List.cons_prefix_cons, opener, h.1])
    rw [List.cons_append, scan_of_none hrest, ih h.2]

/-- A text without `*/` runs up to the one behind it. -/
theorem close?_block {body : List Char} (h : ¬ ['*', '/'] <:+: body) (s : List Char) :
    close? .csharp (body ++ '*' :: '/' :: s) = some s := by
  induction body with
  | nil => exact close?_csharp_star_slash s
  | cons c body ih =>
    have hbody : ¬ ['*', '/'] <:+: body := fun hb => h (List.infix_cons hb)
    by_cases hc : c = '*'
    · subst hc
      cases body with
      | nil =>
        show close? .csharp ('*' :: '*' :: '/' :: s) = some s
        rw [close?_csharp_star (by decide), close?_csharp_star_slash]
      | cons d body =>
        have hd : d ≠ '/' := by
          rintro rfl
          exact h ⟨[], body, rfl⟩
        rw [List.cons_append, List.cons_append, close?_csharp_star hd, ← List.cons_append]
        exact ih hbody
    · rw [List.cons_append, close?_of_ne_star .csharp hc]
      exact ih hbody

/-- The opening stars of a block that holds more than stars end inside it. -/
theorem dropWhile_block {body : List Char} (h : ∃ c ∈ body, c ≠ '*') (s : List Char) :
    (body ++ s).dropWhile (· = '*') = body.dropWhile (· = '*') ++ s := by
  have hne : body.dropWhile (· = '*') ≠ [] := by simpa [List.dropWhile_eq_nil_iff] using h
  rw [List.dropWhile_append, if_neg (by simpa using hne)]

theorem scan_blockComment {body : List Char} (hclose : ¬ ['*', '/'] <:+: body)
    (hmore : ∃ c ∈ body, c ≠ '*') (s : List Char) :
    Style.csharp.scan ('/' :: '*' :: body ++ '*' :: '/' :: s) = Style.csharp.scan s + 1 := by
  have hinside : ¬ ['*', '/'] <:+: body.dropWhile (· = '*') :=
    fun h => hclose (h.trans (List.dropWhile_suffix _).isInfix)
  have hblock : blockRest? .csharp ('*' :: (body ++ '*' :: '/' :: s)) = some s := by
    rw [blockRest?, List.dropWhile_cons_of_pos (by simp), dropWhile_block hmore,
      close?_block hinside, Option.some_or]
  have hrest : Style.csharp.rest? ('/' :: '*' :: body ++ '*' :: '/' :: s) = some s := by
    simp [rest?, opener, hblock]
  exact scan_of_some hrest

end Style

/-- A piece of a C# document. -/
inductive Piece where
  /-- Text between comments. -/
  | code (text : List Char) (no_slash : '/' ∉ text)
  /-- What stands between `//` and the end of the line. -/
  | line (text : List Char) (one_line : '\n' ∉ text)
  /-- What stands between `/*` and `*/`: no `*/` of its own, and not only
  stars, which would leave open where the block ends. -/
  | block (body : List Char) (no_close : ¬ ['*', '/'] <:+: body) (more : ∃ c ∈ body, c ≠ '*')

namespace Piece

/-- The piece as it is written. -/
def text : Piece → List Char
  | .code text _ => text
  | .line text _ => '/' :: '/' :: text ++ ['\n']
  | .block body _ _ => '/' :: '*' :: body ++ ['*', '/']

/-- Whether the piece is a comment. -/
def isComment : Piece → Bool
  | .code .. => false
  | .line .. => true
  | .block .. => true

/-- A piece is one comment or none, whatever follows it. -/
theorem scan_text (piece : Piece) (s : List Char) :
    Style.csharp.scan (piece.text ++ s) =
      (if piece.isComment then 1 else 0) + Style.csharp.scan s := by
  cases piece with
  | code text no_slash => simp [Piece.text, isComment, Style.scan_code no_slash]
  | line text one_line =>
    have hline : Style.csharp.scan ('/' :: '/' :: text ++ '\n' :: s) = Style.csharp.scan s + 1 :=
      Style.scan_lineComment one_line s
    simp [Piece.text, isComment] at hline ⊢
    omega
  | block body no_close more =>
    have hblock : Style.csharp.scan ('/' :: '*' :: body ++ '*' :: '/' :: s) =
        Style.csharp.scan s + 1 := Style.scan_blockComment no_close more s
    simp [Piece.text, isComment] at hblock ⊢
    omega

end Piece

/-! ## Whole texts -/

/-- **C# documents.**  In a text made of code without slashes, line comments
and block comments, in whatever order and however close together, exactly
the comments are counted. -/
theorem count_pieces (pieces : List Piece) :
    Style.csharp.count (pieces.flatMap Piece.text) = pieces.countP Piece.isComment := by
  rw [Style.count_eq_scan]
  induction pieces with
  | nil => simp
  | cons piece pieces ih =>
    rw [List.flatMap_cons, piece.scan_text, ih, List.countP_cons]
    omega

/-- Openers, slashes and stars inside comments make no difference. -/
example : Style.csharp.count "/*/ // **/x//*\n/** /* **/".toList = 3 := by decide

/-- **Lines without blocks.**  Text that is empty or ends in a newline, and in
which no block of the style opens, adds the number of its lines that have two
slashes to the count of whatever follows it.  So lines with two slashes are
as many comments, and where neither style can open a block the two count
alike. -/
theorem count_lines_append :
    (∀ (style : Style) (a b : List Char), (a = [] ∨ a.getLast? = some '\n') →
      ¬ [style.opener, '*'] <:+: a →
      style.count (a ++ b) =
        (split '\n' a).countP (fun line => ['/', '/'] <:+: line) + style.count b) ∧
    (∀ (style : Style) (lines : List (List Char)),
      (∀ line ∈ lines, '\n' ∉ line ∧ ['/', '/'] <:+: line ∧ ¬ [style.opener, '*'] <:+: line) →
      style.count (lines.flatMap fun line => line ++ ['\n']) = lines.length) ∧
    (∀ a : List Char, (a = [] ∨ a.getLast? = some '\n') → ¬ ['(', '*'] <:+: a →
      ¬ ['/', '*'] <:+: a → Style.fsharp.count a = Style.csharp.count a) := by
  have happend : ∀ (style : Style) (a b : List Char), (a = [] ∨ a.getLast? = some '\n') →
      ¬ [style.opener, '*'] <:+: a →
      style.count (a ++ b) = (split '\n' a).countP Style.hasSlashes + style.count b := by
    intro style a b hend hopen
    obtain ⟨lines, hlines, rfl⟩ := exists_terminated hend
    have hopens : ∀ line ∈ lines, '\n' ∉ line ∧ ¬ [style.opener, '*'] <:+: line := by
      intro line hline
      have hin := List.infix_of_mem_flatten (List.mem_map_of_mem (f := fun l => l ++ ['\n']) hline)
      have hfront := (List.prefix_append line ['\n']).isInfix.trans hin
      exact ⟨hlines line hline, fun h => hopen (h.trans hfront)⟩
    rw [Style.count_eq_scan, Style.count_eq_scan, Style.scan_lines hopens, split_terminated hlines]
    simp [Style.hasSlashes]
  have halone : ∀ (style : Style) (a : List Char), (a = [] ∨ a.getLast? = some '\n') →
      ¬ [style.opener, '*'] <:+: a → style.count a = (split '\n' a).countP Style.hasSlashes := by
    intro style a hend hopen
    simpa [Style.count_eq_scan] using happend style a [] hend hopen
  refine ⟨happend, fun style lines hlines => ?_, fun a hend hfsharp hcsharp => ?_⟩
  · have hscan := Style.scan_lines (fun line h => ⟨(hlines line h).1, (hlines line h).2.2⟩) []
    have hall : lines.countP Style.hasSlashes = lines.length :=
      List.countP_eq_length.mpr fun line h => by simpa [Style.hasSlashes] using (hlines line h).2.1
    simpa [Style.count_eq_scan, hall] using hscan
  · rw [halone .fsharp a hend hfsharp, halone .csharp a hend hcsharp]

/-- A `/*` opens nothing in F#, and two remarks on a line are one comment;
the block behind the lines is counted as if it stood alone. -/
theorem count_lines_append_remarks :
    (("x /* // a // b\n\n".toList.getLast? = some '\n' ∧ ¬ ['(', '*'] <:+: "x /* // a // b\n\n".toList) ∧
      Style.fsharp.count ("x /* // a // b\n\n".toList ++ "(* // c\n*)".toList) =
        1 + Style.fsharp.count "(* // c\n*)".toList) ∧
    Style.csharp.count ("// a\n".toList ++ "x // b //\n".toList) = 2 ∧
    Style.fsharp.count "(/ // a\n".toList = Style.csharp.count "(/ // a\n".toList := by
  have hend : "x /* // a // b\n\n".toList.getLast? = some '\n' := by decide
  have hopen : ¬ ['(', '*'] <:+: "x /* // a // b\n\n".toList := by decide
  have hlines : ∀ line ∈ ["// a".toList, "x // b //".toList],
      '\n' ∉ line ∧ ['/', '/'] <:+: line ∧ ¬ [Style.csharp.opener, '*'] <:+: line := by decide
  exact ⟨⟨⟨hend, hopen⟩, count_lines_append.1 .fsharp _ _ (.inr hend) hopen⟩,
    count_lines_append.2.1 .csharp _ hlines,
    count_lines_append.2.2 _ (.inr (by decide)) (by decide) (by decide)⟩

end CommentDensity
