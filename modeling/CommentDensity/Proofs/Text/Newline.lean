import CommentDensity.Text.Newline
import CommentDensity.Proofs.Text.Split
import Mathlib.Data.List.Basic

/-!
# CommentDensity.Proofs.Text.Newline

Line ends in any mixture of conventions.

A newline can be written `\n`, `\r\n` or `\r`, one like this and the next
like that, as long as no `\r` comes to stand in front of a `\n` that is a
line end of its own (`Writes`).

* `normalize_eq_iff` — a text is normalized to `t` exactly if it writes `t`
  in some mixture, so what is counted in normalized text does not depend on
  the mixture;
* `lineCount_normalize` — the lines counted there are the line ends of the
  text as it stands, read once from the left, and an open last line.

`normalize_eq_replaced` and `lineCount_eq_length` say the same rules in other
words: two replacements one after the other, and the parts between newlines.
-/

namespace CommentDensity.Newline

/-! ## Writing line ends -/

/-- How a newline is written. -/
inductive Convention where
  | lf
  | crlf
  | cr
  deriving DecidableEq, Repr

/-- The characters of a line end. -/
def Convention.chars : Convention → List Char
  | .lf => ['\n']
  | .crlf => ['\r', '\n']
  | .cr => ['\r']

/-- A text without `\r`, and what it is with each of its newlines written in
one convention or another.  A newline that is written `\r` is not directly
followed by one that is written `\n`. -/
inductive Writes : List Char → List Char → Prop where
  | nil : Writes [] []
  | char {t u : List Char} (c : Char) :
      c ≠ '\n' → c ≠ '\r' → Writes t u → Writes (c :: t) (c :: u)
  | newline {t u : List Char} (convention : Convention) :
      (convention = .cr → u.head? ≠ some '\n') → Writes t u →
      Writes ('\n' :: t) (convention.chars ++ u)

/-- What is written with a `\n` in front. -/
theorem Writes.eq_cons {t u : List Char} (h : Writes t ('\n' :: u)) :
    ∃ s, t = '\n' :: s ∧ Writes s u := by
  generalize hw : '\n' :: u = w at h
  cases h with
  | nil => cases hw
  | char c hc _ _ => cases hw; exact absurd rfl hc
  | newline convention _ hs =>
    cases convention with
    | lf => cases hw; exact ⟨_, rfl, hs⟩
    | crlf => cases hw
    | cr => cases hw

theorem normalize_of_writes {t u : List Char} (h : Writes t u) : normalize u = t := by
  induction h with
  | nil => rfl
  | char c _ hcr _ ih => rw [normalize_cons, if_neg hcr, ih]
  | newline convention hnext _ ih =>
    cases convention with
    | lf => simp [Convention.chars, normalize_cons, ih]
    | crlf => simp [Convention.chars, normalize_cons, ih]
    | cr => simp [Convention.chars, normalize_cons, ih, hnext rfl]

theorem writes_normalize (u : List Char) : Writes (normalize u) u := by
  induction u with
  | nil => exact .nil
  | cons c u ih =>
    rw [normalize_cons]
    by_cases hcr : c = '\r'
    · subst hcr
      rw [if_pos rfl]
      split
      · next hnext =>
        -- the `\n` that follows is the other half of this line end
        obtain ⟨v, rfl⟩ := List.head?_eq_some_iff.mp hnext
        obtain ⟨s, hs, hwrites⟩ := ih.eq_cons
        rw [hs]
        exact .newline .crlf (by simp) hwrites
      · next hnext => exact .newline .cr (fun _ => hnext) ih
    · rw [if_neg hcr]
      by_cases hlf : c = '\n'
      · subst hlf
        exact .newline .lf (by simp) ih
      · exact .char c hlf hcr ih

/-- A text is normalized to what it writes, and to nothing else. -/
theorem normalize_eq_iff {t u : List Char} : normalize u = t ↔ Writes t u := by
  constructor
  · rintro rfl
    exact writes_normalize u
  · exact normalize_of_writes

/-- What is written holds no `\r` itself. -/
theorem Writes.cr_notMem {t u : List Char} (h : Writes t u) : '\r' ∉ t :=
  normalize_eq_iff.mpr h ▸ cr_notMem_normalize u

/-! ## Text with paired `\r` -/

/-- Every `\r` is directly followed by a `\n`. -/
def Paired (s : List Char) : Prop := ∀ i, s[i]? = some '\r' → s[i + 1]? = some '\n'

instance (s : List Char) : Decidable (Paired s) :=
  decidable_of_iff (∀ i < s.length, s[i]? = some '\r' → s[i + 1]? = some '\n')
    ⟨fun h i hi => h i (List.getElem?_eq_some_iff.mp hi).1 hi, fun h i _ hi => h i hi⟩

theorem paired_cons {c : Char} {s : List Char} :
    Paired (c :: s) ↔ (c = '\r' → s.head? = some '\n') ∧ Paired s := by
  constructor
  · intro h
    refine ⟨?_, fun i => h (i + 1)⟩
    rintro rfl
    rw [List.head?_eq_getElem?]
    exact h 0 rfl
  · rintro ⟨hc, hs⟩ i hi
    cases i with
    | zero =>
      rw [List.head?_eq_getElem?] at hc
      exact hc (Option.some.inj hi)
    | succ i => exact hs i hi

/-- In such text the `\r` are what normalizing takes away. -/
theorem normalize_cons_of_paired {c : Char} {s : List Char} (h : Paired (c :: s)) :
    normalize (c :: s) = if c = '\r' then normalize s else c :: normalize s := by
  rw [normalize_cons]
  split
  · next hcr => rw [if_pos ((paired_cons.mp h).1 hcr)]
  · rfl

/-! ## In two steps -/

theorem head?_ne_some {c : Char} {s : List Char} (h : ∀ v, s = c :: v → False) :
    s.head? ≠ some c := by
  intro hs
  obtain ⟨v, rfl⟩ := List.head?_eq_some_iff.mp hs
  exact h v rfl

/-- The text with every `\r\n` written `\n`, from the left, and any other `\r`
left as it is. -/
def replacePairs : List Char → List Char
  | [] => []
  | '\r' :: '\n' :: s => '\n' :: replacePairs s
  | c :: s => c :: replacePairs s

/-- The first step can leave a `\r` in front of a `\n`, as it does in
`\r\r\n`; the second makes two line ends of them. -/
theorem normalize_eq_replaced (s : List Char) :
    normalize s = (replacePairs s).map fun c => if c = '\r' then '\n' else c := by
  fun_induction replacePairs s with
  | case1 => rfl
  | case2 s ih => simp [normalize_cons, ih]
  | case3 c s hpair ih =>
    rw [normalize_cons, List.map_cons, ih]
    by_cases hcr : c = '\r'
    · subst hcr
      rw [if_pos rfl, if_pos rfl, if_neg (head?_ne_some fun v => hpair v rfl)]
    · rw [if_neg hcr, if_neg hcr]

/-! ## Lines -/

/-- The line ends of a text as it stands, from left to right: `\r\n` is one,
and so is every other `\n` or `\r`. -/
def ends : List Char → Nat
  | [] => 0
  | '\r' :: '\n' :: s => ends s + 1
  | c :: s => if c = '\n' ∨ c = '\r' then ends s + 1 else ends s

/-- The lines of a text as it stands: its line ends, and one more for a last
line that has none. -/
def lines (s : List Char) : Nat :=
  ends s + if s = [] ∨ s.getLast? = some '\n' ∨ s.getLast? = some '\r' then 0 else 1

theorem count_normalize (s : List Char) : (normalize s).count '\n' = ends s := by
  fun_induction ends s with
  | case1 => rfl
  | case2 s ih => simp [normalize_cons, ih]
  | case3 c s hpair hend ih =>
    obtain rfl | rfl := hend
    · simp [normalize_cons, ih]
    · have hnext : s.head? ≠ some '\n' := head?_ne_some fun v => hpair v rfl
      simp [normalize_cons, hnext, ih]
  | case4 c s hpair hend ih =>
    rw [not_or] at hend
    simp [normalize_cons, hend, ih]

theorem getLast?_normalize (s : List Char) :
    (normalize s).getLast? = s.getLast?.map fun c => if c = '\r' then '\n' else c := by
  induction s with
  | nil => rfl
  | cons c s ih =>
    rw [normalize_cons]
    by_cases hcr : c = '\r'
    · subst hcr
      rw [if_pos rfl]
      split
      · next hnext =>
        obtain ⟨v, rfl⟩ := List.head?_eq_some_iff.mp hnext
        simpa [List.getLast?_cons] using ih
      · cases hs : s.getLast? <;> simp_all [List.getLast?_cons]
    · cases hs : s.getLast? <;> simp_all [List.getLast?_cons]

/-- Normalizing line ends keeps the lines. -/
theorem lineCount_normalize (s : List Char) : lineCount (normalize s) = lines s := by
  rw [lineCount, lines, count_normalize, getLast?_normalize]
  obtain rfl | ⟨front, c, rfl⟩ := s.eq_nil_or_concat
  · simp
  · by_cases hcr : c = '\r'
    · simp [hcr]
    · simp [hcr]

theorem lineCount_le_length (s : List Char) : lineCount s ≤ s.length := by
  rw [lineCount]
  obtain rfl | ⟨front, c, rfl⟩ := s.eq_nil_or_concat
  · simp
  · have hfront : front.count '\n' ≤ front.length := List.count_le_length
    by_cases hlf : c = '\n'
    · simp [hlf, hfront]
    · simp [hlf, List.count_append, hfront]

theorem length_normalize_le (s : List Char) : (normalize s).length ≤ s.length := by
  induction s with
  | nil => exact Nat.le_refl 0
  | cons c s ih =>
    rw [normalize_cons]
    split
    · split
      · exact Nat.le_succ_of_le ih
      · exact Nat.succ_le_succ ih
    · exact Nat.succ_le_succ ih

/-- The lines are the parts between newlines, where an empty last part is
none: it only shows that the line in front of it has an end. -/
theorem lineCount_eq_length (s : List Char) :
    lineCount s = (split '\n' s).length - if (split '\n' s).getLast? = some [] then 1 else 0 := by
  -- on the length: a line is taken off the front with its end
  induction hn : s.length using Nat.strongRecOn generalizing s with
  | _ n ih =>
    by_cases hend : '\n' ∈ s
    · obtain ⟨line, rest, rfl, hline⟩ := List.eq_append_cons_of_mem hend
      have hrest := ih rest.length (by simp [← hn]; omega) rest rfl
      have hlast : (line :: split '\n' rest).getLast? = (split '\n' rest).getLast? :=
        List.getLast?_cons_of_ne_nil (split_ne_nil '\n' rest)
      have hpos : 0 < (split '\n' rest).length := List.length_pos_iff.mpr (split_ne_nil '\n' rest)
      rw [lineCount_append_newline, List.count_eq_zero.mpr hline, split_cons_of_notMem hline, hlast,
        hrest, List.length_cons]
      split
      · omega
      · omega
    · have hlast : s.getLast?.all (· == '\n') = true ↔ s = [] := by
        obtain rfl | ⟨front, c, rfl⟩ := s.eq_nil_or_concat
        · simp
        · simp at hend ⊢
          exact Ne.symm hend.2
      rw [lineCount, split_of_notMem hend, List.count_eq_zero.mpr hend]
      simp [hlast]
      split <;> simp

end CommentDensity.Newline
