import CommentDensity.Proofs.Comment.Grammar
import Mathlib.Data.List.Infix
import Mathlib.Data.List.Pairwise

/-!
# CommentDensity.Proofs.Comment.Span

The comments of a text, with the places where they stand.

`Pattern.spans` keeps of each successive match where it starts and where it
stops; there are as many as the pass counts (`length_spans`).  Three facts
say all that is needed of them:

* `mem_spansFrom` — each is a match at its start, and takes something;
* `pairwise_spansFrom` — each stops before the next one starts;
* `covered_or_unmatched` — a position that lies in none of them is one where
  no match starts.

They hold of any rule that leaves an end of what is behind the first
character (`Advances`), and each is an induction over the pass
(`spansFrom_induction`).  From a position that the pass comes to (`Reached`)
it goes on as if it began there (`Reached.filter_spansFrom`).
-/

namespace CommentDensity

/-- A stretch of a text, from position `start` up to position `stop`. -/
structure Span where
  start : Nat
  stop : Nat
  deriving DecidableEq, Repr

/-- Whether a position lies in the stretch. -/
def Span.covers (m : Span) (p : Nat) : Bool := m.start ≤ p && p < m.stop

/-- The successive matches that a pass from the left finds, when `rest?` says
what a match at the front of a text leaves of it and the front stands at
position `p`. -/
def spansFrom (rest? : List Char → Option (List Char)) (p : Nat) : List Char → List Span
  | [] => []
  | c :: s =>
    match rest? (c :: s) with
    | some r =>
      if r.length ≤ s.length then
        ⟨p, p + (s.length + 1 - r.length)⟩ :: spansFrom rest? (p + (s.length + 1 - r.length)) r
      else spansFrom rest? (p + 1) s
    | none => spansFrom rest? (p + 1) s
termination_by s => s.length

theorem spansFrom_of_none {rest? : List Char → Option (List Char)} {c : Char} {s : List Char}
    (h : rest? (c :: s) = none) (p : Nat) :
    spansFrom rest? p (c :: s) = spansFrom rest? (p + 1) s := by
  rw [spansFrom, h]

theorem spansFrom_of_some {rest? : List Char → Option (List Char)} {c : Char} {s r : List Char}
    (h : rest? (c :: s) = some r) (hle : r.length ≤ s.length) (p : Nat) :
    spansFrom rest? p (c :: s) =
      ⟨p, p + (s.length + 1 - r.length)⟩ :: spansFrom rest? (p + (s.length + 1 - r.length)) r := by
  rw [spansFrom, h]
  exact if_pos hle

/-- The successive, non-overlapping matches of the pattern. -/
def Pattern.spans (pattern : Pattern) (t : List Char) : List Span := spansFrom pattern.rest? 0 t

/-- Whether a word stands at a position of a text. -/
def standsAt (t word : List Char) (p : Nat) : Bool := word.isPrefixOf (t.drop p)

theorem standsAt_iff {t word : List Char} {p : Nat} :
    standsAt t word p = true ↔ word <+: t.drop p := List.isPrefixOf_iff_prefix

theorem lt_length_of_standsAt {word : List Char} {p : Nat} (hword : word ≠ [])
    (h : standsAt t word p = true) : p < t.length := by
  have hpos : 0 < word.length := List.length_pos_iff.mpr hword
  have hle := (standsAt_iff.mp h).length_le
  rw [List.length_drop] at hle
  omega

/-- A word stands somewhere from a position on if it is part of what is
there. -/
theorem infix_drop_iff {t word : List Char} {p : Nat} :
    word <:+: t.drop p ↔ ∃ i, p ≤ i ∧ standsAt t word i = true := by
  constructor
  · intro h
    obtain ⟨front, back, hsplit⟩ := h
    refine ⟨p + front.length, by omega, standsAt_iff.mpr ⟨back, ?_⟩⟩
    rw [← List.drop_drop, ← hsplit, List.append_assoc, List.drop_left]
  · rintro ⟨i, hi, hstands⟩
    have hword : word <:+: t.drop i := (standsAt_iff.mp hstands).isInfix
    have hdrop : t.drop i = (t.drop p).drop (i - p) := by
      rw [List.drop_drop]
      congr 1
      omega
    rw [hdrop] at hword
    exact hword.trans (List.drop_suffix _ _).isInfix

/-- There are as many of them as are counted. -/
theorem length_spansFrom (rest? : List Char → Option (List Char)) (p : Nat) (s : List Char) :
    (spansFrom rest? p s).length = countEnds rest? s := by
  induction hn : s.length using Nat.strongRecOn generalizing p s with
  | _ n ih =>
    cases s with
    | nil => simp [spansFrom]
    | cons c s =>
      have hs : ∀ p, (spansFrom rest? p s).length = countEnds rest? s :=
        fun p => ih s.length (by simp at hn; omega) p s rfl
      rw [spansFrom, countEnds]
      cases hr : rest? (c :: s) with
      | none => exact hs (p + 1)
      | some r =>
        by_cases hle : r.length ≤ s.length
        · have hr := fun p => ih r.length (by simp at hn; omega) p r rfl
          simp [hle, hr]
        · simp [hle, hs]

/-! ## A pass over a text -/

/-- The rule leaves an end of what is behind the first character. -/
def Advances (rest? : List Char → Option (List Char)) : Prop :=
  ∀ c s r, rest? (c :: s) = some r → r <:+ s

section Pass

variable {rest? : List Char → Option (List Char)} {t : List Char}

/-- What the pass does at a position: it goes one further, or it finds a
match and goes on where that stops. -/
theorem spansFrom_cases (hrest : Advances rest?) {p : Nat} (hp : p < t.length) :
    (rest? (t.drop p) = none ∧
      spansFrom rest? p (t.drop p) = spansFrom rest? (p + 1) (t.drop (p + 1))) ∨
    ∃ e, p < e ∧ e ≤ t.length ∧ rest? (t.drop p) = some (t.drop e) ∧
      spansFrom rest? p (t.drop p) = ⟨p, e⟩ :: spansFrom rest? e (t.drop e) := by
  have hcons := List.drop_eq_getElem_cons hp
  rw [hcons, spansFrom]
  cases hr : rest? (t[p] :: t.drop (p + 1)) with
  | none => exact .inl ⟨rfl, rfl⟩
  | some r =>
    have hsuffix : r <:+ t.drop (p + 1) := hrest _ _ _ hr
    have hle : r.length ≤ (t.drop (p + 1)).length := hsuffix.length_le
    have hlen : (t.drop (p + 1)).length = t.length - (p + 1) := List.length_drop
    have hstop : p + ((t.drop (p + 1)).length + 1 - r.length) = t.length - r.length := by omega
    have hend : r = t.drop (t.length - r.length) :=
      List.suffix_iff_eq_drop.mp (hsuffix.trans (List.drop_suffix _ _))
    refine .inr ⟨t.length - r.length, by omega, by omega, by rw [← hend], ?_⟩
    rw [← hend]
    simp only [hle, if_true, hstop]

/-- Induction over the pass: what holds at the end of the text, and is kept
when the pass goes one further and when it finds a match. -/
theorem spansFrom_induction (hrest : Advances rest?) {motive : Nat → List Span → Prop}
    (done : ∀ p, t.length ≤ p → motive p [])
    (passed : ∀ p, p < t.length → rest? (t.drop p) = none →
      motive (p + 1) (spansFrom rest? (p + 1) (t.drop (p + 1))) →
      motive p (spansFrom rest? (p + 1) (t.drop (p + 1))))
    (found : ∀ p e, p < e → e ≤ t.length → rest? (t.drop p) = some (t.drop e) →
      motive e (spansFrom rest? e (t.drop e)) →
      motive p (⟨p, e⟩ :: spansFrom rest? e (t.drop e)))
    (p : Nat) : motive p (spansFrom rest? p (t.drop p)) := by
  induction hn : t.length - p using Nat.strongRecOn generalizing p with
  | _ n ih =>
    by_cases hp : p < t.length
    · obtain ⟨hnone, hsame⟩ | ⟨e, hpe, he, hsome, hmore⟩ := spansFrom_cases hrest hp
      · rw [hsame]
        exact passed p hp hnone (ih (t.length - (p + 1)) (by omega) (p + 1) rfl)
      · rw [hmore]
        exact found p e hpe he hsome (ih (t.length - e) (by omega) e rfl)
    · have hle : t.length ≤ p := Nat.le_of_not_lt hp
      rw [List.drop_of_length_le hle, spansFrom]
      exact done p hle

/-- What is found is a match at its start. -/
theorem mem_spansFrom (hrest : Advances rest?) (p : Nat) :
    ∀ m ∈ spansFrom rest? p (t.drop p), p ≤ m.start ∧ m.start < m.stop ∧ m.stop ≤ t.length ∧
      rest? (t.drop m.start) = some (t.drop m.stop) := by
  apply spansFrom_induction hrest (motive := fun p found => ∀ m ∈ found, p ≤ m.start ∧
    m.start < m.stop ∧ m.stop ≤ t.length ∧ rest? (t.drop m.start) = some (t.drop m.stop))
  case done => simp
  case passed =>
    intro p _ _ ih m hm
    obtain ⟨hstart, hmatch⟩ := ih m hm
    exact ⟨by omega, hmatch⟩
  case found =>
    intro p e hpe he hsome ih m hm
    obtain rfl | hm := List.mem_cons.mp hm
    · exact ⟨Nat.le_refl p, hpe, he, hsome⟩
    · obtain ⟨hstart, hmatch⟩ := ih m hm
      exact ⟨by omega, hmatch⟩

/-- Each match stops before the next one starts. -/
theorem pairwise_spansFrom (hrest : Advances rest?) (p : Nat) :
    (spansFrom rest? p (t.drop p)).Pairwise fun m m' => m.stop ≤ m'.start := by
  apply spansFrom_induction hrest
    (motive := fun _ found => found.Pairwise fun m m' => m.stop ≤ m'.start)
  case done => simp
  case passed =>
    intro p _ _ ih
    exact ih
  case found =>
    intro p e _ _ _ ih
    exact List.pairwise_cons.mpr ⟨fun m hm => (mem_spansFrom hrest e m hm).1, ih⟩

/-- The pass leaves no match out: a position lies in one, or none starts
there. -/
theorem covered_or_unmatched (hrest : Advances rest?) {p i : Nat} (hpi : p ≤ i)
    (hi : i < t.length) :
    (∃ m ∈ spansFrom rest? p (t.drop p), m.covers i = true) ∨ rest? (t.drop i) = none := by
  revert hpi
  apply spansFrom_induction hrest (motive := fun p found => p ≤ i →
    (∃ m ∈ found, m.covers i = true) ∨ rest? (t.drop i) = none)
  case done => intro p hp hpi; omega
  case passed =>
    intro p _ hnone ih hpi
    by_cases hsame : p = i
    · exact .inr (hsame ▸ hnone)
    · exact ih (by omega)
  case found =>
    intro p e _ _ _ ih hpi
    by_cases hin : i < e
    · exact .inl ⟨⟨p, e⟩, List.mem_cons_self, by simp [Span.covers, hpi, hin]⟩
    · obtain ⟨m, hm, hcovers⟩ | hnone := ih (by omega)
      · exact .inl ⟨m, List.mem_cons_of_mem _ hm, hcovers⟩
      · exact .inr hnone

/-- The positions that a pass over a text comes to. -/
inductive Reached (rest? : List Char → Option (List Char)) (t : List Char) : Nat → Prop
  /-- It begins at the front. -/
  | front : Reached rest? t 0
  /-- Where no match starts it goes one further. -/
  | passed {p : Nat} : Reached rest? t p → p < t.length → rest? (t.drop p) = none →
      Reached rest? t (p + 1)
  /-- A match takes it to where that stops. -/
  | found {p e : Nat} : Reached rest? t p → p < t.length → e ≤ t.length →
      rest? (t.drop p) = some (t.drop e) → Reached rest? t e

/-- From a position that it comes to, a pass finds what it would find if it
began there, and what it has found by then stops before it. -/
theorem Reached.spansFrom_eq (hrest : Advances rest?) {p : Nat} (h : Reached rest? t p) :
    ∃ front, spansFrom rest? 0 (t.drop 0) = front ++ spansFrom rest? p (t.drop p) ∧
      ∀ m ∈ front, m.stop ≤ p := by
  induction h with
  | front => exact ⟨[], rfl, by simp⟩
  | @passed p _ hp hnone ih =>
    obtain ⟨front, hfront, hstop⟩ := ih
    obtain ⟨_, hsame⟩ | ⟨e, _, _, hsome, _⟩ := spansFrom_cases hrest hp
    · exact ⟨front, hsame ▸ hfront, fun m hm => Nat.le_succ_of_le (hstop m hm)⟩
    · rw [hnone] at hsome
      cases hsome
  | @found p e _ hp he hsome ih =>
    obtain ⟨front, hfront, hstop⟩ := ih
    obtain ⟨hnone, _⟩ | ⟨e', hpe, he', hsome', hmore⟩ := spansFrom_cases hrest hp
    · rw [hsome] at hnone
      cases hnone
    · -- an end of the text begins at one place only
      have hdrop : t.drop e = t.drop e' := Option.some.inj (hsome.symm.trans hsome')
      have hlength := congrArg List.length hdrop
      rw [List.length_drop, List.length_drop] at hlength
      obtain rfl : e = e' := by omega
      refine ⟨front ++ [⟨p, e⟩], by rw [hfront, hmore]; simp, ?_⟩
      intro m hm
      obtain hm | hm := List.mem_append.mp hm
      · have hle := hstop m hm
        omega
      · rw [List.mem_singleton.mp hm]

/-- The matches that start at a position or behind it, if the pass comes to
that position. -/
theorem Reached.filter_spansFrom (hrest : Advances rest?) {p : Nat} (h : Reached rest? t p) :
    (spansFrom rest? 0 (t.drop 0)).filter (p ≤ ·.start) = spansFrom rest? p (t.drop p) := by
  obtain ⟨front, hfront, hstop⟩ := h.spansFrom_eq hrest
  have hwithin : ∀ m ∈ front, m.start < m.stop := by
    intro m hm
    have hmem : m ∈ spansFrom rest? 0 (t.drop 0) := hfront ▸ List.mem_append_left _ hm
    exact (mem_spansFrom hrest 0 m hmem).2.1
  have hbefore : front.filter (p ≤ ·.start) = [] := by
    rw [List.filter_eq_nil_iff]
    intro m hm
    have hlt := hwithin m hm
    have hle := hstop m hm
    simp only [decide_eq_true_eq]
    omega
  have hbehind : (spansFrom rest? p (t.drop p)).filter (p ≤ ·.start) =
      spansFrom rest? p (t.drop p) := by
    rw [List.filter_eq_self]
    intro m hm
    exact decide_eq_true (mem_spansFrom hrest p m hm).1
  rw [hfront, List.filter_append, hbefore, hbehind, List.nil_append]

/-- Two rules find the same in a text if they agree on each of its ends. -/
theorem spansFrom_congr {rest?' : List Char → Option (List Char)} {s : List Char}
    (hrest : Advances rest?) (h : ∀ u, u <:+ s → rest? u = rest?' u) (p : Nat) :
    spansFrom rest? p s = spansFrom rest?' p s := by
  induction hn : s.length using Nat.strongRecOn generalizing p s with
  | _ n ih =>
    cases s with
    | nil => simp [spansFrom]
    | cons c s =>
      have hhere := h (c :: s) (List.suffix_refl _)
      cases hr : rest? (c :: s) with
      | none =>
        rw [spansFrom_of_none hr, spansFrom_of_none (hhere ▸ hr)]
        exact ih s.length (by simp at hn; omega)
          (fun u hu => h u (hu.trans (List.suffix_cons c s))) (p + 1) rfl
      | some r =>
        have hsuffix : r <:+ s := hrest c s r hr
        have hle : r.length ≤ s.length := hsuffix.length_le
        rw [spansFrom_of_some hr hle, spansFrom_of_some (hhere ▸ hr) hle]
        rw [ih r.length (by simp at hn; omega)
          (fun u hu => h u ((hu.trans hsuffix).trans (List.suffix_cons c s))) _ rfl]

end Pass

/-! ## The comments of a style -/

/-- Whether a stretch begins with the two slashes of a line comment. -/
def Span.isLine (m : Span) (t : List Char) : Bool := standsAt t ['/', '/'] m.start

/-- Whether a stretch begins with a block's opener and a star. -/
def Span.isBlock (m : Span) (style : Style) (t : List Char) : Bool :=
  standsAt t [style.opener, '*'] m.start

namespace Style

variable {style : Style} {t : List Char}

theorem advances_rest? (style : Style) : Advances style.rest? := fun _ _ _ h => rest?_suffix h

/-- The comments of a text. -/
def spans (style : Style) (t : List Char) : List Span := style.pattern.spans t

theorem spans_eq (style : Style) (t : List Char) :
    style.spans t = spansFrom style.rest? 0 (t.drop 0) := by
  have hrest : style.pattern.rest? = style.rest? := funext (rest?_pattern style)
  rw [spans, Pattern.spans, hrest, List.drop_zero]

theorem length_spans (style : Style) (t : List Char) : (style.spans t).length = style.count t := by
  rw [spans_eq, length_spansFrom, List.drop_zero, count_eq_scan, scan]

theorem mem_spans {m : Span} (hm : m ∈ style.spans t) :
    m.start < m.stop ∧ m.stop ≤ t.length ∧ style.rest? (t.drop m.start) = some (t.drop m.stop) := by
  rw [spans_eq] at hm
  exact (mem_spansFrom style.advances_rest? 0 m hm).2

theorem pairwise_spans (style : Style) (t : List Char) :
    (style.spans t).Pairwise fun m m' => m.stop ≤ m'.start := by
  rw [spans_eq]
  exact pairwise_spansFrom style.advances_rest? 0

/-- Of two comments, one stops before the other starts. -/
theorem apart_of_mem_spans {m m' : Span} (hm : m ∈ style.spans t) (hm' : m' ∈ style.spans t)
    (hne : m ≠ m') : m.stop ≤ m'.start ∨ m'.stop ≤ m.start := by
  have hsymm : Std.Symm fun m m' : Span => m.stop ≤ m'.start ∨ m'.stop ≤ m.start :=
    ⟨fun _ _ => Or.symm⟩
  have hapart : (style.spans t).Pairwise fun m m' => m.stop ≤ m'.start ∨ m'.stop ≤ m.start :=
    (style.pairwise_spans t).imp Or.inl
  exact hapart.forall hm hm' hne

/-- A position of the text lies in a comment, or none starts there. -/
theorem covered_or_none (style : Style) {i : Nat} (hi : i < t.length) :
    (∃ m ∈ style.spans t, m.covers i = true) ∨ style.rest? (t.drop i) = none := by
  rw [spans_eq]
  exact covered_or_unmatched style.advances_rest? (Nat.zero_le i) hi

/-- A comment is of one of the two kinds. -/
theorem isLine_or_isBlock {m : Span} (hm : m ∈ style.spans t) :
    m.isLine t = true ∨ m.isBlock style t = true := by
  obtain ⟨_, _, hrest⟩ := mem_spans hm
  by_cases hline : m.isLine t = true
  · exact .inl hline
  · by_cases hblock : m.isBlock style t = true
    · exact .inr hblock
    · have hnone := rest?_eq_none (s := t.drop m.start) (mt standsAt_iff.mpr hline)
        (mt standsAt_iff.mpr hblock)
      rw [hnone] at hrest
      cases hrest

end Style

end CommentDensity
