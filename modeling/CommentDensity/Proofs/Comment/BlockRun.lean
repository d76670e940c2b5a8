import CommentDensity.Proofs.Comment.Span

/-!
# CommentDensity.Proofs.Comment.BlockRun

F# blocks in a text that has no `*/`.

Only a `*/` can bar an F# block.  In a text without one, a block that opens
runs on to the last `*)` of all (`close?_last`), and behind that no other can
end.  So such a text has one block at most (`eq_of_isBlock`): it opens at the
first `(*` outside of line comments, and a `//` inside it is no comment of its
own (`fsharp_block_of_no_bar`).
-/

namespace CommentDensity

/-- A word that occurs in a text has a last place there: it does not occur
behind it. -/
theorem exists_last_of_infix {word s : List Char} (hword : word ≠ []) (h : word <:+: s) :
    ∃ front back, s = front ++ word ++ back ∧ ¬ word <:+: back := by
  induction hn : s.length using Nat.strongRecOn generalizing s with
  | _ n ih =>
    obtain ⟨front, back, rfl⟩ := h
    by_cases hback : word <:+: back
    · have hpos : 0 < word.length := List.length_pos_iff.mpr hword
      have hlen : back.length < n := by simp at hn; omega
      obtain ⟨front', back', rfl, hlast⟩ := ih back.length hlen hback rfl
      exact ⟨front ++ word ++ front', back', by simp, hlast⟩
    · exact ⟨front, back, rfl, hback⟩

namespace Style

/-! ## Where a block ends -/

/-- Without a `*)` no block ends. -/
theorem close?_of_no_closer {s : List Char} (h : ¬ ['*', ')'] <:+: s) :
    close? .fsharp s = none := by
  induction s with
  | nil => rfl
  | cons c s ih =>
    have hclose : close? .fsharp s = none := ih fun hs => h (List.infix_cons hs)
    by_cases hc : c = '*'
    · subst hc
      cases s with
      | nil => exact close?_fsharp_star_nil
      | cons d s =>
        by_cases hslash : d = '/'
        · rw [hslash, close?_fsharp_star_slash]
        · have hparen : d ≠ ')' := by
            rintro rfl
            exact h ⟨[], s, rfl⟩
          rw [close?_fsharp_star hslash hparen, hclose]
    · rw [close?_of_ne_star .fsharp hc, hclose]

/-- Where no `*/` bars it, a block runs on to the last `*)`. -/
theorem close?_last {front back : List Char}
    (hbar : ¬ ['*', '/'] <:+: front ++ ['*', ')'] ++ back) (hlast : ¬ ['*', ')'] <:+: back) :
    close? .fsharp (front ++ ['*', ')'] ++ back) = some back := by
  induction front with
  | nil =>
    show close? .fsharp ('*' :: ')' :: back) = some back
    rw [close?_fsharp_star_paren, close?_of_no_closer hlast, Option.none_or]
  | cons c front ih =>
    have hclose : close? .fsharp (front ++ ['*', ')'] ++ back) = some back :=
      ih fun h => hbar (List.infix_cons h)
    rw [List.cons_append, List.cons_append] at hbar ⊢
    by_cases hc : c = '*'
    · subst hc
      cases hs : front ++ ['*', ')'] ++ back with
      | nil => simp at hs
      | cons d s =>
        rw [hs] at hclose hbar
        have hslash : d ≠ '/' := by
          rintro rfl
          exact hbar ⟨[], s, rfl⟩
        by_cases hparen : d = ')'
        · subst hparen
          rw [close?_of_ne_star .fsharp (by decide)] at hclose
          rw [close?_fsharp_star_paren, hclose, Option.some_or]
        · rw [close?_fsharp_star hslash hparen, hclose]
    · rw [close?_of_ne_star .fsharp hc, hclose]

/-- A slash behind stars is behind the last of them. -/
theorem bar_of_dropWhile {s r : List Char} (h : s.dropWhile (· = '*') = '/' :: r) :
    ['*', '/'] <:+: '*' :: s := by
  induction s with
  | nil => simp at h
  | cons c s ih =>
    by_cases hc : c = '*'
    · subst hc
      rw [List.dropWhile_cons_of_pos (by simp)] at h
      exact List.infix_cons (ih h)
    · rw [List.dropWhile_cons_of_neg (by simpa using hc)] at h
      obtain ⟨rfl, rfl⟩ := List.cons.inj h
      exact ⟨[], s, rfl⟩

/-- Where no `*/` bars it, a block is open behind its first star: stars that
follow may be its last ones. -/
theorem blockRest?_of_no_bar {style : Style} {s : List Char} (hbar : ¬ ['*', '/'] <:+: '*' :: s) :
    style.blockRest? ('*' :: s) = style.close? s := by
  cases s with
  | nil => simp [blockRest?, close?]
  | cons c s =>
    by_cases hc : c = '*'
    · subst hc
      have hle : (s.dropWhile (· = '*')).length ≤ s.length := (List.dropWhile_suffix _).length_le
      have htwo : ¬ s.length + 1 + 1 ≤ (s.dropWhile (· = '*')).length + 1 := by omega
      have hstars : ('*' :: '*' :: s).dropWhile (· = '*') = s.dropWhile (· = '*') := by simp
      simp only [blockRest?, hstars, List.length_cons, htwo, if_false]
      rw [close?_stars]
      cases hi : s.dropWhile (· = '*') with
      | nil => simp [close?]
      | cons d r =>
        have hd : d ≠ '/' := by
          rintro rfl
          exact hbar (List.infix_cons (bar_of_dropWhile hi))
        have hopen : style.close? (d :: r) = style.close? r :=
          close?_of_ne_star style (ne_star_of_dropWhile_eq_cons hi) r
        simp [hopen, hd]
    · simp [blockRest?, hc]

/-! ## Blocks by position -/

variable {t : List Char}

/-- Behind an opener and a star the block is open. -/
theorem rest?_opener (hbar : ¬ ['*', '/'] <:+: t) {p : Nat}
    (hopen : standsAt t ['(', '*'] p = true) :
    Style.rest? .fsharp (t.drop p) = close? .fsharp (t.drop (p + 2)) := by
  obtain ⟨s, hs⟩ := standsAt_iff.mp hopen
  have hbehind : t.drop (p + 2) = s := by rw [← List.drop_drop, ← hs]; rfl
  have hstar : '*' :: s <:+: t := by
    have hsuffix : '(' :: '*' :: s <:+ t := by
      rw [← show t.drop p = '(' :: '*' :: s from hs.symm]
      exact List.drop_suffix p t
    exact ((List.suffix_cons _ _).trans hsuffix).isInfix
  have hblock : blockRest? .fsharp ('*' :: s) = close? .fsharp s :=
    blockRest?_of_no_bar fun h => hbar (h.trans hstar)
  rw [hbehind, ← hs]
  simp [rest?, opener, hblock]

/-- An opener and a star are closed by the last `*)`, if one stands behind
them, and else by none. -/
theorem rest?_opener_cases (hbar : ¬ ['*', '/'] <:+: t) {p : Nat}
    (hopen : standsAt t ['(', '*'] p = true) :
    (∃ i, p + 2 ≤ i ∧ standsAt t ['*', ')'] i = true ∧
      (∀ j, standsAt t ['*', ')'] j = true → j ≤ i) ∧
      Style.rest? .fsharp (t.drop p) = some (t.drop (i + 2))) ∨
    (∀ i, p + 2 ≤ i → standsAt t ['*', ')'] i = false) ∧
      Style.rest? .fsharp (t.drop p) = none := by
  rw [rest?_opener hbar hopen]
  by_cases hcloser : ['*', ')'] <:+: t.drop (p + 2)
  · obtain ⟨front, back, hs, hlast⟩ := exists_last_of_infix (by simp) hcloser
    have hbar' : ¬ ['*', '/'] <:+: front ++ ['*', ')'] ++ back :=
      fun h => hbar ((hs ▸ h).trans (List.drop_suffix _ _).isInfix)
    have hat : t.drop (p + 2 + front.length) = ['*', ')'] ++ back := by
      rw [← List.drop_drop, hs, List.append_assoc, List.drop_left]
    have hbehind : t.drop (p + 2 + front.length + 2) = back := by
      rw [← List.drop_drop, hat]
      rfl
    refine .inl ⟨p + 2 + front.length, by omega, standsAt_iff.mpr ⟨back, hat.symm⟩, ?_, ?_⟩
    · intro j hj
      -- the place behind the star holds a `)`, and behind that one there is no `*)`
      by_contra hlt
      obtain rfl | hle : j = p + 2 + front.length + 1 ∨ p + 2 + front.length + 2 ≤ j := by omega
      · have hnext : t.drop (p + 2 + front.length + 1) = ')' :: back := by
          rw [← List.drop_drop, hat]
          rfl
        have hprefix := standsAt_iff.mp hj
        rw [hnext, List.cons_prefix_cons] at hprefix
        exact absurd hprefix.1 (by decide)
      · have hin : ['*', ')'] <:+: t.drop (p + 2 + front.length + 2) :=
          infix_drop_iff.mpr ⟨j, hle, hj⟩
        rw [hbehind] at hin
        exact hlast hin
    · rw [hs, close?_last hbar' hlast, hbehind]
  · refine .inr ⟨fun i hi => ?_, close?_of_no_closer hcloser⟩
    by_contra hstands
    exact hcloser (infix_drop_iff.mpr ⟨i, hi, by simpa using hstands⟩)

/-- A block that is found stops behind the last `*)` of the text. -/
theorem stop_of_isBlock (hbar : ¬ ['*', '/'] <:+: t) {m : Span} (hm : m ∈ Style.fsharp.spans t)
    (hblock : m.isBlock .fsharp t = true) :
    ∃ i, m.start + 2 ≤ i ∧ standsAt t ['*', ')'] i = true ∧
      (∀ j, standsAt t ['*', ')'] j = true → j ≤ i) ∧ m.stop = i + 2 := by
  obtain ⟨_, hstop, hrest⟩ := mem_spans hm
  obtain ⟨i, hi, hstands, hlast, hsome⟩ | ⟨_, hnone⟩ := rest?_opener_cases hbar hblock
  · refine ⟨i, hi, hstands, hlast, ?_⟩
    -- both ends leave the same text behind them, so they are the same
    have hdrop : t.drop m.stop = t.drop (i + 2) := Option.some.inj (hrest.symm.trans hsome)
    have htwo : i + 2 ≤ t.length := by
      have hle := (standsAt_iff.mp hstands).length_le
      simp only [List.length_cons, List.length_nil, List.length_drop] at hle
      omega
    have hlength := congrArg List.length hdrop
    simp only [List.length_drop] at hlength
    omega
  · rw [hrest] at hnone
    cases hnone

/-- Two blocks would both stop behind the last `*)`, so there is one at
most. -/
theorem eq_of_isBlock (hbar : ¬ ['*', '/'] <:+: t) {m m' : Span} (hm : m ∈ Style.fsharp.spans t)
    (hm' : m' ∈ Style.fsharp.spans t) (hblock : m.isBlock .fsharp t = true)
    (hblock' : m'.isBlock .fsharp t = true) : m = m' := by
  by_contra hne
  obtain ⟨i, hi, hstands, hlast, hstop⟩ := stop_of_isBlock hbar hm hblock
  obtain ⟨i', hi', hstands', hlast', hstop'⟩ := stop_of_isBlock hbar hm' hblock'
  have hle := hlast i' hstands'
  have hle' := hlast' i hstands
  have hapart := apart_of_mem_spans hm hm' hne
  omega

end Style

/-! ## The one block -/

/-- The first `(*` that lies in no line comment among those found. -/
structure IsFirstOpener (t : List Char) (found : List Span) (p : Nat) : Prop where
  stands : standsAt t ['(', '*'] p = true
  outside : ∀ m ∈ found, m.isLine t = true → m.covers p = false
  first : ∀ q < p, standsAt t ['(', '*'] q = true →
    ∃ m ∈ found, m.isLine t = true ∧ m.covers q = true

namespace Style

variable {t : List Char}

/-- An opener with a `*)` behind it lies in a comment: if in no other, it
opens one. -/
theorem covered_of_closer (hbar : ¬ ['*', '/'] <:+: t) {p i : Nat}
    (hopen : standsAt t ['(', '*'] p = true) (hi : p + 2 ≤ i)
    (hcloser : standsAt t ['*', ')'] i = true) :
    ∃ m ∈ Style.fsharp.spans t, m.covers p = true := by
  obtain hcovered | hnone := covered_or_none .fsharp (lt_length_of_standsAt (by simp) hopen)
  · exact hcovered
  · obtain ⟨_, _, _, _, hsome⟩ | ⟨hno, _⟩ := rest?_opener_cases hbar hopen
    · rw [hnone] at hsome
      cases hsome
    · rw [hno i hi] at hcloser
      cases hcloser

/-- A line comment does not start as a block does. -/
theorem not_isBlock_of_isLine {m : Span} (h : m.isLine t = true) :
    ¬ m.isBlock .fsharp t = true := by
  intro hblock
  obtain ⟨s, hs⟩ := standsAt_iff.mp h
  obtain ⟨s', hs'⟩ := standsAt_iff.mp hblock
  have hsame := hs.trans hs'.symm
  simp [opener] at hsame

/-- The block that is found opens at the first opener. -/
theorem isFirstOpener_of_isBlock (hbar : ¬ ['*', '/'] <:+: t) {b : Span}
    (hb : b ∈ Style.fsharp.spans t) (hblock : b.isBlock .fsharp t = true) :
    IsFirstOpener t (Style.fsharp.spans t) b.start := by
  have hlt := (mem_spans hb).1
  obtain ⟨i, hi, hcloser, _, _⟩ := stop_of_isBlock hbar hb hblock
  refine ⟨hblock, fun l hl hline => ?_, fun q hq hopen => ?_⟩
  · have hne : l ≠ b := by
      rintro rfl
      exact not_isBlock_of_isLine hline hblock
    have hapart := apart_of_mem_spans hl hb hne
    have hpos := (mem_spans hl).1
    simp only [Span.covers, Bool.and_eq_false_iff, decide_eq_false_iff_not]
    omega
  · obtain ⟨m, hm, hcovers⟩ := covered_of_closer hbar hopen (by omega : q + 2 ≤ i) hcloser
    obtain hline | hblock' := isLine_or_isBlock hm
    · exact ⟨m, hm, hline, hcovers⟩
    · -- the only block starts behind `q`
      obtain rfl := eq_of_isBlock hbar hm hb hblock' hblock
      simp only [Span.covers, Bool.and_eq_true, decide_eq_true_eq] at hcovers
      omega

/-- Where a `*)` stands behind the first opener, a block is found. -/
theorem exists_isBlock (hbar : ¬ ['*', '/'] <:+: t) {p i : Nat}
    (hp : IsFirstOpener t (Style.fsharp.spans t) p) (hi : p + 2 ≤ i)
    (hcloser : standsAt t ['*', ')'] i = true) :
    ∃ b ∈ Style.fsharp.spans t, b.isBlock .fsharp t = true := by
  obtain ⟨m, hm, hcovers⟩ := covered_of_closer hbar hp.stands hi hcloser
  obtain hline | hblock := isLine_or_isBlock hm
  · rw [hp.outside m hm hline] at hcovers
    cases hcovers
  · exact ⟨m, hm, hblock⟩

/-- There is one block at most. -/
theorem countP_isBlock_le_one (hbar : ¬ ['*', '/'] <:+: t) :
    (Style.fsharp.spans t).countP (·.isBlock .fsharp t) ≤ 1 := by
  rw [List.countP_eq_length_filter]
  cases hfound : (Style.fsharp.spans t).filter (·.isBlock .fsharp t) with
  | nil => simp
  | cons m rest =>
    cases rest with
    | nil => simp
    | cons m' rest =>
      have hmem : ∀ b ∈ m :: m' :: rest, b ∈ Style.fsharp.spans t ∧ b.isBlock .fsharp t = true := by
        intro b hb
        exact List.mem_filter.mp (hfound ▸ hb)
      obtain ⟨hm, hblock⟩ := hmem m (by simp)
      obtain ⟨hm', hblock'⟩ := hmem m' (by simp)
      have hsame : m = m' := eq_of_isBlock hbar hm hm' hblock hblock'
      have hpairs := (fsharp.pairwise_spans t).filter fun m => m.isBlock .fsharp t
      rw [hfound] at hpairs
      have hapart : m.stop ≤ m'.start := (List.pairwise_cons.mp hpairs).1 m' (by simp)
      have hpos := (mem_spans hm).1
      rw [← hsame] at hapart
      omega

end Style

/-- **One block at most.**  Of the F# comments of a text without `*/`, one at
most is a block.  One is exactly if a `*)` stands behind the first `(*` that
lies in no line comment.  It then starts there and stops behind the last `*)`
of the text, and no other comment lies in it. -/
theorem fsharp_block_of_no_bar (t : List Char) (h : ¬ ['*', '/'] <:+: t) :
    (Style.fsharp.spans t).length = Style.fsharp.count t ∧
    (Style.fsharp.spans t).countP (·.isBlock .fsharp t) ≤ 1 ∧
    ((Style.fsharp.spans t).countP (·.isBlock .fsharp t) = 1 ↔
      ∃ p, IsFirstOpener t (Style.fsharp.spans t) p ∧
        ∃ i, p + 2 ≤ i ∧ standsAt t ['*', ')'] i = true) ∧
    ∀ b ∈ Style.fsharp.spans t, b.isBlock .fsharp t = true →
      IsFirstOpener t (Style.fsharp.spans t) b.start ∧
      (∃ i, standsAt t ['*', ')'] i = true ∧ (∀ j, standsAt t ['*', ')'] j = true → j ≤ i) ∧
        b.stop = i + 2) ∧
      ∀ m ∈ Style.fsharp.spans t, m ≠ b → m.stop ≤ b.start ∨ b.stop ≤ m.start := by
  have hone : ∀ {b : Span}, b ∈ Style.fsharp.spans t → b.isBlock .fsharp t = true →
      (Style.fsharp.spans t).countP (·.isBlock .fsharp t) = 1 := by
    intro b hb hblock
    have hle := Style.countP_isBlock_le_one h
    have hpos : 0 < (Style.fsharp.spans t).countP (·.isBlock .fsharp t) :=
      List.countP_pos_iff.mpr ⟨b, hb, hblock⟩
    omega
  refine ⟨Style.length_spans .fsharp t, Style.countP_isBlock_le_one h, ⟨?_, ?_⟩, ?_⟩
  · intro hcount
    obtain ⟨b, hb, hblock⟩ := List.countP_pos_iff.mp (hcount ▸ Nat.one_pos)
    obtain ⟨i, hi, hcloser, _, _⟩ := Style.stop_of_isBlock h hb hblock
    exact ⟨b.start, Style.isFirstOpener_of_isBlock h hb hblock, i, hi, hcloser⟩
  · rintro ⟨p, hp, i, hi, hcloser⟩
    obtain ⟨b, hb, hblock⟩ := Style.exists_isBlock h hp hi hcloser
    exact hone hb hblock
  · intro b hb hblock
    obtain ⟨i, _, hcloser, hlast, hstop⟩ := Style.stop_of_isBlock h hb hblock
    exact ⟨Style.isFirstOpener_of_isBlock h hb hblock, ⟨i, hcloser, hlast, hstop⟩,
      fun m hm hne => Style.apart_of_mem_spans hm hb hne⟩

/-- The opener in the first remark and the `(*)` do not count, and the block
takes the second remark in. -/
theorem fsharp_block_of_no_bar_twoOpeners :
    ¬ ['*', '/'] <:+: "// (* a\n(*) // b\n(* c *) *) // d\n".toList ∧
      (Style.fsharp.spans "// (* a\n(*) // b\n(* c *) *) // d\n".toList).countP
        (·.isBlock .fsharp "// (* a\n(*) // b\n(* c *) *) // d\n".toList) = 1 := by
  have hbar : ¬ ['*', '/'] <:+: "// (* a\n(*) // b\n(* c *) *) // d\n".toList := by decide
  have hfirst : IsFirstOpener "// (* a\n(*) // b\n(* c *) *) // d\n".toList
      (Style.fsharp.spans "// (* a\n(*) // b\n(* c *) *) // d\n".toList) 8 := by
    rw [show Style.fsharp.spans _ = [⟨0, 8⟩, ⟨8, 27⟩, ⟨28, 33⟩] by decide +kernel]
    exact ⟨by decide, by decide, by decide⟩
  exact ⟨hbar, (fsharp_block_of_no_bar _ hbar).2.2.1.mpr ⟨8, hfirst, 25, by decide, by decide⟩⟩

end CommentDensity
