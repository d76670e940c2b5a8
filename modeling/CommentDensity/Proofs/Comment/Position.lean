import CommentDensity.Proofs.Comment.Grammar

/-!
# CommentDensity.Proofs.Comment.Position

Comments by position.

The scan reads a text from the front and never looks back.  Here the same
comments are said by their positions in the whole text: `csharpEnd?` and
`fsharpEnd?` give the end of the comment that starts at a position, and
`Scans` goes from position to position.

* `find?_eq`, `starRuns_eq` — how the searches of a position follow from
  those one further on;
* `rest?_drop` — a position and the text behind it have the same comment,
  if they have the same blocks;
* `scans_iff` — so they have the same number of them.
-/

namespace CommentDensity

/-! ## Positions of a text -/

/-- Where `word` stands first in a text, from position `p` on. -/
def find? (t word : List Char) (p : Nat) : Option Nat :=
  (List.range' p (t.length - p)).find? fun i => word.isPrefixOf (t.drop i)

/-- Where the stars that stand at position `p` end: at `p` itself, if there
are none. -/
def starsEnd (t : List Char) (p : Nat) : Nat := p + ((t.drop p).takeWhile (· = '*')).length

/-- The ends of the maximal runs of stars that start at `q` or later, in
order. -/
def starRuns (t : List Char) (q : Nat) : List Nat :=
  ((List.range' q (t.length - q)).filter fun b =>
    t[b]? = some '*' ∧ (b = 0 ∨ t[b - 1]? ≠ some '*')).map (starsEnd t)

/-- The end of the comment that starts at position `p`.  A line comment ends
behind the first `\n` behind its slashes.  A block has an opener and a
maximal run of stars, up to `q`; it ends where `blockEnd? q` says, or else
behind a closer at `q`, if the stars are two or more. -/
def endAt? (opener closer : Char) (blockEnd? : Nat → Option Nat) (t : List Char) (p : Nat) :
    Option Nat :=
  if t[p]? = some '/' ∧ t[p + 1]? = some '/' then (find? t ['\n'] (p + 2)).map (· + 1)
  else if t[p]? = some opener ∧ t[p + 1]? = some '*' then
    let q := starsEnd t (p + 1)
    (blockEnd? q).or (if 2 ≤ q - (p + 1) ∧ t[q]? = some closer then some (q + 1) else none)
  else none

/-- In C# a block ends behind the first `*/` whose star is at `q` or later. -/
def csharpEnd? (t : List Char) : Nat → Option Nat :=
  endAt? '/' '/' (fun q => (find? t ['*', '/'] q).map (· + 2)) t

/-- The runs of stars that an F# block can reach: those before the first one
that a slash or the end of the text follows. -/
def reachedRuns (t : List Char) (q : Nat) : List Nat :=
  (starRuns t q).takeWhile fun e => e < t.length ∧ t[e]? ≠ some '/'

/-- The last of these runs that a `)` follows. -/
def closingRun? (t : List Char) (q : Nat) : Option Nat :=
  ((reachedRuns t q).filter fun e => t[e]? = some ')').getLast?

/-- In F# a block ends behind the `)` of the last run of stars that it can
reach and that a `)` follows. -/
def fsharpEnd? (t : List Char) : Nat → Option Nat :=
  endAt? '(' ')' (fun q => (closingRun? t q).map (· + 1)) t

/-- The scan from position `p` on counts `n` comments, when `end?` gives the
end of the comment at a position. -/
inductive Scans (t : List Char) (end? : Nat → Option Nat) : (p n : Nat) → Prop
  /-- At the end of the text there is no more to count. -/
  | done {p : Nat} : t.length ≤ p → Scans t end? p 0
  /-- A comment is counted, and the scan goes on at its end. -/
  | found {p e n : Nat} : p < t.length → end? p = some e → Scans t end? e n →
      Scans t end? p (n + 1)
  /-- A position where no comment starts is passed over. -/
  | passed {p n : Nat} : p < t.length → end? p = none → Scans t end? (p + 1) n → Scans t end? p n

/-! ## One position further on -/

theorem find?_of_le {t : List Char} (word : List Char) {p : Nat} (h : t.length ≤ p) :
    find? t word p = none := by
  simp [find?, Nat.sub_eq_zero_of_le h]

/-- The rule of a search. -/
theorem find?_eq {t : List Char} (word : List Char) {p : Nat} (h : p < t.length) :
    find? t word p = if word.isPrefixOf (t.drop p) then some p else find? t word (p + 1) := by
  have hlen : t.length - p = t.length - (p + 1) + 1 := by omega
  rw [find?, hlen, List.range'_succ, List.find?_cons, find?]
  split <;> simp_all

theorem starsEnd_eq (t : List Char) (p : Nat) :
    starsEnd t p = if t[p]? = some '*' then starsEnd t (p + 1) else p := by
  by_cases h : p < t.length
  · rw [starsEnd, starsEnd, List.drop_eq_getElem_cons h, List.takeWhile_cons,
      List.getElem?_eq_getElem h]
    by_cases hc : t[p] = '*'
    · simp [hc]; omega
    · simp [hc]
  · have h : t.length ≤ p := by omega
    simp [starsEnd, List.drop_of_length_le h, List.getElem?_eq_none h]

theorem le_starsEnd (t : List Char) (p : Nat) : p ≤ starsEnd t p := Nat.le_add_right ..

theorem starsEnd_le {t : List Char} {p : Nat} (h : p ≤ t.length) : starsEnd t p ≤ t.length := by
  have hle := (List.takeWhile_prefix (p := (· = '*')) (l := t.drop p)).length_le
  rw [List.length_drop] at hle
  rw [starsEnd]
  omega

/-- The text behind stars is what they leave. -/
theorem drop_starsEnd (t : List Char) (p : Nat) :
    t.drop (starsEnd t p) = (t.drop p).dropWhile (· = '*') := by
  have hsplit := List.takeWhile_append_dropWhile (p := (· = '*')) (l := t.drop p)
  calc
    t.drop (starsEnd t p)
        = (t.drop p).drop ((t.drop p).takeWhile (· = '*')).length := by
          rw [starsEnd, List.drop_drop]
    _ = ((t.drop p).takeWhile (· = '*') ++ (t.drop p).dropWhile (· = '*')).drop
          ((t.drop p).takeWhile (· = '*')).length := by rw [hsplit]
    _ = (t.drop p).dropWhile (· = '*') := List.drop_left

/-- No star stands where stars end. -/
theorem getElem?_starsEnd (t : List Char) (p : Nat) : t[starsEnd t p]? ≠ some '*' := by
  rw [← List.head?_drop, drop_starsEnd]
  intro h
  have := List.head?_dropWhile_not (· = '*') (t.drop p)
  rw [h] at this
  simp at this

theorem starRuns_of_le {t : List Char} {q : Nat} (h : t.length ≤ q) : starRuns t q = [] := by
  simp [starRuns, Nat.sub_eq_zero_of_le h]

/-- A position where no run starts shows no run of its own. -/
theorem starRuns_succ {t : List Char} {q : Nat}
    (h : t[q]? = some '*' → q ≠ 0 ∧ t[q - 1]? = some '*') : starRuns t q = starRuns t (q + 1) := by
  by_cases hq : q < t.length
  · have hlen : t.length - q = t.length - (q + 1) + 1 := by omega
    rw [starRuns, hlen, List.range'_succ, List.filter_cons_of_neg, starRuns]
    simpa using h
  · rw [starRuns_of_le (by omega), starRuns_of_le (by omega)]

/-- Behind the first star of a run no run starts before the run ends. -/
theorem starRuns_inside {t : List Char} {q : Nat} (h : t[q]? = some '*') :
    starRuns t (q + 1) = starRuns t (starsEnd t (q + 1)) := by
  induction hn : t.length - q using Nat.strongRecOn generalizing q with
  | _ n ih =>
    rw [starsEnd_eq]
    split
    · next hstar =>
      have hq : q < t.length := (List.getElem?_eq_some_iff.mp h).1
      rw [starRuns_succ fun _ => ⟨by omega, h⟩]
      exact ih (t.length - (q + 1)) (by omega) hstar rfl
    · rfl

/-- A run that starts at `q` is the first from `q` on. -/
theorem starRuns_of_start {t : List Char} {q : Nat} (h : t[q]? = some '*')
    (hstart : q = 0 ∨ t[q - 1]? ≠ some '*') :
    starRuns t q = starsEnd t q :: starRuns t (starsEnd t q) := by
  have hq : q < t.length := (List.getElem?_eq_some_iff.mp h).1
  have hlen : t.length - q = t.length - (q + 1) + 1 := by omega
  have hend : starsEnd t q = starsEnd t (q + 1) := by rw [starsEnd_eq, if_pos h]
  rw [starRuns, hlen, List.range'_succ, List.filter_cons_of_pos (by simpa using ⟨h, hstart⟩),
    List.map_cons, ← starRuns, starRuns_inside h, ← hend]

theorem closingRun?_of_le {t : List Char} {q : Nat} (h : t.length ≤ q) :
    closingRun? t q = none := by
  simp [closingRun?, reachedRuns, starRuns_of_le h]

theorem closingRun?_succ {t : List Char} {q : Nat} (h : t[q]? ≠ some '*') :
    closingRun? t q = closingRun? t (q + 1) := by
  rw [closingRun?, closingRun?, reachedRuns, reachedRuns, starRuns_succ fun hs => absurd hs h]

/-- What follows a run decides: nothing or a slash bars the block, and a `)`
ends it unless it ends further on. -/
theorem closingRun?_of_start {t : List Char} {q : Nat} (h : t[q]? = some '*')
    (hstart : q = 0 ∨ t[q - 1]? ≠ some '*') :
    closingRun? t q =
      match t[starsEnd t q]? with
      | none => none
      | some d =>
        (if d = '/' then none else closingRun? t (starsEnd t q)).or
          (if d = ')' then some (starsEnd t q) else none) := by
  rw [closingRun?, reachedRuns, starRuns_of_start h hstart]
  generalize starsEnd t q = e
  cases hd : t[e]? with
  | none =>
    have hle : t.length ≤ e := List.getElem?_eq_none_iff.mp hd
    rw [List.takeWhile_cons_of_neg (by simp; omega)]
    rfl
  | some d =>
    have hlt : e < t.length := (List.getElem?_eq_some_iff.mp hd).1
    by_cases hslash : d = '/'
    · subst hslash
      rw [List.takeWhile_cons_of_neg (by simp [hd])]
      rfl
    · rw [List.takeWhile_cons_of_pos (by simp only [hd]; simp [hlt, hslash]), ← reachedRuns]
      by_cases hparen : d = ')'
      · subst hparen
        rw [List.filter_cons_of_pos (by simp [hd]), List.getLast?_cons, ← closingRun?]
        cases closingRun? t e <;> simp
      · rw [List.filter_cons_of_neg (by simp [hd, hparen]), ← closingRun?]
        simp [hslash, hparen]

/-! ## A position and the text behind it -/

theorem drop_eq_cons {t : List Char} {p : Nat} {c : Char} (h : t[p]? = some c) :
    t.drop p = c :: t.drop (p + 1) := by
  obtain ⟨hp, rfl⟩ := List.getElem?_eq_some_iff.mp h
  exact List.drop_eq_getElem_cons hp

theorem afterLine?_drop (t : List Char) (p : Nat) :
    Style.afterLine? (t.drop p) = (find? t ['\n'] p).map fun i => t.drop (i + 1) := by
  induction hn : t.length - p using Nat.strongRecOn generalizing p with
  | _ n ih =>
    cases hc : t[p]? with
    | none =>
      have hp : t.length ≤ p := List.getElem?_eq_none_iff.mp hc
      simp [List.drop_of_length_le hp, find?_of_le _ hp, Style.afterLine?]
    | some c =>
      have hp : p < t.length := (List.getElem?_eq_some_iff.mp hc).1
      rw [drop_eq_cons hc, Style.afterLine?, find?_eq _ hp, drop_eq_cons hc,
        ih (t.length - (p + 1)) (by omega) (p + 1) rfl]
      by_cases hnl : c = '\n'
      · simp [hnl]
      · simp [hnl, Ne.symm hnl]

/-- In C# a block ends behind the first `*/`. -/
theorem close?_csharp_drop (t : List Char) (p : Nat) :
    Style.close? .csharp (t.drop p) = (find? t ['*', '/'] p).map fun i => t.drop (i + 2) := by
  induction hn : t.length - p using Nat.strongRecOn generalizing p with
  | _ n ih =>
    cases hc : t[p]? with
    | none =>
      have hp : t.length ≤ p := List.getElem?_eq_none_iff.mp hc
      simp [List.drop_of_length_le hp, find?_of_le _ hp, Style.close?]
    | some c =>
      have hp : p < t.length := (List.getElem?_eq_some_iff.mp hc).1
      have ihp := ih (t.length - (p + 1)) (by omega) (p + 1) rfl
      rw [find?_eq _ hp, drop_eq_cons hc]
      by_cases hstar : c = '*'
      · subst hstar
        cases hd : t[p + 1]? with
        | none =>
          have hp' : t.length ≤ p + 1 := List.getElem?_eq_none_iff.mp hd
          simp [List.drop_of_length_le hp', find?_of_le _ hp', Style.close?]
        | some d =>
          rw [drop_eq_cons hd] at ihp ⊢
          by_cases hslash : d = '/'
          · simp [hslash]
          · rw [Style.close?_csharp_star hslash, ihp]
            simp [Ne.symm hslash]
      · rw [Style.close?_of_ne_star _ hstar, ihp]
        simp [Ne.symm hstar]

/-- In F# a block ends behind the last run of stars that it can reach and
that a `)` follows. -/
theorem close?_fsharp_drop {t : List Char} {q : Nat}
    (hq : t[q]? = some '*' → q = 0 ∨ t[q - 1]? ≠ some '*') :
    Style.close? .fsharp (t.drop q) = (closingRun? t q).map fun e => t.drop (e + 1) := by
  -- a run of stars is passed whole, so the induction is on all that is left
  induction hn : t.length - q using Nat.strongRecOn generalizing q with
  | _ n ih =>
    cases hc : t[q]? with
    | none =>
      have hle : t.length ≤ q := List.getElem?_eq_none_iff.mp hc
      simp [List.drop_of_length_le hle, closingRun?_of_le hle, Style.close?]
    | some c =>
      have hlt : q < t.length := (List.getElem?_eq_some_iff.mp hc).1
      by_cases hstar : c = '*'
      · subst hstar
        have hend : starsEnd t q = starsEnd t (q + 1) := by rw [starsEnd_eq, if_pos hc]
        have hbehind : q + 1 ≤ starsEnd t (q + 1) := le_starsEnd t (q + 1)
        have hns : t[starsEnd t (q + 1)]? ≠ some '*' := getElem?_starsEnd t (q + 1)
        rw [drop_eq_cons hc, Style.close?_stars, ← drop_starsEnd, closingRun?_of_start hc (hq hc),
          hend]
        generalize starsEnd t (q + 1) = e at hbehind hns
        cases hd : t[e]? with
        | none => simp [List.drop_of_length_le (List.getElem?_eq_none_iff.mp hd)]
        | some d =>
          have ihe : Style.close? .fsharp (t.drop e) =
              (closingRun? t e).map fun e => t.drop (e + 1) :=
            ih (t.length - e) (by omega) (fun h => absurd h hns) rfl
          have hds : d ≠ '*' := by rintro rfl; exact hns hd
          rw [drop_eq_cons hd, Style.close?_of_ne_star _ hds] at ihe
          rw [drop_eq_cons hd]
          by_cases hslash : d = '/'
          · simp [hslash, Style.closer]
          · simp only [hslash, if_false, ihe, Style.closer]
            by_cases hparen : d = ')'
            · cases closingRun? t e <;> simp [hparen]
            · simp [hparen]
      · have hns : t[q]? ≠ some '*' := by rw [hc]; simpa using hstar
        rw [drop_eq_cons hc, Style.close?_of_ne_star _ hstar, closingRun?_succ hns]
        exact ih (t.length - (q + 1)) (by omega) (fun _ => .inr (by simpa using hns)) rfl

/-- A block ends at the same place, whether it is said by the position `p`
of its opening stars or by the text from there on. -/
theorem blockRest?_drop {style : Style} {blockEnd? : Nat → Option Nat} {t : List Char}
    (hblock : ∀ q, t[q]? ≠ some '*' → style.close? (t.drop q) = (blockEnd? q).map (t.drop ·))
    {p : Nat} (hp : p ≤ t.length) :
    style.blockRest? (t.drop p) =
      ((blockEnd? (starsEnd t p)).or
        (if 2 ≤ starsEnd t p - p ∧ t[starsEnd t p]? = some style.closer then
          some (starsEnd t p + 1) else none)).map (t.drop ·) := by
  have hle : starsEnd t p ≤ t.length := starsEnd_le hp
  rw [Style.blockRest?, ← drop_starsEnd, hblock _ (getElem?_starsEnd t p)]
  generalize starsEnd t p = q at hle
  have htwo : (t.drop p).length ≤ (t.drop q).length + 1 ↔ ¬ 2 ≤ q - p := by
    rw [List.length_drop, List.length_drop]
    omega
  cases blockEnd? q with
  | some e => rfl
  | none =>
    simp only [Option.map_none, Option.none_or, htwo]
    by_cases hk : 2 ≤ q - p
    · cases he : t[q]? with
      | none => simp [List.drop_of_length_le (List.getElem?_eq_none_iff.mp he), hk]
      | some e =>
        rw [drop_eq_cons he]
        by_cases hcl : e = style.closer <;> simp [hk, hcl]
    · simp [hk]

/-- The same for comments of either kind. -/
theorem rest?_drop {style : Style} {blockEnd? : Nat → Option Nat} {t : List Char}
    (hblock : ∀ q, t[q]? ≠ some '*' → style.close? (t.drop q) = (blockEnd? q).map (t.drop ·))
    (p : Nat) :
    style.rest? (t.drop p) = (endAt? style.opener style.closer blockEnd? t p).map (t.drop ·) := by
  cases hc : t[p]? with
  | none =>
    simp [List.drop_of_length_le (List.getElem?_eq_none_iff.mp hc), Style.rest?, endAt?, hc]
  | some c =>
    rw [drop_eq_cons hc]
    cases hd : t[p + 1]? with
    | none =>
      simp [List.drop_of_length_le (List.getElem?_eq_none_iff.mp hd), Style.rest?, endAt?, hd]
    | some d =>
      have hlt : p + 1 < t.length := (List.getElem?_eq_some_iff.mp hd).1
      rw [drop_eq_cons hd]
      simp only [Style.rest?, endAt?, hc, hd, Option.some.injEq]
      by_cases hline : c = '/' ∧ d = '/'
      · rw [if_pos hline, if_pos hline, afterLine?_drop, Option.map_map]
        rfl
      · rw [if_neg hline, if_neg hline]
        by_cases hopen : c = style.opener ∧ d = '*'
        · rw [if_pos hopen, if_pos hopen, ← drop_eq_cons hd]
          exact blockRest?_drop hblock (by omega)
        · rw [if_neg hopen, if_neg hopen]
          rfl

/-! ## The scan -/

/-- Going from position to position counts what the scan counts. -/
theorem scans_iff {style : Style} {t : List Char} {end? : Nat → Option Nat}
    (hend : ∀ p, style.rest? (t.drop p) = (end? p).map (t.drop ·)) (p n : Nat) :
    Scans t end? p n ↔ style.scan (t.drop p) = n := by
  constructor
  · intro h
    induction h with
    | done hp => simp [List.drop_of_length_le hp]
    | @found p e n hp he _ ih =>
      have hrest := hend p
      rw [List.drop_eq_getElem_cons hp] at hrest ⊢
      rw [he] at hrest
      rw [Style.scan_of_some hrest, ih]
    | @passed p n hp he _ ih =>
      have hrest := hend p
      rw [List.drop_eq_getElem_cons hp] at hrest ⊢
      rw [he] at hrest
      rw [Style.scan_of_none hrest, ih]
  · rintro rfl
    -- a comment takes at least its first character
    induction hn : (t.drop p).length using Nat.strongRecOn generalizing p with
    | _ k ih =>
      by_cases hp : p < t.length
      · have hrest := hend p
        have hcons := List.drop_eq_getElem_cons hp
        rw [hcons] at hrest hn ⊢
        cases he : end? p with
        | none =>
          rw [he] at hrest
          rw [Style.scan_of_none hrest]
          exact .passed hp he (ih _ (by rw [← hn, List.length_cons]; omega) (p + 1) rfl)
        | some e =>
          rw [he] at hrest
          have hle : (t.drop e).length ≤ (t.drop (p + 1)).length := Style.length_rest? hrest
          rw [Style.scan_of_some hrest]
          exact .found hp he (ih _ (by rw [← hn, List.length_cons]; omega) e rfl)
      · rw [List.drop_of_length_le (by omega), Style.scan_nil]
        exact .done (by omega)

/-! ## The two styles -/

/-- **C# comments by position.**  The successive matches of the pattern are
as many as a scan counts that ends a block behind the first `*/` after all
of its opening stars, and only without one at the slash behind those stars. -/
theorem scans_csharp_iff (t : List Char) :
    Style.csharp.count t = Style.csharp.pattern.count t ∧
      ∀ n, Scans t (csharpEnd? t) 0 n ↔ n = Style.csharp.count t := by
  refine ⟨Style.count_eq_count_pattern .csharp t, fun n => ?_⟩
  have hend : ∀ p, Style.rest? .csharp (t.drop p) = (csharpEnd? t p).map (t.drop ·) :=
    rest?_drop fun q _ => by rw [close?_csharp_drop, Option.map_map]; rfl
  rw [scans_iff hend, List.drop_zero, Style.count_eq_scan]
  exact eq_comm

/-- A closer further on is preferred to the opening stars' own. -/
example : Style.csharp.count "/**/ a /* b */".toList = 1 := by decide

/-- **F# comments by position.**  The successive matches of the pattern are
as many as a scan counts that ends a block at the last run of stars it can
reach with a `)` behind it, and only without one at the `)` behind its
opening stars. -/
theorem scans_fsharp_iff (t : List Char) :
    Style.fsharp.count t = Style.fsharp.pattern.count t ∧
      ∀ n, Scans t (fsharpEnd? t) 0 n ↔ n = Style.fsharp.count t := by
  refine ⟨Style.count_eq_count_pattern .fsharp t, fun n => ?_⟩
  have hend : ∀ p, Style.rest? .fsharp (t.drop p) = (fsharpEnd? t p).map (t.drop ·) :=
    rest?_drop fun q hq => by
      rw [close?_fsharp_drop fun h => absurd h hq, Option.map_map]
      rfl
  rw [scans_iff hend, List.drop_zero, Style.count_eq_scan]
  exact eq_comm

/-- A `*/` bars a block from the closers behind it. -/
example : Style.fsharp.count "(* a *) */ *) (* b *)".toList = 2 := by decide

end CommentDensity
