import CommentDensity.Text.Pattern
import Mathlib.Data.List.Basic

/-!
# CommentDensity.Proofs.Text.Preference

Preferred matches without their lists of ends.

A match is the head of the list that `Pattern.ends` makes, and that list
lays out every way to backtrack.  `Pattern.first? p after s` is the first
end of `p` that `after` can go on from; read so, a sequence is the
composition of its parts and an alternative is `Option.or`:

* `first?_seq`, `first?_alt`, `first?_one_cons` — one rule a constructor;
* `first?_star` — one more round if that leads to a match, else none.

A repetition is bounded by the length of the text.  `starEnds_eq` says that
the bound does not show.
-/

namespace CommentDensity.Pattern

/-! ## Repetition -/

/-- Rounds beyond the length of the text change nothing. -/
theorem starEnds_eq (round : List Char → List (List Char)) (n m : Nat) (s : List Char)
    (hn : s.length ≤ n) (hm : s.length ≤ m) : starEnds round n s = starEnds round m s := by
  induction n generalizing m s with
  | zero =>
    obtain rfl : s = [] := List.length_eq_zero_iff.mp (Nat.le_zero.mp hn)
    cases m <;> simp [starEnds]
  | succ n ih =>
    cases m with
    | zero =>
      obtain rfl : s = [] := List.length_eq_zero_iff.mp (Nat.le_zero.mp hm)
      simp [starEnds]
    | succ m =>
      have hrounds : ((round s).filter fun r => r.length < s.length).flatMap (starEnds round n) =
          ((round s).filter fun r => r.length < s.length).flatMap (starEnds round m) := by
        apply List.flatMap_congr
        intro r hr
        have hlt : r.length < s.length := by simpa using (List.mem_filter.mp hr).2
        exact ih m r (by omega) (by omega)
      rw [starEnds, starEnds, hrounds]

/-- The rule of a repetition: its rounds, then the repetition again, and the
text itself last. -/
theorem ends_star (p : Pattern) (s : List Char) :
    (star p).ends s =
      ((p.ends s).filter fun r => r.length < s.length).flatMap (star p).ends ++ [s] := by
  cases s with
  | nil => simp [ends, starEnds]
  | cons c s =>
    have hrounds : ((p.ends (c :: s)).filter fun r => r.length < (c :: s).length).flatMap
          (starEnds p.ends s.length) =
        ((p.ends (c :: s)).filter fun r => r.length < (c :: s).length).flatMap (star p).ends := by
      apply List.flatMap_congr
      intro r hr
      have hlt : r.length < (c :: s).length := by simpa using (List.mem_filter.mp hr).2
      exact starEnds_eq p.ends s.length r.length r (by simpa using Nat.le_of_lt_succ hlt) (by omega)
    rw [← hrounds]
    rfl

/-- A pattern that never matches the empty text. -/
def Consumes (p : Pattern) : Prop := ∀ s, ∀ r ∈ p.ends s, r.length < s.length

theorem consumes_one (k : CharSet) : (one k).Consumes := by
  intro s r hr
  cases s with
  | nil => simp [ends] at hr
  | cons c s =>
    simp only [ends] at hr
    split at hr
    · rw [List.mem_singleton.mp hr]; simp
    · simp at hr

/-- No pattern leaves more than there was. -/
theorem length_le_of_mem_ends (p : Pattern) {s r : List Char} (hr : r ∈ p.ends s) :
    r.length ≤ s.length := by
  induction p generalizing s r with
  | one k => exact Nat.le_of_lt (consumes_one k s r hr)
  | seq p q ihp ihq =>
    obtain ⟨m, hm, hr⟩ := List.mem_flatMap.mp hr
    exact Nat.le_trans (ihq hr) (ihp hm)
  | alt p q ihp ihq =>
    obtain hr | hr := List.mem_append.mp hr
    · exact ihp hr
    · exact ihq hr
  | star p ih =>
    -- on the text: a round that is taken leaves a shorter one
    induction hs : s.length using Nat.strongRecOn generalizing s with
    | _ n ihn =>
      rw [ends_star] at hr
      obtain hr | hr := List.mem_append.mp hr
      · obtain ⟨m, hm, hr⟩ := List.mem_flatMap.mp hr
        have hlt : m.length < s.length := by simpa using (List.mem_filter.mp hm).2
        have := ihn m.length (by omega) hr rfl
        omega
      · rw [List.mem_singleton.mp hr]; omega

/-- A sequence takes what its first part takes. -/
theorem Consumes.seq {p : Pattern} (hp : p.Consumes) (q : Pattern) : (p.seq q).Consumes := by
  intro s r hr
  obtain ⟨m, hm, hr⟩ := List.mem_flatMap.mp hr
  exact Nat.lt_of_le_of_lt (length_le_of_mem_ends q hr) (hp s m hm)

/-! ## The first end to go on from -/

/-- The result of `after` at the most preferred end of `p` where it has one. -/
def first? (p : Pattern) (after : List Char → Option α) (s : List Char) : Option α :=
  (p.ends s).findSome? after

/-- The preferred match is the first end of all. -/
theorem rest?_eq_first? (p : Pattern) (s : List Char) : p.rest? s = p.first? some s := by
  unfold rest? first?
  cases p.ends s <;> rfl

@[simp] theorem first?_one_nil (k : CharSet) (after : List Char → Option α) :
    (one k).first? after [] = none := rfl

@[simp] theorem first?_one_cons (k : CharSet) (after : List Char → Option α) (c : Char)
    (s : List Char) : (one k).first? after (c :: s) = if k.has c then after s else none := by
  by_cases h : k.has c <;> simp [first?, ends, h]

@[simp] theorem first?_char_cons (d c : Char) (after : List Char → Option α) (s : List Char) :
    (char d).first? after (c :: s) = if c = d then after s else none := by
  simp [char, CharSet.has]

@[simp] theorem first?_char_nil (d : Char) (after : List Char → Option α) :
    (char d).first? after [] = none := rfl

/-- A sequence: the first part, then the second. -/
@[simp] theorem first?_seq (p q : Pattern) (after : List Char → Option α) :
    (p.seq q).first? after = p.first? (q.first? after) := by
  funext s
  unfold first?
  rw [ends]
  induction p.ends s with
  | nil => rfl
  | cons r rs ih =>
    rw [List.flatMap_cons, List.findSome?_append, ih, List.findSome?_cons]
    cases (q.ends r).findSome? after <;> rfl

/-- An alternative: the second only where the first leads to nothing. -/
@[simp] theorem first?_alt (p q : Pattern) (after : List Char → Option α) (s : List Char) :
    (p.alt q).first? after s = (p.first? after s).or (q.first? after s) := by
  simp [first?, ends, List.findSome?_append]

/-- A repetition: one more round if that leads to a match, else none. -/
theorem first?_star {p : Pattern} (hp : p.Consumes) (after : List Char → Option α)
    (s : List Char) :
    (star p).first? after s = (p.first? ((star p).first? after) s).or (after s) := by
  have hall : (p.ends s).filter (fun r => r.length < s.length) = p.ends s :=
    List.filter_eq_self.mpr fun r hr => by simpa using hp s r hr
  have hrounds : ((p.ends s).flatMap (star p).ends).findSome? after =
      (p.first? ((star p).first? after) s) := by
    have := congrFun (first?_seq p (star p) after) s
    simpa only [first?, ends] using this
  rw [first?, ends_star, hall, List.findSome?_append, hrounds]
  simp

/-- Repeating a character set at a character of the set. -/
theorem first?_star_one_cons (k : CharSet) (after : List Char → Option α) (c : Char)
    (s : List Char) :
    (star (one k)).first? after (c :: s) =
      if k.has c then ((star (one k)).first? after s).or (after (c :: s)) else after (c :: s) := by
  rw [first?_star (consumes_one k), first?_one_cons]
  by_cases h : k.has c <;> simp [h]

@[simp] theorem first?_star_one_nil (k : CharSet) (after : List Char → Option α) :
    (star (one k)).first? after [] = after [] := by
  rw [first?_star (consumes_one k), first?_one_nil, Option.none_or]

end CommentDensity.Pattern
