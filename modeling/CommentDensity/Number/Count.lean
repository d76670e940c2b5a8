/-!
# CommentDensity.Number.Count

Counts of lines and comments.  A count is at most `2^64 - 1`, and a sum
that is larger is held at that limit.

Holding every partial sum at the limit gives the same as holding the exact
sum at the limit once, whatever the order and grouping: `toNat_sum`.
-/

namespace CommentDensity

/-- The greatest count, `2^64 - 1`. -/
def Count.limit : Nat := 18446744073709551615

/-- A number of lines or comments. -/
structure Count where
  toNat : Nat
  le_limit : toNat ≤ Count.limit
  deriving DecidableEq, Repr

namespace Count

/-- A number, held at the limit. -/
def ofNat (n : Nat) : Count where
  toNat := min n limit
  le_limit := Nat.min_le_right ..

instance : OfNat Count 0 := ⟨ofNat 0⟩

instance : Inhabited Count := ⟨0⟩

instance : Add Count := ⟨fun a b => ofNat (a.toNat + b.toNat)⟩

theorem ext_toNat {a b : Count} (h : a.toNat = b.toNat) : a = b := by
  cases a; cases b; simp_all

@[simp] theorem toNat_ofNat (n : Nat) : (ofNat n).toNat = min n limit := rfl

@[simp] theorem toNat_zero : (0 : Count).toNat = 0 := rfl

@[simp] theorem toNat_add (a b : Count) : (a + b).toNat = min (a.toNat + b.toNat) limit := rfl

/-- The sum of counts, from the left. -/
def sum (cs : List Count) : Count := cs.foldl (· + ·) 0

/-- The sum of counts as it would be without the limit. -/
def exactSum (cs : List Count) : Nat := cs.foldr (fun c n => c.toNat + n) 0

@[simp] theorem exactSum_nil : exactSum [] = 0 := rfl

@[simp] theorem exactSum_cons (c : Count) (cs : List Count) :
    exactSum (c :: cs) = c.toNat + exactSum cs := rfl

theorem toNat_foldl_add (cs : List Count) (a : Count) :
    (cs.foldl (· + ·) a).toNat = min (a.toNat + exactSum cs) limit := by
  induction cs generalizing a with
  | nil =>
    have := a.le_limit
    simp only [List.foldl_nil, exactSum_nil]
    omega
  | cons c cs ih =>
    rw [List.foldl_cons, ih, toNat_add, exactSum_cons]
    omega

/-- The sum is the exact sum, held at the limit. -/
theorem toNat_sum (cs : List Count) : (sum cs).toNat = min (exactSum cs) limit := by
  rw [sum, toNat_foldl_add, toNat_zero, Nat.zero_add]

end Count

end CommentDensity
