import CommentDensity.Proofs.Measure

/-!
# CommentDensity.Proofs.Regrouping

Totals in any grouping and any order.

A total holds the exact sums of its parts at the limit (`holds_total_self`),
and so do a total of totals (`holds_total_cons`) and a total of the parts in
another order.  Measures that hold the same numbers are the same
(`Holds.eq`), so none of this shows in the total (`total_regrouped`), even
where one of the two sums passes the limit and the other does not.
-/

namespace CommentDensity.Measure

variable {ms ms' : List Measure}

/-- A total holds the exact sums of its parts. -/
theorem holds_total_self (root : Path) (ms : List Measure) :
    (total root ms).Holds (ms.map (·.lines.toNat)).sum (ms.map (·.comments.toNat)).sum := by
  have htotal := holds_total ms (fun m => m.holds_self) root
  rwa [List.map_id'] at htotal

theorem holds_total_cons {m : Measure} {root : Path} {lines comments lines' comments' : Nat}
    (hm : m.Holds lines comments) (hms : (total root ms).Holds lines' comments') :
    (total root (m :: ms)).Holds (lines + lines') (comments + comments') := by
  have hsum : ∀ (c : Count) (cs : List Count) {n k : Nat}, c.toNat = min n Count.limit →
      (Count.sum cs).toNat = min k Count.limit →
      (Count.sum (c :: cs)).toNat = min (n + k) Count.limit := by
    intro c cs n k hc hcs
    rw [Count.toNat_sum] at hcs ⊢
    rw [Count.exactSum_cons]
    omega
  exact ⟨hsum _ _ hm.lines_eq hms.lines_eq, hsum _ _ hm.comments_eq hms.comments_eq⟩

/-- The order of measures does not show in their total. -/
theorem total_perm (root : Path) (h : ms.Perm ms') : total root ms = total root ms' := by
  have htotal := holds_total_self root ms
  rw [(h.map _).sum_eq, (h.map _).sum_eq] at htotal
  exact htotal.eq (holds_total_self root ms') rfl

/-- Measures that found nothing can be left out of a total. -/
theorem total_filter_ne_empty (root : Path) (ms : List Measure) :
    total root (ms.filter fun m => m ≠ empty m.root) = total root ms := by
  have hempty : ∀ m : Measure, decide (m ≠ empty m.root) = false → m = empty m.root :=
    fun m hm => by simpa using hm
  have htotal := holds_total_self root (ms.filter fun m => m ≠ empty m.root)
  rw [sum_map_filter ms fun m hm => by rw [hempty m hm]; rfl,
    sum_map_filter ms fun m hm => by rw [hempty m hm]; rfl] at htotal
  exact htotal.eq (holds_total_self root ms) rfl

/-- The total of some measures can stand for them in a total. -/
theorem total_total_cons (root inner : Path) (part rest : List Measure) :
    total root (total inner part :: rest) = total root (part ++ rest) := by
  have htotal := holds_total_cons (holds_total_self inner part) (holds_total_self root rest)
  have hflat := holds_total_self root (part ++ rest)
  rw [List.map_append, List.map_append, List.sum_append, List.sum_append] at hflat
  exact htotal.eq hflat rfl

theorem total_le_total_append (root : Path) (ms more : List Measure) :
    (total root ms).lines.toNat ≤ (total root (ms ++ more)).lines.toNat ∧
      (total root ms).comments.toNat ≤ (total root (ms ++ more)).comments.toNat := by
  have htotal := holds_total_self root ms
  have hmore := holds_total_self root (ms ++ more)
  rw [List.map_append, List.map_append, List.sum_append, List.sum_append] at hmore
  rw [htotal.lines_eq, htotal.comments_eq, hmore.lines_eq, hmore.comments_eq]
  omega

/-- **Totals in any grouping.**  The lines and the comments of a total are the
exact sums over its parts, each held at the limit.  So a total stays what it
is when its parts come in another order, when measures that found nothing are
put in or taken out, and when the total of some parts stands for them, in
whatever place.  With more parts at the end it does not go down. -/
theorem total_regrouped (root : Path) (ms : List Measure) :
    ((total root ms).lines.toNat = min (ms.map (·.lines.toNat)).sum Count.limit ∧
      (total root ms).comments.toNat = min (ms.map (·.comments.toNat)).sum Count.limit) ∧
    (∀ ms', ms'.Perm ms → total root ms' = total root ms) ∧
    (∀ ms' : List Measure, (ms'.filter fun m => m ≠ empty m.root) =
        (ms.filter fun m => m ≠ empty m.root) → total root ms' = total root ms) ∧
    (∀ (inner : Path) (part rest ms' : List Measure), ms.Perm (part ++ rest) →
      ms'.Perm (total inner part :: rest) → total root ms' = total root ms) ∧
    ∀ n k, n ≤ k →
      (total root (ms.take n)).lines.toNat ≤ (total root (ms.take k)).lines.toNat ∧
      (total root (ms.take n)).comments.toNat ≤ (total root (ms.take k)).comments.toNat := by
  have htotal := holds_total_self root ms
  refine ⟨⟨htotal.lines_eq, htotal.comments_eq⟩, fun ms' h => total_perm root h, fun ms' h => ?_,
    fun inner part rest ms' hms hms' => ?_, fun n k hnk => ?_⟩
  · rw [← total_filter_ne_empty root ms', h, total_filter_ne_empty]
  · calc
      total root ms' = total root (total inner part :: rest) := total_perm root hms'
      _ = total root (part ++ rest) := total_total_cons root inner part rest
      _ = total root ms := (total_perm root hms).symm
  · obtain ⟨more, hmore⟩ := List.take_prefix_take_left (l := ms) hnk
    rw [← hmore]
    exact total_le_total_append root (ms.take n) more

/-- Measures whose lines pass the limit at the third of them, and whose
comments at the fourth. -/
def hugeMeasures : List Measure :=
  [⟨.ofNat Count.limit, .ofNat 3, .ofString "a"⟩, .empty (.ofString "b"),
    ⟨.ofNat 2, .ofNat (Count.limit - 4), .ofString "c"⟩, ⟨.ofNat 1, .ofNat 5, .ofString "d"⟩]

theorem total_regrouped_hugeMeasures :
    hugeMeasures.reverse.Perm hugeMeasures ∧
      total (.ofString ".") hugeMeasures.reverse = total (.ofString ".") hugeMeasures ∧
      ((hugeMeasures.eraseIdx 1).filter fun m => m ≠ empty m.root) =
        (hugeMeasures.filter fun m => m ≠ empty m.root) ∧
      total (.ofString ".") (hugeMeasures.eraseIdx 1) = total (.ofString ".") hugeMeasures ∧
      total (.ofString ".") (hugeMeasures.take 2 ++ [total (.ofString "e") (hugeMeasures.drop 2)]) =
        total (.ofString ".") hugeMeasures ∧
      (total (.ofString ".") (hugeMeasures.take 3)).comments.toNat ≤
        (total (.ofString ".") (hugeMeasures.take 4)).comments.toNat := by
  obtain ⟨_, hperm, hempty, hpart, hmono⟩ := total_regrouped (.ofString ".") hugeMeasures
  have hreverse : hugeMeasures.reverse.Perm hugeMeasures := List.reverse_perm hugeMeasures
  have herase : ((hugeMeasures.eraseIdx 1).filter fun m => m ≠ empty m.root) =
      (hugeMeasures.filter fun m => m ≠ empty m.root) := by decide
  have hsplit : hugeMeasures.Perm (hugeMeasures.drop 2 ++ hugeMeasures.take 2) := by decide
  exact ⟨hreverse, hperm _ hreverse, herase, hempty _ herase,
    hpart (.ofString "e") _ _ _ hsplit List.perm_append_comm, (hmono 3 4 (by decide)).2⟩

end CommentDensity.Measure
