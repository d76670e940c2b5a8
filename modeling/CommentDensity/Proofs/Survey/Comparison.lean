import CommentDensity.Proofs.Survey.Completion

/-!
# CommentDensity.Proofs.Survey.Comparison

Two walks through one tree that differ in what they count.

How a directory's files make its measure, and which comments are counted, has
no part in where a walk goes: `WalksAlike` says that two walks make the same
visits, end alike and write the same blocks but for the numbers.  What is left
to compare are the measures of one directory (`walksAlike_counting`).

* Under `.lastFile` a directory measures at most what it measures under
  `.sum`: the file that stands for it is one of those that are summed, and
  summing held at the limit keeps the order (`atMost_found`).
* Lines are the same for every style of comments (`sameLines_found`).

Both go over to the total of a scan (`lastFile_atMost_sum`).
-/

namespace CommentDensity

/-! ## Measures of the same path -/

theorem Count.toNat_sum_le_toNat_sum {α : Type} {as bs : List α} {number : α → Count}
    (h : List.Forall₂ (fun a b => (number a).toNat ≤ (number b).toNat) as bs) :
    (sum (as.map number)).toNat ≤ (sum (bs.map number)).toNat := by
  have hexact : exactSum (as.map number) ≤ exactSum (bs.map number) := by
    induction h with
    | nil => exact Nat.le_refl 0
    | cons hab _ ih => exact Nat.add_le_add hab ih
  rw [toNat_sum, toNat_sum]
  omega

namespace Measure

/-- A measure of the same path with no more lines and no more comments. -/
structure AtMost (m m' : Measure) : Prop where
  root_eq : m.root = m'.root
  lines_le : m.lines.toNat ≤ m'.lines.toNat
  comments_le : m.comments.toNat ≤ m'.comments.toNat

/-- A measure of the same path with as many lines. -/
structure SameLines (m m' : Measure) : Prop where
  root_eq : m.root = m'.root
  lines_eq : m.lines = m'.lines

variable {m m' : Measure} {lines comments lines' comments' : Nat}

theorem Holds.atMost (h : m.Holds lines comments) (h' : m'.Holds lines' comments')
    (hroot : m.root = m'.root) (hlines : lines ≤ lines') (hcomments : comments ≤ comments') :
    m.AtMost m' where
  root_eq := hroot
  lines_le := by
    rw [h.lines_eq, h'.lines_eq]
    omega
  comments_le := by
    rw [h.comments_eq, h'.comments_eq]
    omega

theorem Holds.sameLines (h : m.Holds lines comments) (h' : m'.Holds lines comments')
    (hroot : m.root = m'.root) : m.SameLines m' where
  root_eq := hroot
  lines_eq := Count.ext_toNat (by rw [h.lines_eq, h'.lines_eq])

/-- Totals are in the order of their parts. -/
theorem atMost_total {ms ms' : List Measure} (h : List.Forall₂ AtMost ms ms') (root : Path) :
    (total root ms).AtMost (total root ms') where
  root_eq := rfl
  lines_le := Count.toNat_sum_le_toNat_sum (h.imp fun _ _ => AtMost.lines_le)
  comments_le := Count.toNat_sum_le_toNat_sum (h.imp fun _ _ => AtMost.comments_le)

theorem sameLines_total {ms ms' : List Measure} (h : List.Forall₂ SameLines ms ms') (root : Path) :
    (total root ms).SameLines (total root ms') where
  root_eq := rfl
  lines_eq := by
    have hlines : ms.map Measure.lines = ms'.map Measure.lines := by
      induction h with
      | nil => rfl
      | cons hm _ ih => rw [List.map_cons, List.map_cons, hm.lines_eq, ih]
    exact congrArg Count.sum hlines

end Measure

/-! ## The files that stand for a directory -/

namespace Aggregation

theorem standing_sublist (aggregation : Aggregation) (files : List Bytes) :
    (aggregation.standing files).Sublist files := by
  cases aggregation with
  | sum => exact List.Sublist.refl files
  | lastFile =>
    rw [standing]
    cases hlast : files.getLast? with
    | none => exact List.nil_sublist files
    | some name => exact List.singleton_sublist.mpr (List.mem_of_getLast? hlast)

/-- A single file stands for its directory under every aggregation. -/
theorem standing_of_length_le_one (aggregation : Aggregation) {files : List Bytes}
    (h : files.length ≤ 1) : aggregation.standing files = files := by
  match files with
  | [] => cases aggregation <;> rfl
  | [name] => cases aggregation <;> rfl
  | first :: second :: rest => simp at h

theorem sum_standing_le (aggregation : Aggregation) (files : List Bytes) (number : Bytes → Nat) :
    ((aggregation.standing files).map number).sum ≤ (files.map number).sum :=
  ((standing_sublist aggregation files).map number).sum_le_sum fun _ _ => Nat.zero_le _

end Aggregation

/-! ## Walks that go alike -/

/-- Both fail, and with the same failure, or both succeed, with results in
relation. -/
inductive EndsAlike {α β : Type} (R : α → β → Prop) :
    Except Failure α → Except Failure β → Prop where
  | failed (failure : Failure) : EndsAlike R (.error failure) (.error failure)
  | succeeded {a : α} {b : β} : R a b → EndsAlike R (.ok a) (.ok b)

theorem EndsAlike.map {α β α' β' : Type} {R : α → β → Prop} {R' : α' → β' → Prop}
    {x : Except Failure α} {y : Except Failure β} (h : EndsAlike R x y) {f : α → α'} {g : β → β'}
    (hfg : ∀ a b, R a b → R' (f a) (g b)) : EndsAlike R' (x.map f) (y.map g) := by
  cases h with
  | failed failure => exact .failed failure
  | succeeded hab => exact .succeeded (hfg _ _ hab)

/-- The line with nothing found. -/
def Line.withoutNumbers : Line → Line
  | .heading depth name => .heading depth name
  | .file depth name => .file depth name
  | .directory found => .directory (.empty found.root)
  | .summary label found => .summary label (.empty found.root)

namespace Survey

/-- The survey that picks the same files and shows the same, but counts
comments of this style and aggregates like this. -/
def counting (s : Survey) (style : Style) (aggregation : Aggregation) : Survey :=
  { s with style, aggregation }

/-- Where nothing hinders their reports, the walks of two surveys make the
same visits, in the same order, and write the same blocks but for the
numbers.  What they find is in relation for every directory visited, and so
are their results if they succeed; they fail alike. -/
structure WalksAlike (R : Measure → Measure → Prop) (s s' : Survey) (t : FileTree) (start : Path) :
    Prop where
  visited_eq : s.visited t start = s'.visited t start
  found : ∀ v ∈ s.visited t start, R (s.found t v.directory) (s'.found t v.directory)
  endsAlike : EndsAlike
    (fun ms ms' => ms.map (·.root) = (s.visited t start).map (·.directory) ∧ List.Forall₂ R ms ms')
    ((s.traverse t start).writeTo .unlimited).1 ((s'.traverse t start).writeTo .unlimited).1
  written : ((s.traverse t start).writeTo .unlimited).2 = s.blockBytes t (s.visited t start)
  written' : ((s'.traverse t start).writeTo .unlimited).2 = s'.blockBytes t (s'.visited t start)
  blocks_eq : ∀ v ∈ s.visited t start,
    (s.block t v).map Line.withoutNumbers = (s'.block t v).map Line.withoutNumbers

variable {s : Survey} {t : FileTree} {start : Path} {style style' : Style}
  {aggregation aggregation' : Aggregation} {R : Measure → Measure → Prop}

theorem map_withoutNumbers_block (v : Visit) :
    ((s.counting style aggregation).block t v).map Line.withoutNumbers =
      (s.block t v).map Line.withoutNumbers := by
  have hfiles : (s.counting style aggregation).files t v.directory = s.files t v.directory := rfl
  have htree : (s.counting style aggregation).showTree = s.showTree := rfl
  rw [block, block, hfiles, htree]
  cases (s.files t v.directory).isEmpty with
  | true => rfl
  | false =>
    rw [if_neg Bool.false_ne_true, if_neg Bool.false_ne_true, List.map_append, List.map_append,
      List.map_singleton, List.map_singleton, Line.withoutNumbers, Line.withoutNumbers, root_found,
      root_found]

/-- Surveys that differ in what they count walk alike; it is enough to compare
what they find in one directory. -/
theorem walksAlike_counting
    (h : ∀ d, R ((s.counting style aggregation).found t d)
      ((s.counting style' aggregation').found t d)) (start : Path) :
    WalksAlike R (s.counting style aggregation) (s.counting style' aggregation') t start := by
  have hhidden : (s.counting style aggregation).skipHidden =
      (s.counting style' aggregation').skipHidden := rfl
  have hvisited := visited_congr hhidden t start
  have hfailure := failure?_congr hhidden t start
  exact {
    visited_eq := hvisited
    found := fun v _ => h v.directory
    endsAlike := by
      rw [writeTo_traverse, writeTo_traverse, outcome, outcome, ← hvisited, ← hfailure]
      cases (s.counting style aggregation).failure? t start with
      | some failure => exact .failed failure
      | none =>
        refine .succeeded ⟨?_, ?_⟩
        · rw [List.map_map]
          exact List.map_congr_left fun v _ => root_found _ t v.directory
        · rw [List.forall₂_map_left_iff, List.forall₂_map_right_iff]
          exact List.forall₂_same.mpr fun v _ => h v.directory
    written := congrArg Prod.snd (writeTo_traverse ..)
    written' := congrArg Prod.snd (writeTo_traverse ..)
    blocks_eq := fun v _ => by rw [map_withoutNumbers_block, map_withoutNumbers_block] }

/-- Totals of walks that go alike are in relation, if totals of results in
relation are. -/
theorem WalksAlike.scan {s s' : Survey} (h : WalksAlike R s s' t start)
    (htotal : ∀ ms ms', List.Forall₂ R ms ms' → R (.total start ms) (.total start ms')) :
    EndsAlike R ((s.scan t start).writeTo .unlimited).1 ((s'.scan t start).writeTo .unlimited).1 := by
  rw [fst_writeTo_scan, fst_writeTo_scan]
  exact h.endsAlike.map fun ms ms' hms => htotal ms ms' hms.2

/-! ## What is found in a directory -/

/-- What is found is held by the files that stand for the directory. -/
theorem holds_found_counting (s : Survey) (t : FileTree) (style : Style) (aggregation : Aggregation)
    (d : Path) :
    ((s.counting style aggregation).found t d).Holds
      ((aggregation.standing (s.files t d)).map fun name => t.lineCount (d.join name)).sum
      ((aggregation.standing (s.files t d)).map fun name =>
        t.commentCount style (d.join name)).sum :=
  t.holds_measureDirectory style aggregation d (s.files t d)

/-- The sum is the most that an aggregation can make of a directory. -/
theorem atMost_found (d : Path) :
    ((s.counting style aggregation).found t d).AtMost ((s.counting style .sum).found t d) :=
  (holds_found_counting s t style aggregation d).atMost (holds_found_counting s t style .sum d)
    (by rw [root_found, root_found]) (aggregation.sum_standing_le _ _)
    (aggregation.sum_standing_le _ _)

/-- What is found of a single file is the same under every aggregation. -/
theorem found_eq_of_length_le_one {d : Path} (h : (s.files t d).length ≤ 1) :
    (s.counting style aggregation).found t d = (s.counting style aggregation').found t d := by
  have hfound := holds_found_counting s t style aggregation d
  have hfound' := holds_found_counting s t style aggregation' d
  rw [Aggregation.standing_of_length_le_one _ h] at hfound hfound'
  exact hfound.eq hfound' (by rw [root_found, root_found])

theorem sameLines_found (d : Path) :
    ((s.counting style aggregation).found t d).SameLines
      ((s.counting style' aggregation).found t d) :=
  (holds_found_counting s t style aggregation d).sameLines
    (holds_found_counting s t style' aggregation d) (by rw [root_found, root_found])

/-! ## The two comparisons -/

/-- Where nothing hinders their reports, a walk in which the last file stands
for its directory and one that sums the files make the same visits, fail or
succeed alike and write the same blocks but for the numbers.  In every
directory the last file has at most the lines and the comments of the sum,
and the same where at most one file is picked; so it is with the totals of
the scans, in lines and in comments.

Likewise the style of comments makes no difference to visits and lines. -/
theorem lastFile_atMost_sum (s : Survey) (t : FileTree) (start : Path) :
    (∀ style,
      WalksAlike (fun m m' => m.AtMost m' ∧ ((s.files t m.root).length ≤ 1 → m = m'))
        (s.counting style .lastFile) (s.counting style .sum) t start ∧
      EndsAlike Measure.AtMost
        (((s.counting style .lastFile).scan t start).writeTo .unlimited).1
        (((s.counting style .sum).scan t start).writeTo .unlimited).1) ∧
    ∀ aggregation style style',
      WalksAlike Measure.SameLines
        (s.counting style aggregation) (s.counting style' aggregation) t start ∧
      EndsAlike Measure.SameLines
        (((s.counting style aggregation).scan t start).writeTo .unlimited).1
        (((s.counting style' aggregation).scan t start).writeTo .unlimited).1 := by
  constructor
  · intro style
    have hfound : ∀ d, ((s.counting style .lastFile).found t d).AtMost
          ((s.counting style .sum).found t d) ∧
        ((s.files t ((s.counting style .lastFile).found t d).root).length ≤ 1 →
          (s.counting style .lastFile).found t d = (s.counting style .sum).found t d) := by
      intro d
      rw [root_found]
      exact ⟨atMost_found d, found_eq_of_length_le_one⟩
    exact ⟨walksAlike_counting hfound start,
      (walksAlike_counting atMost_found start).scan fun ms ms' h => Measure.atMost_total h start⟩
  · intro aggregation style style'
    have hwalks : WalksAlike Measure.SameLines (s.counting style aggregation)
        (s.counting style' aggregation) t start := walksAlike_counting sameLines_found start
    exact ⟨hwalks, hwalks.scan fun ms ms' h => Measure.sameLines_total h start⟩

/-- Of two files, the last can have less. -/
example :
    (counting ⟨"", [], .csharp, .sum, true, false⟩ .csharp .lastFile).found sourceTree
        (.ofString "/") = ⟨.ofNat 1, .ofNat 1, .ofString "/"⟩ ∧
      (counting ⟨"", [], .csharp, .sum, true, false⟩ .csharp .sum).found sourceTree
        (.ofString "/") = ⟨.ofNat 4, .ofNat 3, .ofString "/"⟩ := ⟨rfl, rfl⟩

end Survey

end CommentDensity
