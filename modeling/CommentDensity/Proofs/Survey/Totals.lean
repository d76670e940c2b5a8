import CommentDensity.Proofs.Measure
import CommentDensity.Proofs.Survey.Coverage
import Mathlib

/-!
# CommentDensity.Proofs.Survey.Totals

What a scan adds up.

`IsSelected` says which entries of a directory are files to be counted, and
`Counts` which of those stand for the directory.  The total of a scan is the
sum over the files that stand for the directories it has to visit, each
taken once, however the sums on the way there were held at the limit.
-/

namespace CommentDensity.Survey

variable {s : Survey} {t : FileTree}

/-! ## The files that are counted -/

/-- The entry `name` of a directory is a file that is counted. -/
structure IsSelected (s : Survey) (t : FileTree) (directory : Path) (name : Bytes) : Prop where
  listed : ∃ entries node, t.list directory = .ok entries ∧ (name, node) ∈ entries
  not_directory : t.isDirectory (directory.join name) = false
  shown : s.skipHidden = true → name.head? ≠ some Path.dot
  ends : Bytes.ofString s.extension <:+ name
  not_excluded : ∀ excluded ∈ s.exclude, Bytes.ofString excluded ≠ name

/-- No file that is counted is listed behind `name`, which is counted. -/
def IsLastSelected (s : Survey) (t : FileTree) (directory : Path) (name : Bytes) : Prop :=
  s.IsSelected t directory name ∧ ∃ before node after,
    t.list directory = .ok (before ++ (name, node) :: after) ∧
      ∀ e ∈ after, ¬ s.IsSelected t directory e.1

/-- The file `name` is one of those that stand for a directory. -/
def Counts (s : Survey) (t : FileTree) (directory : Path) (name : Bytes) : Prop :=
  match s.aggregation with
  | .sum => s.IsSelected t directory name
  | .lastFile => s.IsLastSelected t directory name

theorem selects_iff {directory : Path} {name : Bytes} :
    s.selects t directory name = true ↔
      t.isDirectory (directory.join name) = false ∧
        (s.skipHidden = true → name.head? ≠ some Path.dot) ∧
        Bytes.ofString s.extension <:+ name ∧
        ∀ excluded ∈ s.exclude, Bytes.ofString excluded ≠ name := by
  simp [selects, hides, isMatchingName, Bytes.isHidden, and_assoc, or_iff_not_imp_left]

theorem isSelected_iff {directory : Path} {entries : List (Bytes × Node)} {name : Bytes}
    (hlist : t.list directory = .ok entries) :
    s.IsSelected t directory name ↔
      name ∈ entries.map (·.1) ∧ s.selects t directory name = true := by
  rw [selects_iff]
  constructor
  · rintro ⟨⟨listed, node, hlisted, hmem⟩, hdir, hshown, hends, hexcluded⟩
    rw [hlist] at hlisted
    cases hlisted
    exact ⟨List.mem_map.mpr ⟨_, hmem, rfl⟩, hdir, hshown, hends, hexcluded⟩
  · rintro ⟨hmem, hdir, hshown, hends, hexcluded⟩
    obtain ⟨⟨_, node⟩, hentry, rfl⟩ := List.mem_map.mp hmem
    exact ⟨⟨entries, node, hlist, hentry⟩, hdir, hshown, hends, hexcluded⟩

theorem mem_files_iff {directory : Path} {name : Bytes} :
    name ∈ s.files t directory ↔ s.IsSelected t directory name := by
  rw [files]
  cases hlist : t.list directory with
  | error e =>
    have hno : ¬ s.IsSelected t directory name := by
      rintro ⟨⟨_, _, hlisted, _⟩, _⟩
      rw [hlist] at hlisted
      cases hlisted
    exact iff_of_false List.not_mem_nil hno
  | ok entries =>
    rw [isSelected_iff hlist]
    exact List.mem_filter

/-- The last element with a property, searched from the end. -/
theorem find?_reverse_eq_some_iff {α : Type} {as : List α} {p : α → Bool} {a : α} :
    as.reverse.find? p = some a ↔
      p a = true ∧ ∃ before after, as = before ++ a :: after ∧ ∀ b ∈ after, ¬ p b = true := by
  rw [List.find?_eq_some_iff_append]
  constructor
  · rintro ⟨ha, before, after, has, hno⟩
    refine ⟨ha, after.reverse, before.reverse, ?_, fun b hb => ?_⟩
    · rw [← List.reverse_reverse as, has]
      simp
    · simpa using hno b (List.mem_reverse.mp hb)
  · rintro ⟨ha, before, after, rfl, hno⟩
    refine ⟨ha, after.reverse, before.reverse, by simp, fun b hb => ?_⟩
    simpa using hno b (List.mem_reverse.mp hb)

theorem getLast?_files_eq_some_iff {directory : Path} {name : Bytes} :
    (s.files t directory).getLast? = some name ↔ s.IsLastSelected t directory name := by
  rw [files, IsLastSelected]
  cases hlist : t.list directory with
  | error e => simp
  | ok entries =>
    have hselected : ∀ e ∈ entries,
        (s.IsSelected t directory e.1 ↔ s.selects t directory e.1 = true) := fun e he => by
      rw [isSelected_iff hlist]
      exact and_iff_right (List.mem_map_of_mem he)
    show (s.selected t directory entries).getLast? = some name ↔ _
    rw [selected, List.filter_map, List.getLast?_map, List.getLast?_filter, Option.map_eq_some_iff]
    constructor
    · rintro ⟨⟨_, node⟩, hfound, rfl⟩
      obtain ⟨hselects, before, after, rfl, hlast⟩ := find?_reverse_eq_some_iff.mp hfound
      refine ⟨(hselected _ (by simp)).mpr hselects, before, node, after, rfl, fun e he hsel => ?_⟩
      exact hlast e he ((hselected e (by simp [he])).mp hsel)
    · rintro ⟨hsel, before, node, after, heq, hlast⟩
      cases heq
      refine ⟨(name, node), find?_reverse_eq_some_iff.mpr ⟨?_, before, after, rfl, ?_⟩, rfl⟩
      · exact (hselected (name, node) (by simp)).mp hsel
      · exact fun e he hs => hlast e he ((hselected e (by simp [he])).mpr hs)

/-- The files that stand for a directory. -/
theorem mem_standing_files_iff {directory : Path} {name : Bytes} :
    name ∈ s.aggregation.standing (s.files t directory) ↔ s.Counts t directory name := by
  unfold Counts Aggregation.standing
  cases s.aggregation with
  | sum => exact mem_files_iff
  | lastFile =>
    rw [Option.mem_toList]
    exact getLast?_files_eq_some_iff

/-! ## Each file once -/

/-- The files that stand for the directories of a walk, with their
directories, in the order of the walk. -/
def counted (s : Survey) (t : FileTree) (start : Path) : List (Path × Bytes) :=
  (s.walkOrder t start).flatMap fun d =>
    (s.aggregation.standing (s.files t d)).map fun name => (d, name)

theorem mem_counted_iff {start directory : Path} {name : Bytes} :
    (directory, name) ∈ s.counted t start ↔
      directory ∈ s.walkOrder t start ∧ s.Counts t directory name := by
  rw [counted, List.mem_flatMap]
  constructor
  · rintro ⟨d, hd, hmem⟩
    obtain ⟨n, hn, heq⟩ := List.mem_map.mp hmem
    cases heq
    exact ⟨hd, mem_standing_files_iff.mp hn⟩
  · rintro ⟨hd, hcounts⟩
    exact ⟨directory, hd, List.mem_map.mpr ⟨name, mem_standing_files_iff.mpr hcounts, rfl⟩⟩

theorem nodup_files (ht : t.WellFormed) (directory : Path) : (s.files t directory).Nodup := by
  rw [files]
  cases hlist : t.list directory with
  | error e => exact List.nodup_nil
  | ok entries => exact (ht.list hlist).1.filter _

theorem nodup_standing (aggregation : Aggregation) {files : List Bytes} (h : files.Nodup) :
    (aggregation.standing files).Nodup := by
  cases aggregation with
  | sum => exact h
  | lastFile =>
    rw [Aggregation.standing]
    cases files.getLast? with
    | none => exact List.nodup_nil
    | some name => exact List.nodup_singleton name

theorem nodup_counted (ht : t.WellFormed) (start : Path) : (s.counted t start).Nodup := by
  rw [counted, List.nodup_flatMap]
  constructor
  · intro d _
    exact (nodup_standing s.aggregation (nodup_files ht d)).map fun n n' h => (Prod.mk.inj h).2
  · -- the files of different directories differ in the directory
    refine (nodup_walkOrder ht start).imp fun {d d'} hne => ?_
    intro f hf hf'
    obtain ⟨_, _, rfl⟩ := List.mem_map.mp hf
    obtain ⟨_, _, heq⟩ := List.mem_map.mp hf'
    exact hne (Prod.mk.inj heq).1.symm

/-! ## The total -/

/-- A number of the files of a walk, added up directory by directory. -/
theorem sum_counted (ht : t.WellFormed) (start : Path) (number : Path → Nat) :
    ((s.walkOrder t start).map fun d =>
      ((s.aggregation.standing (s.files t d)).map fun name => number (d.join name)).sum).sum =
      ∑ f ∈ (s.counted t start).toFinset, number (f.1.join f.2) := by
  rw [List.sum_toFinset _ (nodup_counted ht start), counted, List.map_flatMap, List.flatMap_def,
    List.sum_flatten, List.map_map]
  congr 1
  refine List.map_congr_left fun d _ => ?_
  rw [Function.comp_apply, List.map_map]
  rfl

/-- The total of a scan: the files that stand for the directories it has to
visit, each of them once, and held at the limit in the end only. -/
theorem scan_eq_ok (ht : t.WellFormed) {start : Path} {m : Measure} {sink : Sink}
    {written : Bytes} (h : (s.scan t start).writeTo sink = (.ok m, written)) :
    m.root = start ∧ ∃ files : Finset (Path × Bytes),
      (∀ d name, (d, name) ∈ files ↔ s.Reaches t start d ∧ s.Counts t d name) ∧
      m.lines.toNat = min (∑ f ∈ files, t.lineCount (f.1.join f.2)) Count.limit ∧
      m.comments.toNat = min (∑ f ∈ files, t.commentCount s.style (f.1.join f.2)) Count.limit ∧
      m.ratio =
        if ∑ f ∈ files, t.lineCount (f.1.join f.2) = 0 then .zero
        else (Binary64.ofNat
            (min (∑ f ∈ files, t.commentCount s.style (f.1.join f.2)) Count.limit)).div
          (Binary64.ofNat (min (∑ f ∈ files, t.lineCount (f.1.join f.2)) Count.limit)) := by
  obtain ⟨after, hrun, _⟩ := Report.writeTo_eq_ok.mp h
  obtain ⟨ms, _, htraverse, hm⟩ := Report.bind_eq_ok.mp hrun
  cases hm
  obtain ⟨hmeasured, ⟨node, hentry⟩, hstart⟩ := traverse_eq_ok htraverse
  have hfound : ∀ d, (s.found t d).Holds _ _ :=
    fun d => t.holds_measureDirectory s.style s.aggregation d (s.files t d)
  have htotal := Measure.holds_total (s.walkOrder t start) hfound start
  rw [sum_counted ht start t.lineCount, sum_counted ht start (t.commentCount s.style),
    ← hmeasured.eq_map] at htotal
  refine ⟨rfl, (s.counted t start).toFinset, fun d name => ?_, htotal.lines_eq,
    htotal.comments_eq, htotal.ratio_eq⟩
  rw [List.mem_toFinset, mem_counted_iff,
    mem_walkOrder_iff ht hentry hstart hmeasured.listed]

/-- A directory with two sources, one of them in a directory below, and a
file of another kind. -/
def sourceTree : FileTree where
  root := .directory .all
    [(Bytes.ofString "a.cs", .file .all "//\n//\nx".toUTF8),
      (Bytes.ofString "b.txt", .file .all "//\n".toUTF8),
      (Bytes.ofString "in", .directory .all
        [(Bytes.ofString "c.cs", .file .all "/*a*/\r\n".toUTF8)])]
  workingDirectory := []

/-- Four lines with three comments. -/
theorem scan_eq_ok_sourceTree :
    sourceTree.WellFormed ∧ ∃ files : Finset (Path × Bytes),
      (∀ d name, (d, name) ∈ files ↔
        Reaches ⟨".cs", [], .csharp, .sum, true, false⟩ sourceTree (.ofString "/") d ∧
          Counts ⟨".cs", [], .csharp, .sum, true, false⟩ sourceTree d name) ∧
      4 = min (∑ f ∈ files, sourceTree.lineCount (f.1.join f.2)) Count.limit ∧
      3 = min (∑ f ∈ files, sourceTree.commentCount .csharp (f.1.join f.2)) Count.limit := by
  have hwf : sourceTree.WellFormed := by decide
  have hrun : (scan ⟨".cs", [], .csharp, .sum, true, false⟩ sourceTree
      (.ofString "/")).writeTo .unlimited =
        (.ok ⟨.ofNat 4, .ofNat 3, .ofString "/"⟩, Bytes.ofString
          "/ comments:2 lines:3 ratio:0.67\n/in comments:1 lines:1 ratio:1.00\n") := by
    rw [scan, traverse_eq]
    rfl
  obtain ⟨_, files, hfiles, hlines, hcomments, _⟩ := scan_eq_ok hwf hrun
  exact ⟨hwf, files, hfiles, hlines, hcomments⟩

end CommentDensity.Survey
