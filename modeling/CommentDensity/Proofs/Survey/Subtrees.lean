import CommentDensity.Proofs.Survey.Completion

/-!
# CommentDensity.Proofs.Survey.Subtrees

A walk as the walks of the directories in its start.

A walk from a directory visits the directory itself and then makes the visits
of the walks from each of the directories in it (`visitsIn_eq_flatMap`).  Such
a walk of its own looks the directory up as a start, where no link is followed
at the end, and meets the same node (`itinerary_join`); only the depths of its
visits are less by one, and those show in a tree alone (`block_eq_of_plain`).

So what the whole walk finds and writes is what these walks find and write,
one after the other, and its total is the sum of theirs
(`traverse_eq_subtrees`).
-/

namespace CommentDensity

/-- Sums of parts can be held at the limit before they are summed. -/
theorem Count.toNat_sum_flatten (c : Count) (parts : List (List Count)) :
    (Count.sum (c :: parts.flatten)).toNat =
      min (c.toNat + (parts.map fun cs => (Count.sum cs).toNat).sum) limit := by
  have hheld : (parts.map fun cs => (Count.sum cs).toNat) =
      (parts.map exactSum).map (min · limit) := by
    rw [List.map_map]
    exact List.map_congr_left fun cs _ => toNat_sum cs
  have hexact : exactSum parts.flatten = (parts.map exactSum).sum := by
    induction parts with
    | nil => rfl
    | cons cs parts ih => simp_all [exactSum_eq_sum]
  have hsum := min_sum_map_min (parts.map exactSum) limit
  rw [toNat_sum, exactSum_cons, hexact, hheld]
  omega

namespace Survey

variable {s : Survey} {t : FileTree} {start : Path} {permission : Permission}
  {entries : List (Bytes × Node)}

/-! ## The directories in a directory -/

/-- The entries of a directory in which the walk goes on: those that are
themselves directories and are not left out for their name. -/
def entered (s : Survey) (entries : List (Bytes × Node)) : List (Bytes × Node) :=
  entries.filter fun e => e.2.isDirectory && !s.hides e.1

/-- The paths of these entries, in listing order. -/
def childPaths (s : Survey) (directory : Path) (entries : List (Bytes × Node)) : List Path :=
  (s.entered entries).map fun e => directory.join e.1

theorem visitsIn_eq_flatMap (path : Path) (depth : Nat) (entries : List (Bytes × Node)) :
    s.visitsIn path depth entries =
      (s.entered entries).flatMap fun e => s.visits (path.join e.1) depth e.2 := by
  induction entries with
  | nil => rw [visitsIn]; rfl
  | cons e rest ih =>
    obtain ⟨name, node⟩ := e
    rw [visitsIn, ih]
    cases hh : s.hides name with
    | true => simp [entered, hh]
    | false => cases node <;> simp [entered, hh, Node.isDirectory, visits]

/-- What a walk finds and writes in one of the directories in its start. -/
def part (s : Survey) (t : FileTree) (start : Path) (e : Bytes × Node) : List Measure × Bytes :=
  let vs := s.visits (start.join e.1) 1 e.2
  (vs.map fun v => s.found t v.directory, s.blockBytes t vs)

/-- A directory in the start is the start of a walk of its own, unless it
cannot even be looked up. -/
theorem itinerary_join (ht : t.WellFormed)
    (hstart : t.target start = .ok (.directory permission entries)) {e : Bytes × Node}
    (he : e ∈ s.entered entries) :
    (∃ failure, t.list (start.join e.1) = .error failure ∧
      s.itinerary t (start.join e.1) = .error failure) ∨
    s.itinerary t (start.join e.1) = .ok (s.visits (start.join e.1) 0 e.2) := by
  obtain ⟨name, node⟩ := e
  obtain ⟨hmem, henters⟩ := List.mem_filter.mp he
  have hdir : node.isDirectory = true := by simp_all
  have hlink : node.isLink = false := by cases node <;> simp_all [Node.isDirectory, Node.isLink]
  have hwf := ht.target hstart
  have hname := hwf.isEntryName hmem
  have hfound := lookup_of_mem hwf.nodup hmem
  have hentry := FileTree.entry_join hstart hname hfound hlink
  cases htarget : t.target (start.join name) with
  | error failure =>
    exact .inl ⟨failure, FileTree.list_of_target_error htarget,
      itinerary_of_entry_error (hentry.trans htarget)⟩
  | ok other =>
    obtain rfl := FileTree.target_join hstart hname hfound hlink htarget
    exact .inr (itinerary_of_entry (hentry.trans htarget) hlink)

/-! ## Reports without a tree -/

/-- Without a tree the depth of a visit does not show. -/
theorem block_eq_of_plain (hplain : s.showTree = false) (v : Visit) (depth : Nat) :
    s.block t v = s.block t ⟨v.directory, depth⟩ := by
  simp [block, hplain]

/-- Visits to the same directories write the same. -/
theorem blockBytes_eq_of_plain (hplain : s.showTree = false) (path : Path) (depth depth' : Nat)
    (node : Node) : s.blockBytes t (s.visits path depth node) =
      s.blockBytes t (s.visits path depth' node) := by
  have hdirectories : ∀ vs : List Visit, s.blockBytes t vs =
      ((vs.map (·.directory)).flatMap fun d => s.block t ⟨d, 0⟩).flatMap Line.bytes := by
    intro vs
    rw [blockBytes, List.flatMap_map]
    exact congrArg (List.flatMap Line.bytes)
      (List.flatMap_congr fun v _ => block_eq_of_plain hplain v 0)
  rw [hdirectories, hdirectories, map_directory_visits, map_directory_visits]

/-- A directory alone, reported to a sink that takes everything. -/
theorem writeTo_reportDirectory (hplain : s.showTree = false) (d : Path) (depth : Nat) :
    (t.reportDirectory s.style s.aggregation d (s.files t d)).writeTo .unlimited =
      (.ok (s.found t d), s.blockBytes t [⟨d, depth⟩]) := by
  have hplay : t.reportDirectory s.style s.aggregation d (s.files t d) =
      Script.play ⟨(s.block t ⟨d, depth⟩).map fun l => (l, .output), .ok (s.found t d)⟩ := by
    rw [FileTree.reportDirectory, block, ← found]
    cases (s.files t d).isEmpty with
    | true => simp [Script.play, Script.tell, Report.ofExcept_ok]
    | false => simp [Script.play, Script.tell, Script.within_line, Report.ofExcept_ok, hplain]
  have hblock := flatten_writes_blocks (s := s) (t := t) [⟨d, depth⟩]
  rw [List.flatMap_singleton] at hblock
  rw [hplay, Script.writeTo_play_unlimited, hblock]

/-! ## Walks from the directories in the start -/

section Children

variable (ht : t.WellFormed) (hstart : t.target start = .ok (.directory permission entries))
include ht hstart

/-- A walk from a directory in the start completes if all that the walk from
the start visits there can be listed. -/
theorem completes_join_iff {e : Bytes × Node} (he : e ∈ s.entered entries) (depth : Nat) :
    s.Completes t (start.join e.1) ↔
      ∀ v ∈ s.visits (start.join e.1) depth e.2, ∃ listed, t.list v.directory = .ok listed := by
  have hdirectories : ∀ depth, (∀ v ∈ s.visits (start.join e.1) depth e.2,
      ∃ listed, t.list v.directory = .ok listed) ↔
      ∀ d ∈ s.directories (start.join e.1) e.2, ∃ listed, t.list d = .ok listed := by
    intro depth
    rw [← map_directory_visits e.2 (start.join e.1) depth, List.forall_mem_map]
  have hself : start.join e.1 ∈ s.directories (start.join e.1) e.2 := by
    obtain ⟨_, henters⟩ := List.mem_filter.mp he
    obtain ⟨name, node⟩ := e
    cases node <;> simp_all [Node.isDirectory, directories]
  rw [completes_iff, hdirectories depth]
  obtain ⟨failure, hlist, hitinerary⟩ | hitinerary := itinerary_join ht hstart he
  · rw [hitinerary]
    refine iff_of_false (by simp) fun hall => ?_
    obtain ⟨listed, hlisted⟩ := hall _ hself
    rw [hlist] at hlisted
    cases hlisted
  · rw [hitinerary, ← hdirectories 0]
    simp

/-- What such a walk finds and writes is a part of what the whole walk does. -/
theorem writeTo_traverse_join (hplain : s.showTree = false) {e : Bytes × Node}
    (he : e ∈ s.entered entries) (hcompletes : s.Completes t (start.join e.1)) :
    (s.traverse t (start.join e.1)).writeTo .unlimited =
      (.ok (s.part t start e).1, (s.part t start e).2) := by
  have hfound : ∀ depth, (s.visits (start.join e.1) depth e.2).map (fun v => s.found t v.directory) =
      (s.directories (start.join e.1) e.2).map (s.found t) := by
    intro depth
    rw [← map_directory_visits e.2 (start.join e.1) depth, List.map_map]
    rfl
  obtain ⟨_, hvs, hlisted⟩ := completes_iff.mp hcompletes
  obtain ⟨failure, _, hitinerary⟩ | hitinerary := itinerary_join ht hstart he
  · rw [hitinerary] at hvs
    cases hvs
  · rw [hitinerary] at hvs
    cases hvs
    rw [writeTo_traverse_of_listed hitinerary hlisted, hfound 0, ← hfound 1,
      blockBytes_eq_of_plain hplain _ 0 1, part]

end Children

/-! ## The whole walk -/

/-- The visits of a walk from a directory. -/
theorem itinerary_of_directory (hstart : t.entry start = .ok (.directory permission entries)) :
    s.itinerary t start =
      .ok (⟨start, 0⟩ :: (s.entered entries).flatMap fun e => s.visits (start.join e.1) 1 e.2) := by
  rw [itinerary_of_entry hstart rfl, visits, visitsIn_eq_flatMap]

theorem map_found_visits (es : List (Bytes × Node)) :
    ((⟨start, 0⟩ :: es.flatMap fun e => s.visits (start.join e.1) 1 e.2).map fun v =>
      s.found t v.directory) = s.found t start :: es.flatMap fun e => (s.part t start e).1 := by
  rw [List.map_cons, List.map_flatMap]
  rfl

theorem blockBytes_visits (es : List (Bytes × Node)) :
    s.blockBytes t (⟨start, 0⟩ :: es.flatMap fun e => s.visits (start.join e.1) 1 e.2) =
      s.blockBytes t [⟨start, 0⟩] ++ es.flatMap fun e => (s.part t start e).2 := by
  simp only [blockBytes, part, List.flatMap_cons, List.flatMap_assoc, List.flatMap_nil,
    List.append_nil, List.flatMap_append]

/-- The total of a directory's own numbers and of parts is the sum of the
parts' totals. -/
theorem toNat_total_parts {α : Type} (start : Path) (own : Measure) (as : List α) (root : α → Path)
    (results : α → List Measure) :
    (Measure.total start (own :: as.flatMap results)).lines.toNat =
      min (own.lines.toNat + ((as.map fun a =>
        Measure.total (root a) (results a)).map (·.lines.toNat)).sum) Count.limit ∧
    (Measure.total start (own :: as.flatMap results)).comments.toNat =
      min (own.comments.toNat + ((as.map fun a =>
        Measure.total (root a) (results a)).map (·.comments.toNat)).sum) Count.limit := by
  have hcounts : ∀ f : Measure → Count,
      (Count.sum ((own :: as.flatMap results).map f)).toNat =
        min ((f own).toNat +
          (as.map fun a => (Count.sum ((results a).map f)).toNat).sum) Count.limit := by
    intro f
    have hparts := Count.toNat_sum_flatten (f own) (as.map fun a => (results a).map f)
    rwa [← List.flatMap_def, ← List.map_flatMap, ← List.map_cons, List.map_map] at hparts
  rw [List.map_map, List.map_map]
  exact ⟨hcounts Measure.lines, hcounts Measure.comments⟩

/-- A walk from a directory, without a tree and to a sink that takes
everything, completes exactly if the directory can be listed and the walks
from the directories in it complete.  Then it finds what is found in the
directory itself and what these walks find, and writes what they write; its
total is that of the directory's numbers and their totals, held at the limit
in the end. -/
theorem traverse_eq_subtrees (ht : t.WellFormed) (hplain : s.showTree = false)
    (hstart : t.entry start = .ok (.directory permission entries)) :
    (s.Completes t start ↔ (∃ listed, t.list start = .ok listed) ∧
      ∀ c ∈ s.childPaths start entries, s.Completes t c) ∧
    (s.Completes t start →
      ∃ own ownOut, ∃ parts : List (List Measure × Bytes), ∃ totals : List Measure, ∃ m,
        (t.reportDirectory s.style s.aggregation start (s.files t start)).writeTo .unlimited =
          (.ok own, ownOut) ∧
        List.Forall₂ (fun c part => (s.traverse t c).writeTo .unlimited = (.ok part.1, part.2))
          (s.childPaths start entries) parts ∧
        (s.traverse t start).writeTo .unlimited =
          (.ok (own :: parts.flatMap (·.1)), ownOut ++ parts.flatMap (·.2)) ∧
        List.Forall₂ (fun c total => ((s.scan t c).writeTo .unlimited).1 = .ok total)
          (s.childPaths start entries) totals ∧
        ((s.scan t start).writeTo .unlimited).1 = .ok m ∧
        m.lines.toNat =
          min (own.lines.toNat + (totals.map (·.lines.toNat)).sum) Count.limit ∧
        m.comments.toNat =
          min (own.comments.toNat + (totals.map (·.comments.toNat)).sum) Count.limit) := by
  have htarget := FileTree.target_of_entry hstart rfl
  have hvisits := itinerary_of_directory (s := s) hstart
  have hcompletes : s.Completes t start ↔ (∃ listed, t.list start = .ok listed) ∧
      ∀ c ∈ s.childPaths start entries, s.Completes t c := by
    have hchildren : (∀ e ∈ s.entered entries, s.Completes t (start.join e.1)) ↔
        ∀ e ∈ s.entered entries, ∀ v ∈ s.visits (start.join e.1) 1 e.2,
          ∃ listed, t.list v.directory = .ok listed :=
      forall₂_congr fun e he => completes_join_iff ht htarget he 1
    rw [childPaths, List.forall_mem_map, hchildren, completes_iff, hvisits]
    simp only [Except.ok.injEq, exists_eq_left', List.forall_mem_cons, List.mem_flatMap]
    exact and_congr_right fun _ =>
      ⟨fun h e he v hv => h v ⟨e, he, hv⟩, fun h v ⟨e, he, hv⟩ => h e he v hv⟩
  refine ⟨hcompletes, fun hall => ?_⟩
  obtain ⟨vs, hvs, hlisted⟩ := completes_iff.mp hall
  obtain rfl : _ = vs := Except.ok.inj (hvisits.symm.trans hvs)
  have hchild : ∀ e ∈ s.entered entries, (s.traverse t (start.join e.1)).writeTo .unlimited =
      (.ok (s.part t start e).1, (s.part t start e).2) := fun e he =>
    writeTo_traverse_join ht htarget hplain he
      ((hcompletes.mp hall).2 _ (List.mem_map_of_mem he))
  have hrun := writeTo_traverse_of_listed hvs hlisted
  rw [map_found_visits, blockBytes_visits] at hrun
  obtain ⟨hlines, hcomments⟩ := toNat_total_parts start (s.found t start)
    (s.entered entries) (fun e => start.join e.1) fun e => (s.part t start e).1
  refine ⟨s.found t start, s.blockBytes t [⟨start, 0⟩], (s.entered entries).map (s.part t start),
    (s.entered entries).map fun e => .total (start.join e.1) (s.part t start e).1,
    .total start (s.found t start :: (s.entered entries).flatMap fun e => (s.part t start e).1),
    writeTo_reportDirectory hplain start 0, ?parts, ?whole, ?totals, ?total, hlines, hcomments⟩
  case parts =>
    rw [childPaths, List.forall₂_map_left_iff, List.forall₂_map_right_iff, List.forall₂_same]
    exact hchild
  case whole => rw [hrun, List.flatMap_map, List.flatMap_map]
  case totals =>
    rw [childPaths, List.forall₂_map_left_iff, List.forall₂_map_right_iff, List.forall₂_same]
    exact fun e he => congrArg Prod.fst (writeTo_scan (hchild e he))
  case total => exact congrArg Prod.fst (writeTo_scan hrun)

/-- A directory `code` with two directories in it, a hidden one that cannot
be listed, and a link to one of the two. -/
def partedTree : FileTree where
  root := .directory .all
    [(Bytes.ofString "code", .directory .all
      [(Bytes.ofString "lib", .directory .all
          [(Bytes.ofString "more", .directory .all
            [(Bytes.ofString "a.fs", .file .all "//\n".toUTF8)])]),
        (Bytes.ofString "b.fs", .file .all "//\nx\n".toUTF8),
        (Bytes.ofString ".git", .directory ⟨false, false⟩ []),
        (Bytes.ofString "same", .link (.ofString "lib")),
        (Bytes.ofString "test", .directory .all
          [(Bytes.ofString "c.fs", .file .all "x\n".toUTF8)])])]
  workingDirectory := []

/-- The walk of `code` completes as those of the two directories do. -/
theorem traverse_eq_subtrees_partedTree :
    partedTree.WellFormed ∧
      (Completes ⟨".fs", [], .fsharp, .sum, true, false⟩ partedTree (.ofString "code") ↔
        (∃ listed, partedTree.list (.ofString "code") = .ok listed) ∧
          ∀ c ∈ [Path.ofString "code/lib", Path.ofString "code/test"],
            Completes ⟨".fs", [], .fsharp, .sum, true, false⟩ partedTree c) ∧
      ∃ m, ((scan ⟨".fs", [], .fsharp, .sum, true, false⟩ partedTree
        (.ofString "code")).writeTo .unlimited).1 = .ok m := by
  have hwf : partedTree.WellFormed := by decide
  have hruns : Completes ⟨".fs", [], .fsharp, .sum, true, false⟩ partedTree (.ofString "code") := by
    refine completes_iff.mpr ⟨[⟨.ofString "code", 0⟩, ⟨.ofString "code/lib", 1⟩,
      ⟨.ofString "code/lib/more", 2⟩, ⟨.ofString "code/test", 1⟩], rfl, ?_⟩
    rintro v hv
    simp only [List.mem_cons, List.not_mem_nil, or_false] at hv
    obtain rfl | rfl | rfl | rfl := hv <;> exact ⟨_, rfl⟩
  obtain ⟨hcompletes, hparts⟩ := traverse_eq_subtrees
    (s := ⟨".fs", [], .fsharp, .sum, true, false⟩) hwf rfl
    (rfl : partedTree.entry (.ofString "code") = .ok (.directory .all _))
  obtain ⟨_, _, _, _, m, _, _, _, _, htotal, _⟩ := hparts hruns
  exact ⟨hwf, hcompletes, m, htotal⟩

end Survey

end CommentDensity
