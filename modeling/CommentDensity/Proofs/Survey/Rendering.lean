import CommentDensity.Proofs.Survey.Completion

/-!
# CommentDensity.Proofs.Survey.Rendering

The text of a walk, read off its results.

A walk writes one block for each measure that it finds, in the same order
(`blockText`), to whatever sink: a line with the numbers of the measure and,
where the report shows a tree, in front of it the name of the directory and
the names of the files that are counted there, set in by the steps that lead
to them from the start.  A directory without such files has no block, and its
measure is zero.

The steps are those of the path: a walk goes down by names of entries, and
each of them is one part more (`Path.parts_descend`).
-/

namespace CommentDensity

/-! ## Paths below a start -/

namespace Path

/-- The path of what entries of these names, each in the one before, lead to
from a directory. -/
def descend (p : Path) (names : List Bytes) : Path := names.foldl join p

@[simp] theorem descend_nil (p : Path) : p.descend [] = p := rfl

@[simp] theorem descend_cons (p : Path) (name : Bytes) (names : List Bytes) :
    p.descend (name :: names) = (p.join name).descend names := rfl

/-- Every name is a part more. -/
theorem parts_descend {names : List Bytes} (h : ∀ name ∈ names, name.IsEntryName) (p : Path) :
    (p.descend names).parts = p.parts ++ names := by
  induction names generalizing p with
  | nil => simp
  | cons name names ih =>
    have hnames : ∀ n ∈ names, n.IsEntryName := fun n hn => h n (List.mem_cons_of_mem _ hn)
    rw [descend_cons, ih hnames, parts_join p (h name List.mem_cons_self), List.append_assoc,
      List.singleton_append]

end Path

theorem Bytes.ofString_append (a b : String) : ofString (a ++ b) = ofString a ++ ofString b := by
  simp [ofString]

theorem Bytes.ofString_join (texts : List String) :
    ofString (String.join texts) = texts.flatMap ofString := by
  induction texts with
  | nil => rfl
  | cons text texts ih => rw [String.join_cons, ofString_append, ih, List.flatMap_cons]

namespace Survey

/-! ## The text of a block -/

/-- How many parts the path `d` has behind those of `start`. -/
def stepsBelow (start d : Path) : Nat := d.parts.length - start.parts.length

/-- Three dashes for each step. -/
def dashes (steps : Nat) : String := String.join (List.replicate steps "---")

/-- The lines of a tree for the directory `d`: its name, and the names of the
files in it that are counted, in listing order and one step further in. -/
def treeText (s : Survey) (t : FileTree) (start d : Path) : String :=
  dashes (stepsBelow start d) ++ " " ++ d.shownName.lossy ++ "\n" ++
    String.join ((s.files t d).map fun name =>
      dashes (stepsBelow start d + 1) ++ " " ++ name.lossy ++ "\n")

/-- The line with the numbers of a directory. -/
def numbersText (m : Measure) : String :=
  m.root.display ++ " comments:" ++ String.ofList (decimalDigits m.comments.toNat) ++
    " lines:" ++ String.ofList (decimalDigits m.lines.toNat) ++
    " ratio:" ++ String.ofList m.ratio.hundredths ++ "\n"

/-- All that a walk from `start` writes on a directory with the measure `m`. -/
def blockText (s : Survey) (t : FileTree) (start : Path) (m : Measure) : String :=
  if s.files t m.root = [] then ""
  else if s.showTree then s.treeText t start m.root ++ numbersText m
  else numbersText m

/-- The survey whose report shows a tree, or none. -/
def showingTree (s : Survey) (shown : Bool) : Survey := { s with showTree := shown }

variable {s : Survey} {t : FileTree} {start : Path}

theorem bytes_directory (m : Measure) : (Line.directory m).bytes = Bytes.ofString (numbersText m) := by
  simp [Line.bytes, Line.text, Line.field, numbersText, String.append_assoc]

/-- The lines of a tree, as text. -/
theorem bytes_tree (start d : Path) :
    (Line.heading (stepsBelow start d) d.shownName ::
      (s.files t d).map (.file (stepsBelow start d + 1))).flatMap Line.bytes =
      Bytes.ofString (s.treeText t start d) := by
  rw [List.flatMap_cons, List.flatMap_map, treeText, Bytes.ofString_append, Bytes.ofString_join,
    List.flatMap_map]
  rfl

/-- The lines of a block, as text. -/
theorem bytes_block {v : Visit} (hdepth : v.depth = stepsBelow start v.directory) :
    (s.block t v).flatMap Line.bytes =
      Bytes.ofString (s.blockText t start (s.found t v.directory)) := by
  rw [block, blockText, root_found, hdepth]
  by_cases hfiles : s.files t v.directory = []
  · simp [hfiles, Bytes.ofString]
  · have hempty : (s.files t v.directory).isEmpty = false := by simpa using hfiles
    cases htree : s.showTree with
    | false => simp [hfiles, bytes_directory]
    | true =>
      rw [if_neg hfiles, hempty, if_pos rfl, if_neg Bool.false_ne_true, if_pos rfl,
        List.flatMap_append, bytes_tree, List.flatMap_singleton, bytes_directory,
        Bytes.ofString_append]

/-! ## The depth of a visit -/

mutual

/-- A visit is as deep as the names that lead to it are many. -/
theorem exists_descend_of_mem_visits : (node : Node) → node.WellFormed → {path : Path} →
    {depth : Nat} → {v : Visit} → v ∈ s.visits path depth node →
    ∃ names, (∀ name ∈ names, name.IsEntryName) ∧ v.directory = path.descend names ∧
      v.depth = depth + names.length
  | .file .., _, _, _, _, h => by simp [visits] at h
  | .link _, _, _, _, _, h => by simp [visits] at h
  | .directory _ entries, hwf, path, depth, v, h => by
    rw [visits] at h
    obtain rfl | h := List.mem_cons.mp h
    · exact ⟨[], by simp, rfl, rfl⟩
    · obtain ⟨names, hnames, hdirectory, hdepth⟩ :=
        exists_descend_of_mem_visitsIn entries hwf.forall_mem h
      exact ⟨names, hnames, hdirectory, by omega⟩

/-- At the entries of a directory, the first name has been counted. -/
theorem exists_descend_of_mem_visitsIn : (entries : List (Bytes × Node)) →
    (∀ e ∈ entries, e.1.IsEntryName ∧ e.2.WellFormed) → {path : Path} → {depth : Nat} →
    {v : Visit} → v ∈ s.visitsIn path depth entries →
    ∃ names, (∀ name ∈ names, name.IsEntryName) ∧ v.directory = path.descend names ∧
      v.depth + 1 = depth + names.length
  | [], _, _, _, _, h => by simp [visitsIn] at h
  | (name, node) :: rest, hwf, path, depth, v, h => by
    rw [visitsIn, List.mem_append] at h
    obtain h | h := h
    · split at h
      · simp at h
      · obtain ⟨hname, hnode⟩ := hwf _ List.mem_cons_self
        obtain ⟨names, hnames, hdirectory, hdepth⟩ := exists_descend_of_mem_visits node hnode h
        refine ⟨name :: names, ?_, hdirectory, ?_⟩
        · simpa using ⟨hname, hnames⟩
        · rw [List.length_cons]
          omega
    · exact exists_descend_of_mem_visitsIn rest (fun e he => hwf e (List.mem_cons_of_mem _ he)) h

end

/-- The visits of a walk are as deep as their paths go on from the start. -/
theorem exists_descend_of_mem_itinerary (ht : t.WellFormed) {vs : List Visit}
    (hvs : s.itinerary t start = .ok vs) {v : Visit} (hv : v ∈ vs) :
    ∃ names, (∀ name ∈ names, name.IsEntryName) ∧ v.directory = start.descend names ∧
      v.depth = names.length := by
  obtain ⟨node, hentry, hlink, rfl⟩ | ⟨link, permission, entries, _, htarget, _, rfl⟩ |
    ⟨link, node, _, _, _, rfl⟩ := itinerary_eq_ok hvs
  · have hwf := ht.target (FileTree.target_of_entry hentry hlink)
    obtain ⟨names, hnames, hdirectory, hdepth⟩ := exists_descend_of_mem_visits node hwf hv
    exact ⟨names, hnames, hdirectory, by omega⟩
  · obtain ⟨names, hnames, hdirectory, hdepth⟩ :=
      exists_descend_of_mem_visitsIn entries (ht.target htarget).forall_mem hv
    exact ⟨names, hnames, hdirectory, by omega⟩
  · cases hv

theorem stepsBelow_descend {names : List Bytes} (h : ∀ name ∈ names, name.IsEntryName) :
    stepsBelow start (start.descend names) = names.length := by
  rw [stepsBelow, Path.parts_descend h, List.length_append, Nat.add_sub_cancel_left]

/-- The blocks of visits, as text. -/
theorem blockBytes_eq (ht : t.WellFormed) {vs made : List Visit}
    (hvs : s.itinerary t start = .ok vs) (hmade : ∀ v ∈ made, v ∈ vs) :
    s.blockBytes t made = (made.map fun v => s.found t v.directory).flatMap fun m =>
      Bytes.ofString (s.blockText t start m) := by
  rw [blockBytes, List.flatMap_assoc, List.flatMap_map]
  refine List.flatMap_congr fun v hv => bytes_block ?_
  obtain ⟨names, hnames, hdirectory, hdepth⟩ := exists_descend_of_mem_itinerary ht hvs (hmade v hv)
  rw [hdirectory, stepsBelow_descend hnames, hdepth]

/-- The blocks of the visits that a walk makes, as text. -/
theorem blockBytes_visited (ht : t.WellFormed) (s : Survey) (start : Path) :
    s.blockBytes t (s.visited t start) =
      ((s.visited t start).map fun v => s.found t v.directory).flatMap fun m =>
        Bytes.ofString (s.blockText t start m) := by
  cases hvs : s.itinerary t start with
  | error e =>
    have hnone : s.visited t start = [] := by rw [visited, hvs]
    rw [hnone]
    rfl
  | ok vs => exact blockBytes_eq ht hvs fun v hv => mem_of_mem_visited hvs hv

/-! ## The text of a walk -/

/-- What a walk that succeeds has written, to whatever sink. -/
theorem blocks_of_traverse_eq_ok {sink after : Sink} {ms : List Measure}
    (h : s.traverse t start sink = (.ok ms, after)) :
    ∃ vs, s.itinerary t start = .ok vs ∧
      (∀ v ∈ vs, ∃ listed, t.list v.directory = .ok listed) ∧
      ms = (vs.map fun v => s.found t v.directory) ∧
      after.bytes = sink.bytes ++ s.blockBytes t vs := by
  rw [traverse_eq_mapM] at h
  obtain ⟨vs, _, hrequire, hmade⟩ := Report.bind_eq_ok.mp h
  obtain ⟨hvs, rfl⟩ := Report.require_eq_ok.mp hrequire
  obtain hall | ⟨made, v, rest, e, rfl, hlisted, he⟩ := listed_or_first t vs
  · rw [mapM_perform_of_listed vs hall] at hmade
    obtain ⟨houtcome, hbytes⟩ := Script.play_eq_ok hmade
    cases houtcome
    exact ⟨vs, hvs, hall, rfl, by rw [hbytes, flatten_writes_blocks]⟩
  · rw [mapM_perform_of_not_listed made rest v hlisted he] at hmade
    obtain ⟨houtcome, _⟩ := Script.play_eq_ok hmade
    cases houtcome

theorem found_of_no_files {d : Path} (h : s.files t d = []) : s.found t d = .empty d := by
  rw [found, h, FileTree.measureDirectory_nil]

/-- A walk comes to the same with and without a tree, but for the lines of the
tree. -/
theorem exists_outcome (ht : t.WellFormed) (s : Survey) (start : Path) :
    ∃ outcome found, (∀ ms, outcome = .ok ms → found = ms) ∧ ∀ shown,
      ((s.showingTree shown).traverse t start).writeTo .unlimited =
        (outcome, found.flatMap fun m =>
          Bytes.ofString ((s.showingTree shown).blockText t start m)) := by
  refine ⟨s.outcome t start, (s.visited t start).map fun v => s.found t v.directory,
    fun ms hms => ?_, fun shown => ?_⟩
  · rw [outcome] at hms
    split at hms
    · exact Except.ok.inj hms
    · cases hms
  · have hhidden : s.skipHidden = (s.showingTree shown).skipHidden := rfl
    rw [writeTo_traverse, blockBytes_visited ht, outcome, ← visited_congr hhidden,
      ← failure?_congr hhidden]
    rfl

/-- A walk that succeeds has written a block for each of its results and
nothing else: none for a directory without files that are counted, whose
measure is zero, and otherwise the line with the numbers of the result, behind
the lines of the tree where the report shows one.  The files are those that
are counted, in listing order, and the steps are the names by which the walk
went down from the start.

To a sink that takes everything, a walk has the same outcome with and without
a tree, and its blocks differ by the lines of the tree alone. -/
theorem report_eq_results (ht : t.WellFormed) (start : Path) :
    (∀ sink ms out, (s.traverse t start).writeTo sink = (.ok ms, out) →
      out = sink.bytes ++ (ms.flatMap fun m => Bytes.ofString (s.blockText t start m)) ∧
      ∀ m ∈ ms,
        (s.files t m.root = [] → m.lines = 0 ∧ m.comments = 0) ∧
        (∃ entries, t.list m.root = .ok entries ∧
          (s.files t m.root).Sublist (entries.map (·.1)) ∧
          ∀ name, name ∈ s.files t m.root ↔ s.IsSelected t m.root name) ∧
        ∃ names, (∀ name ∈ names, name.IsEntryName) ∧ m.root = start.descend names ∧
          stepsBelow start m.root = names.length) ∧
    ∃ outcome found, (∀ ms, outcome = .ok ms → found = ms) ∧ ∀ shown,
      ((s.showingTree shown).traverse t start).writeTo .unlimited =
        (outcome, found.flatMap fun m =>
          Bytes.ofString ((s.showingTree shown).blockText t start m)) := by
  refine ⟨fun sink ms out h => ?_, exists_outcome ht s start⟩
  obtain ⟨after, hrun, hout⟩ := Report.writeTo_eq_ok.mp h
  obtain ⟨vs, hvs, hlisted, rfl, hbytes⟩ := blocks_of_traverse_eq_ok hrun
  refine ⟨by rw [← hout, hbytes, blockBytes_eq ht hvs fun v hv => hv], fun m hm => ?_⟩
  obtain ⟨v, hv, rfl⟩ := List.mem_map.mp hm
  rw [root_found]
  refine ⟨fun hnone => ?_, ?_, ?_⟩
  · rw [found_of_no_files hnone]
    exact ⟨rfl, rfl⟩
  · obtain ⟨entries, hlist⟩ := hlisted v hv
    have hfiles : s.files t v.directory = s.selected t v.directory entries := by rw [files, hlist]
    exact ⟨entries, hlist, hfiles ▸ List.filter_sublist, fun name => mem_files_iff⟩
  · obtain ⟨names, hnames, hdirectory, _⟩ := exists_descend_of_mem_itinerary ht hvs hv
    exact ⟨names, hnames, hdirectory, by rw [hdirectory, stepsBelow_descend hnames]⟩

/-- A directory `code` with a source, a directory without any, and in that one
another with two. -/
def leafyTree : FileTree where
  root := .directory .all
    [(Bytes.ofString "code", .directory .all
      [(Bytes.ofString "a.fs", .file .all "//\nx\n".toUTF8),
        (Bytes.ofString "in", .directory .all
          [(Bytes.ofString "note", .file .all "//\n".toUTF8),
            (Bytes.ofString "more", .directory .all
              [(Bytes.ofString "b.fs", .file .all "(*b*)".toUTF8),
                (Bytes.ofString "c.fs", .file .all "".toUTF8)])])])]
  workingDirectory := []

set_option maxRecDepth 4000 in
/-- The two blocks of a walk with a tree: the directory between has none. -/
theorem report_eq_results_leafyTree :
    leafyTree.WellFormed ∧
      Bytes.ofString (" code\n--- a.fs\ncode comments:1 lines:2 ratio:0.50\n" ++
          "------ more\n--------- b.fs\n--------- c.fs\n" ++
          "code/in/more comments:1 lines:1 ratio:1.00\n") =
        ([⟨.ofNat 2, .ofNat 1, .ofString "code"⟩, .empty (.ofString "code/in"),
          ⟨.ofNat 1, .ofNat 1, .ofString "code/in/more"⟩] : List Measure).flatMap fun m =>
            Bytes.ofString (blockText ⟨".fs", [], .fsharp, .sum, false, true⟩ leafyTree
              (.ofString "code") m) := by
  have hwf : leafyTree.WellFormed := by decide
  have hrun : (traverse ⟨".fs", [], .fsharp, .sum, false, true⟩ leafyTree
      (.ofString "code")).writeTo .unlimited =
        (.ok [⟨.ofNat 2, .ofNat 1, .ofString "code"⟩, .empty (.ofString "code/in"),
          ⟨.ofNat 1, .ofNat 1, .ofString "code/in/more"⟩],
          Bytes.ofString (" code\n--- a.fs\ncode comments:1 lines:2 ratio:0.50\n" ++
            "------ more\n--------- b.fs\n--------- c.fs\n" ++
            "code/in/more comments:1 lines:1 ratio:1.00\n")) := by
    rw [traverse_eq]
    rfl
  exact ⟨hwf, ((report_eq_results hwf (.ofString "code")).1 _ _ _ hrun).1⟩

end Survey

end CommentDensity
