import CommentDensity.Proofs.Command.Capacity
import CommentDensity.Proofs.Report.Reading
import CommentDensity.Proofs.Survey.Rendering

/-!
# CommentDensity.Proofs.Command.ReadBack

A report without a tree, read back line by line.

Without a tree the report of a job has a line for each directory with files
that are counted, in the order of the walk, and a summary behind them
(`Plan.lines`); a run writes these lines job by job (`bytes_of_run_eq_ok`).
Each is read back as what it was written from, so the report says again what
was found (`report_reads_back`).

The other directories have no line and no part in the sums either, since
nothing is found in them.  So the numbers of a summary are the sums of those
on the lines in front of it (`holds_total_reported`).
-/

namespace CommentDensity

/-! ## Lines as text -/

/-- Lines that were written come apart again. -/
theorem Line.exists_text {lines : List Line} (h : ∀ l ∈ lines, '\n' ∉ l.text.toList) :
    ∃ text : String, lines.flatMap Line.bytes = Bytes.ofString text ∧
      split '\n' text.toList = lines.map (fun l => l.text.toList) ++ [[]] := by
  refine ⟨String.join (lines.map fun l => l.text ++ "\n"), ?_, ?_⟩
  · rw [Bytes.ofString_join, List.flatMap_map]
    rfl
  · have htext : (String.join (lines.map fun l => l.text ++ "\n")).toList =
        (lines.map fun l => l.text.toList).flatMap fun line => line ++ ['\n'] := by
      simp [String.toList_join, List.flatMap_map]
    rw [htext, split_terminated]
    simpa using h

namespace Survey

variable {s : Survey} {t : FileTree} {start : Path}

/-! ## The lines of a walk -/

/-- The directories of a walk that have a line: those with files that are
counted. -/
def reported (s : Survey) (t : FileTree) (start : Path) : List Path :=
  (s.walkOrder t start).filter fun d => s.files t d ≠ []

/-- What is written on visits when no tree is shown. -/
theorem flatMap_block_of_plain (hplain : s.showTree = false) (vs : List Visit) :
    vs.flatMap (s.block t) =
      ((vs.map (·.directory)).filter fun d => s.files t d ≠ []).map fun d =>
        .directory (s.found t d) := by
  induction vs with
  | nil => rfl
  | cons v vs ih =>
    rw [List.flatMap_cons, ih, List.map_cons, List.filter_cons, block, hplain]
    by_cases hfiles : s.files t v.directory = []
    · simp [hfiles]
    · simp [hfiles]

/-- A walk without a tree that succeeds. -/
theorem reported_of_traverse_eq_ok (hplain : s.showTree = false) {sink after : Sink}
    {ms : List Measure} (h : s.traverse t start sink = (.ok ms, after)) :
    ms = (s.walkOrder t start).map (s.found t) ∧
      after.bytes = sink.bytes ++
        ((s.reported t start).map fun d => Line.directory (s.found t d)).flatMap Line.bytes := by
  obtain ⟨vs, hvs, _, rfl, hbytes⟩ := blocks_of_traverse_eq_ok h
  rw [reported, ← map_directory_itinerary hvs, hbytes, blockBytes, flatMap_block_of_plain hplain]
  simp

/-- The directories that have no line have no part in the total. -/
theorem holds_total_reported (s : Survey) (t : FileTree) (start : Path) :
    (Measure.total start ((s.walkOrder t start).map (s.found t))).Holds
      ((s.reported t start).map fun d => (s.found t d).lines.toNat).sum
      ((s.reported t start).map fun d => (s.found t d).comments.toNat).sum := by
  have hnone : ∀ d, decide (s.files t d ≠ []) = false → s.found t d = .empty d :=
    fun d hd => found_of_no_files (by simpa using hd)
  have hlines : ((s.reported t start).map fun d => (s.found t d).lines.toNat).sum =
      ((s.walkOrder t start).map fun d => (s.found t d).lines.toNat).sum :=
    sum_map_filter _ fun d hd => by rw [hnone d hd]; rfl
  have hcomments : ((s.reported t start).map fun d => (s.found t d).comments.toNat).sum =
      ((s.walkOrder t start).map fun d => (s.found t d).comments.toNat).sum :=
    sum_map_filter _ fun d hd => by rw [hnone d hd]; rfl
  rw [hlines, hcomments]
  exact Measure.holds_total _ (fun d => (s.found t d).holds_self) start

/-- What the line of a directory says. -/
def tally (s : Survey) (t : FileTree) (d : Path) : Tally :=
  ⟨.directory, d.display.toList, (s.found t d).lines.toNat, (s.found t d).comments.toNat⟩

theorem tells_tally (s : Survey) (t : FileTree) (d : Path) :
    (Line.directory (s.found t d)).Tells (s.tally t d) := by
  have htells := Line.tells_directory (s.found t d)
  rwa [root_found] at htells

end Survey

namespace Command

variable {plan : Plan} {t : FileTree}

/-! ## The lines of a run -/

/-- What a summary says behind directory lines: the sums of their numbers,
held at the limit. -/
def summaryTally (label : String) (directories : List Tally) : Tally where
  subject := .summary
  name := label.toList
  lines := min (directories.map (·.lines)).sum Count.limit
  comments := min (directories.map (·.comments)).sum Count.limit

/-- What the lines of a job say. -/
def Plan.tallies (plan : Plan) (t : FileTree) (job : Job) : List Tally :=
  let survey := plan.survey job
  let directories := (survey.reported t plan.directory).map (survey.tally t)
  directories ++ [summaryTally job.shownLabel directories]

/-- The lines of a job. -/
def Plan.lines (plan : Plan) (t : FileTree) (job : Job) : List Line :=
  let survey := plan.survey job
  ((survey.reported t plan.directory).map fun d => .directory (survey.found t d)) ++
    [.summary job.shownLabel
      (.total plan.directory ((survey.walkOrder t plan.directory).map (survey.found t)))]

/-- Each line of a job is read back as what it says. -/
theorem Plan.map_ofLine?_lines (plan : Plan) (t : FileTree) (job : Job) :
    (plan.lines t job).map (fun l => Tally.ofLine? l.text.toList) =
      (plan.tallies t job).map some := by
  have hdirectories : ∀ d, Tally.ofLine? (Line.directory ((plan.survey job).found t d)).text.toList =
      some ((plan.survey job).tally t d) := fun d => ((plan.survey job).tells_tally t d).ofLine?
  have htotal := (plan.survey job).holds_total_reported t plan.directory
  have hsummary := (Line.tells_summary job.shownLabel (.total plan.directory
    (((plan.survey job).walkOrder t plan.directory).map ((plan.survey job).found t)))).ofLine?
  rw [htotal.lines_eq, htotal.comments_eq] at hsummary
  simp [lines, tallies, hdirectories, hsummary, summaryTally, Survey.tally, Function.comp_def]

/-- The lines of a job are whole lines if the names on them are. -/
theorem Plan.newline_notMem_lines {job : Job} (hlabel : '\n' ∉ job.shownLabel.toList)
    (hnames : ∀ d ∈ (plan.survey job).reported t plan.directory, '\n' ∉ d.display.toList) :
    ∀ l ∈ plan.lines t job, '\n' ∉ l.text.toList := by
  intro l hl
  obtain hl | hl := List.mem_append.mp hl
  · obtain ⟨d, hd, rfl⟩ := List.mem_map.mp hl
    exact ((plan.survey job).tells_tally t d).newline_notMem (hnames d hd)
  · rw [List.mem_singleton.mp hl]
    exact (Line.tells_summary _ _).newline_notMem hlabel

/-! ## What a run writes -/

theorem Plan.bytes_of_runJob_eq_ok (htree : plan.showTree = false) {job : Job} {sink after : Sink}
    (h : plan.runJob t job sink = (.ok (), after)) :
    after.bytes = sink.bytes ++ (plan.lines t job).flatMap Line.bytes := by
  obtain ⟨found, between, hscan, hsummary⟩ := Report.bind_eq_ok.mp h
  obtain ⟨ms, walked, htraverse, htotal⟩ := Report.bind_eq_ok.mp (Report.within_eq_ok.mp hscan)
  obtain ⟨rfl, hwalked⟩ := Survey.reported_of_traverse_eq_ok (s := plan.survey job) htree htraverse
  cases htotal
  rw [Report.bytes_of_line_eq_ok hsummary, hwalked, lines, List.append_assoc]
  simp

/-- A run that succeeds has written the lines of its jobs. -/
theorem Plan.bytes_of_forM_eq_ok (htree : plan.showTree = false) (jobs : List Job)
    {sink after : Sink} (h : jobs.forM (plan.runJob t) sink = (.ok (), after)) :
    after.bytes = sink.bytes ++ (jobs.flatMap (plan.lines t)).flatMap Line.bytes := by
  induction jobs generalizing sink with
  | nil =>
    cases h
    simp
  | cons job jobs ih =>
    obtain ⟨_, between, hjob, hjobs⟩ := Report.bind_eq_ok.mp h
    rw [ih hjobs, bytes_of_runJob_eq_ok htree hjob]
    simp

/-- **A report reads back.**  A run without a tree that succeeds, and shows no
label and no directory with a newline, has written lines of which each can be
cut in one way only and is read back as what it was written from: for each
job in turn its directories with files that are counted, in the order of the
walk, and then a summary with the sums of their numbers, held at the limit. -/
theorem report_reads_back {a : Arguments} {sink : Sink} {out : Bytes}
    (hrun : (a.run t).writeTo sink = (.ok (), out)) (hplan : a.plan t = .ok plan)
    (htree : a.tree = false) (hlabels : ∀ job ∈ plan.jobs, '\n' ∉ job.shownLabel.toList)
    (hnames : ∀ job ∈ plan.jobs, ∀ d ∈ (plan.survey job).reported t plan.directory,
      '\n' ∉ d.display.toList) :
    ∃ (text : String) (lines : List (List Char)),
      out = sink.bytes ++ Bytes.ofString text ∧ split '\n' text.toList = lines ++ [[]] ∧
      lines.map Tally.ofLine? = (plan.jobs.flatMap (plan.tallies t)).map some ∧
      ∀ line ∈ lines, ∃ tally, Tally.ofLine? line = some tally ∧
        ∀ cut : Cut, cut.Of line ↔ cut = tally.cut := by
  obtain ⟨after, hafter, rfl⟩ := Report.writeTo_eq_ok.mp hrun
  have hshown : plan.showTree = false := (Arguments.showTree_plan hplan).trans htree
  have hforM : plan.jobs.forM (plan.runJob t) sink = (.ok (), after) := by
    rw [Arguments.run, hplan, Report.ofExcept_ok, pure_bind] at hafter
    exact hafter
  have hwhole : ∀ l ∈ plan.jobs.flatMap (plan.lines t), '\n' ∉ l.text.toList := by
    intro l hl
    obtain ⟨job, hjob, hl⟩ := List.mem_flatMap.mp hl
    exact Plan.newline_notMem_lines (hlabels job hjob) (hnames job hjob) l hl
  obtain ⟨text, hbytes, hsplit⟩ := Line.exists_text hwhole
  have hread : ((plan.jobs.flatMap (plan.lines t)).map fun l => l.text.toList).map Tally.ofLine? =
      (plan.jobs.flatMap (plan.tallies t)).map some := by
    rw [List.map_map, List.map_flatMap, List.map_flatMap]
    exact List.flatMap_congr fun job _ => plan.map_ofLine?_lines t job
  refine ⟨text, _, ?_, hsplit, hread, fun line hline => ?_⟩
  · rw [Plan.bytes_of_forM_eq_ok hshown plan.jobs hforM, hbytes]
  · have hmem := List.mem_map_of_mem (f := Tally.ofLine?) hline
    rw [hread] at hmem
    obtain ⟨tally, _, htally⟩ := List.mem_map.mp hmem
    have hcut := Tally.ofLine?_eq_some_iff.mp htally.symm
    refine ⟨tally, htally.symm, fun cut => ⟨fun h => Cut.unique h hcut, ?_⟩⟩
    rintro rfl
    exact hcut

/-- A directory whose name reads like what follows one in a report, with a
source in it and another two directories further in. -/
def misleadingTree : FileTree where
  root := .directory .all
    [(Bytes.ofString "src comments:1 lines:2 ratio:0.50", .directory .all
      [(Bytes.ofString "a.fs", .file .all "//\nx\n".toUTF8),
        (Bytes.ofString "in", .directory .all
          [(Bytes.ofString "b.fs", .directory .all
            [(Bytes.ofString "c.fs", .file .all "(*c*)\n//\n".toUTF8)])])])]
  workingDirectory := []

/-- A command line that names the directory, and a label of the same kind. -/
def misleadingLine : Arguments :=
  { Arguments.initial with
    directory := .ofString "src comments:1 lines:2 ratio:0.50"
    extension := some ".fs"
    label := some "F lines:7 comments:9 ratio:1.0" }

set_option maxRecDepth 4000 in
/-- Names and numbers are told apart all the same. -/
theorem report_reads_back_misleadingTree :
    ∃ (text : String) (lines : List (List Char)),
      Bytes.ofString ("src comments:1 lines:2 ratio:0.50 comments:1 lines:2 ratio:0.50\n" ++
        "src comments:1 lines:2 ratio:0.50/in/b.fs comments:2 lines:2 ratio:1.00\n" ++
        "F lines:7 comments:9 ratio:1.0 lines:4 comments:3 ratio:0.75\n") =
          Sink.unlimited.bytes ++ Bytes.ofString text ∧
      split '\n' text.toList = lines ++ [[]] ∧
      lines.map Tally.ofLine? =
        [some ⟨.directory, "src comments:1 lines:2 ratio:0.50".toList, 2, 1⟩,
          some ⟨.directory, "src comments:1 lines:2 ratio:0.50/in/b.fs".toList, 2, 2⟩,
          some ⟨.summary, "F lines:7 comments:9 ratio:1.0".toList, 4, 3⟩] := by
  have hplan : misleadingLine.plan misleadingTree =
      .ok { Plan.ofJobFile misleadingLine ⟨false, false, []⟩ with
        jobs := [misleadingLine.job ".fs"] } := rfl
  have hrun : (misleadingLine.run misleadingTree).writeTo .unlimited = (.ok (), Bytes.ofString
      ("src comments:1 lines:2 ratio:0.50 comments:1 lines:2 ratio:0.50\n" ++
        "src comments:1 lines:2 ratio:0.50/in/b.fs comments:2 lines:2 ratio:1.00\n" ++
        "F lines:7 comments:9 ratio:1.0 lines:4 comments:3 ratio:0.75\n")) := by
    rw [Arguments.run, hplan, Report.ofExcept_ok, pure_bind]
    show Report.writeTo (Plan.runJob _ _ _ >>= fun _ => pure ()) _ = _
    rw [Plan.runJob, Survey.scan, Survey.traverse_eq]
    rfl
  obtain ⟨text, lines, hout, hsplit, hread, _⟩ :=
    report_reads_back hrun hplan rfl (by decide) (by decide +kernel)
  exact ⟨text, lines, hout, hsplit, hread⟩

end Command

end CommentDensity
