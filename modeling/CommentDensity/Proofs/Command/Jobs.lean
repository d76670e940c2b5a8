import CommentDensity.Proofs.Command.Capacity

/-!
# CommentDensity.Proofs.Command.Jobs

A run is the chain of the runs of its jobs.

Each job of a run could be asked for on a command line of its own, with the
job's extension, names, style and label in the place of a job file
(`Arguments.forJob`).  The excluded names are told apart by commas there, and
an empty one is no name; neither matters to names that have no comma, since
no entry has an empty name (`excludedNames_intercalate`,
`files_filter_exclude`).

So what a run writes and how it ends is what these single runs write, one
after the other, up to the first that fails (`run_eq_inTurn`).
-/

namespace CommentDensity

/-! ## Names with commas between them -/

namespace Command

/-- Names without commas come back from a list of them, but for empty ones. -/
theorem excludedNames_intercalate {names : List String} (h : ∀ name ∈ names, ',' ∉ name.toList) :
    excludedNames (",".intercalate names) = names.filter (· ≠ "") := by
  have hparts : split ',' (",".intercalate names).toList =
      if names = [] then [[]] else names.map String.toList := by
    rw [String.toList_intercalate]
    cases names with
    | nil => rfl
    | cons name names =>
      obtain ⟨hname, hnames⟩ := List.forall_mem_cons.mp h
      exact split_intercalate hname fun p hp => by
        obtain ⟨n, hn, rfl⟩ := List.mem_map.mp hp
        exact hnames n hn
  rw [excludedNames, hparts]
  split
  · next hnil => subst hnil; rfl
  · rw [List.filter_map, List.map_map]
    have hback : String.ofList ∘ String.toList = id := funext fun name => String.ofList_toList
    rw [hback, List.map_id]
    refine List.filter_congr fun name _ => ?_
    simp

end Command

namespace Survey

variable {s : Survey} {t : FileTree}

/-- An empty name excludes nothing. -/
theorem files_filter_exclude (ht : t.WellFormed) (s : Survey) (directory : Path) :
    ({ s with exclude := s.exclude.filter (· ≠ "") } : Survey).files t directory =
      s.files t directory := by
  rw [files, files]
  cases hlist : t.list directory with
  | error e => rfl
  | ok entries =>
    refine List.filter_congr fun name hname => ?_
    obtain ⟨e, he, rfl⟩ := List.mem_map.mp hname
    have hne : e.1 ≠ [] := ((ht.list hlist).2 e he).ne_nil
    have hempty : (Bytes.ofString "" == e.1) = false := by
      show (([] : Bytes) == e.1) = false
      simpa using hne.symm
    have hany : ((s.exclude.filter (· ≠ "")).any fun excluded => Bytes.ofString excluded == e.1) =
        s.exclude.any fun excluded => Bytes.ofString excluded == e.1 := by
      rw [List.any_filter]
      congr 1
      funext excluded
      by_cases hex : excluded = ""
      · rw [hex, hempty, Bool.and_false]
      · simp [hex]
    show selects _ _ _ _ = _
    rw [selects, selects, isMatchingName, isMatchingName, hany]
    rfl

theorem scan_filter_exclude (ht : t.WellFormed) (s : Survey) (start : Path) :
    ({ s with exclude := s.exclude.filter (· ≠ "") } : Survey).scan t start = s.scan t start := by
  have hperform : ({ s with exclude := s.exclude.filter (· ≠ "") } : Survey).perform t =
      s.perform t := by
    funext v
    rw [perform_eq_play, perform_eq_play]
    unfold visitScript block found
    rw [files_filter_exclude ht]
  have htraverse : ({ s with exclude := s.exclude.filter (· ≠ "") } : Survey).traverse t start =
      s.traverse t start := traverse_congr (by rfl) hperform start
  rw [scan, scan, htraverse]

end Survey

/-! ## One run after another -/

/-- What runs come to that are made in turn, up to the first that fails: all
that they have written, and how the last of them has ended. -/
def inTurn : List (Except Failure Unit × Bytes) → Except Failure Unit × Bytes
  | [] => (.ok (), [])
  | (.ok (), written) :: rest => ((inTurn rest).1, written ++ (inTurn rest).2)
  | (.error failure, written) :: _ => (.error failure, written)

theorem writeTo_forM {γ : Type} {full : Failure → Prop} {f : γ → Report Unit} (cs : List γ)
    (hf : ∀ c, (f c).Scripted full) :
    Report.writeTo (cs.forM f) .unlimited =
      inTurn (cs.map fun c => (f c).writeTo .unlimited) := by
  induction cs with
  | nil => rfl
  | cons c cs ih =>
    obtain ⟨⟨lines, outcome⟩, hc, _⟩ := hf c
    obtain ⟨q, hq, _⟩ := Report.scripted_forM cs hf
    show Report.writeTo (f c >>= fun _ => cs.forM f) .unlimited = _
    rw [List.map_cons, hc]
    cases outcome with
    | error e =>
      rw [Script.play_error_bind, Script.writeTo_play_unlimited]
      rfl
    | ok _ =>
      rw [Script.play_ok_bind, Script.writeTo_play_unlimited, inTurn, ← ih, hq, Script.tell_play,
        Script.writeTo_play_unlimited, Script.writeTo_play_unlimited, Script.writes_append,
        List.flatten_append]

namespace Command

/-! ## Runs of single jobs -/

/-- The command line that asks for a job, with its names between commas. -/
def Arguments.forJob (a : Arguments) (sumDirectories skipHidden : Bool) (job : Job) : Arguments where
  directory := a.directory
  extension := some job.extension
  exclude := ",".intercalate job.exclude
  style := job.style
  label := job.label
  config := none
  sumDirectories := sumDirectories
  skipHidden := skipHidden
  tree := a.tree

/-- A job on a command line of its own is done as it is done in a plan. -/
theorem Arguments.run_forJob {t : FileTree} (ht : t.WellFormed) (a : Arguments) (sum skip : Bool)
    {job : Job} (hcommas : ∀ name ∈ job.exclude, ',' ∉ name.toList) (jobs : List Job) :
    (a.forJob sum skip job).run t =
      Plan.runJob ⟨a.directory, .ofSwitch sum, skip, a.tree, jobs⟩ t job := by
  have hplan : (a.forJob sum skip job).plan t = .ok ⟨a.directory, .ofSwitch sum, skip, a.tree,
      [{ job with exclude := job.exclude.filter (· ≠ "") }]⟩ := by
    simp [Arguments.plan, forJob, Plan.ofJobFile, Arguments.job, excludedNames_intercalate hcommas]
  have hscan := Survey.scan_filter_exclude ht
    ⟨job.extension, job.exclude, job.style, .ofSwitch sum, skip, a.tree⟩ a.directory
  calc (a.forJob sum skip job).run t
      = Plan.runJob ⟨a.directory, .ofSwitch sum, skip, a.tree, []⟩ t
          { job with exclude := job.exclude.filter (· ≠ "") } := by
        rw [run, hplan, Report.ofExcept_ok, pure_bind, Plan.run]
        exact (bind_pure_unit : (do
          let _ ← Plan.runJob _ t { job with exclude := job.exclude.filter (· ≠ "") }
          pure ()) = _)
    _ = Plan.runJob ⟨a.directory, .ofSwitch sum, skip, a.tree, jobs⟩ t job :=
        congrArg (fun scanned => do
          let found ← scanned.within (.scan a.directory)
          Report.line (.summary job.shownLabel found)) hscan

/-- A run without an extension does the jobs of its job file, each as a run
of its own. -/
theorem Arguments.writeTo_run {t : FileTree} (ht : t.WellFormed) {a : Arguments} {file : JobFile}
    (hplan : a.plan t = .ok (Plan.ofJobFile a file))
    (hcommas : ∀ job ∈ file.effectiveJobs, ∀ name ∈ job.exclude, ',' ∉ name.toList) :
    (a.run t).writeTo .unlimited = inTurn (file.effectiveJobs.map fun job =>
      ((a.forJob (a.sumDirectories || file.sumDirectories) (a.skipHidden || file.skipHidden)
        job).run t).writeTo .unlimited) := by
  have hrun : a.run t = file.effectiveJobs.forM ((Plan.ofJobFile a file).runJob t) := by
    rw [run, hplan, Report.ofExcept_ok, pure_bind]
    rfl
  have hscripted : ∀ job, ((Plan.ofJobFile a file).runJob t job).Scripted fun _ => True :=
    fun job => (Plan.ofJobFile a file).scripted_runJob t job trivial trivial
  rw [hrun, writeTo_forM _ hscripted]
  congr 1
  refine List.map_congr_left fun job hjob => ?_
  rw [run_forJob ht a _ _ (hcommas job hjob) file.effectiveJobs]
  rfl

theorem Arguments.plan_of_config {a : Arguments} {t : FileTree} {path : Path}
    (hextension : a.extension = none) (hconfig : a.config = some path) :
    a.plan t = (JobFile.load t path).map (Plan.ofJobFile a) := by
  simp [Arguments.plan, hextension, hconfig]

/-- The default jobs have no names with commas, so it is enough to look at
the jobs that a job file lists. -/
theorem commas_effectiveJobs {file : JobFile}
    (h : ∀ job ∈ file.jobs, ∀ name ∈ job.exclude, ',' ∉ name.toList) :
    ∀ job ∈ file.effectiveJobs, ∀ name ∈ job.exclude, ',' ∉ name.toList := by
  unfold JobFile.effectiveJobs
  split
  · decide
  · exact h

/-- Without an extension on the line, a run comes to what the runs of its
jobs come to in turn, each on a line of its own: of the default jobs, or of
those that a job file lists, if it lists any; its switches are on if the line
or the file turns them on.  A job file that cannot be loaded ends the run
before anything is written.  With an extension on the line, what is done is
settled without a job file. -/
theorem run_eq_inTurn {t : FileTree} (ht : t.WellFormed) (a : Arguments) :
    (a.extension = none → a.config = none →
      (a.run t).writeTo .unlimited = inTurn (Job.defaults.map fun job =>
        ((a.forJob a.sumDirectories a.skipHidden job).run t).writeTo .unlimited)) ∧
    (∀ path file, a.extension = none → a.config = some path → JobFile.load t path = .ok file →
      (∀ job ∈ file.jobs, ∀ name ∈ job.exclude, ',' ∉ name.toList) →
      (a.run t).writeTo .unlimited =
        inTurn ((if file.jobs = [] then Job.defaults else file.jobs).map fun job =>
          ((a.forJob (a.sumDirectories || file.sumDirectories) (a.skipHidden || file.skipHidden)
            job).run t).writeTo .unlimited)) ∧
    (∀ path failure, a.extension = none → a.config = some path →
      JobFile.load t path = .error failure → (a.run t).writeTo .unlimited = (.error failure, [])) ∧
    (∀ extension, a.extension = some extension → ∃ plan : Plan, ∀ config t',
      ({ a with config := config } : Arguments).run t' = plan.run t') := by
  refine ⟨fun hextension hconfig => ?_, fun path file hextension hconfig hload hcommas => ?_,
    fun path failure hextension hconfig hload => ?_, fun extension hextension => ?_⟩
  · have hplan : a.plan t = .ok (Plan.ofJobFile a ⟨false, false, []⟩) := by
      rw [Arguments.plan, hextension, hconfig]
    have hrun := Arguments.writeTo_run ht hplan (commas_effectiveJobs (by simp))
    simpa [JobFile.effectiveJobs] using hrun
  · have hplan : a.plan t = .ok (Plan.ofJobFile a file) := by
      rw [Arguments.plan_of_config hextension hconfig, hload]
      rfl
    have hrun := Arguments.writeTo_run ht hplan (commas_effectiveJobs hcommas)
    simpa [JobFile.effectiveJobs] using hrun
  · have hplan : a.plan t = .error failure := by
      rw [Arguments.plan_of_config hextension hconfig, hload]
      rfl
    rw [Arguments.run, hplan]
    rfl
  · refine ⟨{ Plan.ofJobFile a ⟨false, false, []⟩ with jobs := [a.job extension] },
      fun config t' => ?_⟩
    rw [Arguments.run, Arguments.plan, hextension]
    rfl

/-- A directory with sources of two kinds, one of them hidden, and a job file
that lists a job for each and turns skipping on. -/
def jobTree : FileTree where
  root := .directory .all
    [(Bytes.ofString "jobs.toml", .file .all
        ("skip_hidden=true\n[[jobs]]\nextension=\".fs\"\nexclude=[\"b.fs\",\"\"]\n" ++
          "[[jobs]]\nlabel=\"C\"\nextension=\".cs\"\nstyle=\"c\"").toUTF8),
      (Bytes.ofString "src", .directory .all
        [(Bytes.ofString "a.fs", .file .all "(*a*)\nx\n".toUTF8),
          (Bytes.ofString "b.fs", .file .all "//\n".toUTF8),
          (Bytes.ofString ".cs", .file .all "//\n".toUTF8)])]
  workingDirectory := []

/-- The jobs that the job file lists. -/
def listedJobs : List Job :=
  [⟨none, ".fs", ["b.fs", ""], .fsharp⟩, ⟨some "C", ".cs", [], .csharp⟩]

/-- A command line that names the job file. -/
def jobLine : Arguments :=
  { Arguments.initial with directory := .ofString "src", config := some (.ofString "jobs.toml") }

/-- A run with a job file comes to two runs, with skipping on in both. -/
theorem run_eq_inTurn_jobTree :
    jobTree.WellFormed ∧
      JobFile.load jobTree (.ofString "jobs.toml") = .ok ⟨false, true, listedJobs⟩ ∧
      (jobLine.run jobTree).writeTo .unlimited = inTurn (listedJobs.map fun job =>
        ((jobLine.forJob false true job).run jobTree).writeTo .unlimited) := by
  have hwf : jobTree.WellFormed := by decide
  have hsome : (JobFile.load jobTree (.ofString "jobs.toml")).toOption =
      some ⟨false, true, listedJobs⟩ := by decide +kernel
  have hload : JobFile.load jobTree (.ofString "jobs.toml") = .ok ⟨false, true, listedJobs⟩ := by
    cases hloaded : JobFile.load jobTree (.ofString "jobs.toml") with
    | error e => rw [hloaded] at hsome; cases hsome
    | ok file => rw [hloaded] at hsome; exact congrArg _ (Option.some.inj hsome)
  have hcommas : ∀ job ∈ listedJobs, ∀ name ∈ job.exclude, ',' ∉ name.toList := by decide
  have hrun := (run_eq_inTurn hwf jobLine).2.1 _ _ rfl rfl hload hcommas
  rw [if_neg (by simp [listedJobs])] at hrun
  exact ⟨hwf, hload, hrun⟩

end Command

end CommentDensity
