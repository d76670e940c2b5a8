import CommentDensity.Command.Arguments
import CommentDensity.JobFile.Basic
import CommentDensity.Survey.Walk

/-!
# CommentDensity.Command.Run

Doing what a command line asks for.

An extension on the line makes one job of the line's own options, and then
a job file is not even looked at.  Without one the jobs are those of the job
file, if there is one, or else the defaults.  A job file can turn summing
and skipping on, but not off.

The jobs are done in order, each with its own lines in the report and a
summary at their end.  The first failure ends the report.
-/

namespace CommentDensity.Command

/-- The names in a list with commas between them; an empty one is none. -/
def excludedNames (list : String) : List String :=
  ((split ',' list.toList).filter (· ≠ [])).map String.ofList

/-- What is to be done. -/
structure Plan where
  directory : Path
  aggregation : Aggregation
  skipHidden : Bool
  showTree : Bool
  jobs : List Job
  deriving DecidableEq, Repr

/-- What is to be done with the jobs of a job file. -/
def Plan.ofJobFile (a : Arguments) (file : JobFile) : Plan where
  directory := a.directory
  aggregation := .ofSwitch (a.sumDirectories || file.sumDirectories)
  skipHidden := a.skipHidden || file.skipHidden
  showTree := a.tree
  jobs := file.effectiveJobs

/-- The job of the line's own options. -/
def Arguments.job (a : Arguments) (extension : String) : Job :=
  ⟨a.label, extension, excludedNames a.exclude, a.style⟩

/-- What a command line asks to be done. -/
def Arguments.plan (a : Arguments) (t : FileTree) : Except Failure Plan :=
  match a.extension, a.config with
  | some extension, _ =>
    .ok { Plan.ofJobFile a ⟨false, false, []⟩ with jobs := [a.job extension] }
  | none, some path => (JobFile.load t path).map (Plan.ofJobFile a)
  | none, none => .ok (Plan.ofJobFile a ⟨false, false, []⟩)

/-- The survey that does one job of a plan. -/
def Plan.survey (plan : Plan) (job : Job) : Survey where
  extension := job.extension
  exclude := job.exclude
  style := job.style
  aggregation := plan.aggregation
  skipHidden := plan.skipHidden
  showTree := plan.showTree

/-- Does one job and reports its summary. -/
def Plan.runJob (plan : Plan) (t : FileTree) (job : Job) : Report Unit := do
  let found ← ((plan.survey job).scan t plan.directory).within (.scan plan.directory)
  Report.line (.summary job.shownLabel found)

/-- Does all jobs in order. -/
def Plan.run (plan : Plan) (t : FileTree) : Report Unit := plan.jobs.forM (plan.runJob t)

/-- Does what a command line asks for. -/
def Arguments.run (a : Arguments) (t : FileTree) : Report Unit := do
  (← Report.ofExcept (a.plan t)).run t

/-! ## The whole program -/

/-- What the version option tells. -/
def versionText : String := "comment-ratio 0.1.0\n"

/-- What the help option tells. -/
def helpText : String :=
  "Usage: comment-ratio [OPTIONS]\n\nOptions:\n" ++ String.join (Flag.all.map fun f =>
    "  " ++ (match f.short with | some c => "-" ++ String.singleton c ++ ", " | none => "    ")
      ++ "--" ++ f.long ++ (match f with | .setting _ => " <VALUE>" | _ => "") ++ "\n")

/-- How a process ends: its exit code and what it has written. -/
structure Outcome where
  exitCode : UInt8
  output : Bytes
  diagnostic : String
  deriving DecidableEq, Repr

/-- What is said about a line that is refused. -/
def Refusal.diagnostic : Refusal → String
  | .missingValue s => "error: a value is required for --" ++ (Flag.setting s).long ++ "\n"
  | .emptyPath s => "error: the value of --" ++ (Flag.setting s).long ++ " is empty\n"
  | .notUtf8 s => "error: the value of --" ++ (Flag.setting s).long ++ " is not UTF-8\n"
  | .repeated f => "error: --" ++ f.long ++ " cannot be used multiple times\n"
  | .unexpectedValue f => "error: --" ++ f.long ++ " takes no value\n"
  | .unknown w => "error: unexpected argument: " ++ w.lossy ++ "\n"
  | .help => ""
  | .version => ""

/-- How the process ends that is started with the given words. -/
def execute (t : FileTree) (words : List Bytes) : Outcome :=
  match Arguments.parse words with
  | .error .help => ⟨0, .ofString helpText, ""⟩
  | .error .version => ⟨0, .ofString versionText, ""⟩
  | .error refusal => ⟨2, [], refusal.diagnostic⟩
  | .ok a =>
    match (a.run t).writeTo .unlimited with
    | (.ok _, output) => ⟨0, output, ""⟩
    | (.error failure, output) => ⟨1, output, failure.diagnostic⟩

end CommentDensity.Command
