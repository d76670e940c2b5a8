import CommentDensity.FileTree.Resolve
import CommentDensity.Failure
import CommentDensity.Job
import CommentDensity.Toml.Document

/-!
# CommentDensity.JobFile.Basic

Job files: jobs and options in a TOML text.

```
sum_dirs = true
skip_hidden = false

[[jobs]]
label = "Scripts"
extension = ".fsx"
exclude = ["build.fsx"]
style = "fsharp"
```

All keys but `extension` may be left out, and other keys are passed over,
as long as a machine can hold their numbers.  A job may also be written as
an array of its label, its extension, its excluded names and its style; of
these any number may be left out from the end, and what follows them is
passed over.
-/

namespace CommentDensity

/-- What a job file asks for. -/
structure JobFile where
  /-- Whether the files of a directory are summed. -/
  sumDirectories : Bool
  /-- Whether hidden names are left out. -/
  skipHidden : Bool
  /-- The jobs, in order. -/
  jobs : List Job
  deriving DecidableEq, Repr

namespace JobFile

open Toml

/-- The jobs to do: those of the file, or the defaults if it has none. -/
def effectiveJobs (file : JobFile) : List Job :=
  if file.jobs.isEmpty then Job.defaults else file.jobs

/-! ## Decoding -/

/-- A part that may be left out.  If it is there, it has to be right. -/
def optional (part : Option Value) (decode : Value → Option α) : Option (Option α) :=
  match part with
  | none => some none
  | some v => (decode v).map some

/-- The strings in an array. -/
def strings? (v : Value) : Option (List String) := do (← v.items?).mapM Value.string?

/-- The job with the given parts. -/
def jobOfParts? (label extension exclude style : Option Value) : Option Job := do
  let label ← optional label Value.string?
  let extension ← (← extension).string?
  let exclude ← optional exclude strings?
  let style ← optional style Value.string?
  return ⟨label, extension, exclude.getD [], (style.map Style.ofSelector).getD default⟩

/-- Whether the values of all keys but the given ones can be held. -/
def othersFit (keys : List String) (es : Entries) : Bool :=
  Value.entriesFit (es.filter fun e => !keys.contains e.1)

/-- The job that a table describes. -/
def jobOfEntries? (es : Entries) : Option Job := do
  guard (othersFit ["label", "extension", "exclude", "style"] es)
  jobOfParts? (es.lookup "label") (es.lookup "extension") (es.lookup "exclude") (es.lookup "style")

/-- The job that a value describes. -/
def jobOfValue? : Value → Option Job
  | .table _ es => jobOfEntries? es
  | .array items => jobOfParts? items[0]? items[1]? items[2]? items[3]?
  | _ => none

/-- The jobs that a value describes. -/
def jobsOfValue? : Value → Option (List Job)
  | .array items => items.mapM jobOfValue?
  | .rows rows => rows.mapM jobOfEntries?
  | _ => none

/-- The job file that a table describes. -/
def ofEntries? (es : Entries) : Option JobFile := do
  guard (othersFit ["sum_dirs", "skip_hidden", "jobs"] es)
  let sumDirectories ← optional (es.lookup "sum_dirs") Value.boolean?
  let skipHidden ← optional (es.lookup "skip_hidden") Value.boolean?
  let jobs ← optional (es.lookup "jobs") jobsOfValue?
  return ⟨sumDirectories.getD false, skipHidden.getD false, jobs.getD []⟩

/-- The job file that a text describes. -/
def ofText? (text : String) : Option JobFile := do ofEntries? (← Toml.read? text)

/-- The job file that a text describes, or why there is none. -/
def parse (text : String) : Except Failure JobFile :=
  match ofText? text with
  | some file => .ok file
  | none => .error .jobText

/-- The job file that a path leads to. -/
def load (t : FileTree) (path : Path) : Except Failure JobFile :=
  match t.readText path with
  | .error cause => .error (.jobFile path cause)
  | .ok text =>
    match ofText? text with
    | some file => .ok file
    | none => .error (.invalidJobFile path)

end JobFile

end CommentDensity
