import CommentDensity.Comment.Style

/-!
# CommentDensity.Job

Jobs: which files to count, in which style, and what to call the result.
-/

namespace CommentDensity

/-- What to count under one summary. -/
structure Job where
  /-- What the summary is called, if not after the extension. -/
  label : Option String
  /-- The suffix of the names that are counted. -/
  extension : String
  /-- The names that are not counted. -/
  exclude : List String
  /-- The comments that are counted. -/
  style : Style
  deriving DecidableEq, Repr

namespace Job

/-- What the summary is called. -/
def shownLabel (job : Job) : String := job.label.getD job.extension

/-- The jobs that are done when none are asked for. -/
def defaults : List Job :=
  [⟨some "FSharp", ".fs", ["AssemblyInfo.fs"], .fsharp⟩,
    ⟨some "CSharp", ".cs", ["AssemblyInfo.cs"], .csharp⟩]

end Job

end CommentDensity
