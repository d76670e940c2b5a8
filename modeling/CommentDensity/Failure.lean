import CommentDensity.FileTree.Path
import CommentDensity.FileTree.IoError
import CommentDensity.Number.Digits

/-!
# CommentDensity.Failure

Why a run fails.

A failure is told as a chain, from what was attempted to what went wrong.
`Failure.message` writes the chain on one line, `Failure.diagnostic` as it
stands on the error output.  A failure of the job file's syntax ends in an
explanation that is not part of this library: the chain stops before it.
-/

namespace CommentDensity

/-- Why a run fails. -/
inductive Failure where
  /-- The report could not be written. -/
  | output
  /-- A directory could not be listed. -/
  | list (directory : Path) (cause : IoError)
  /-- The walk could not start, or not enter the directory it starts in. -/
  | walk (start : Path) (cause : IoError)
  /-- The job file could not be read. -/
  | jobFile (path : Path) (cause : IoError)
  /-- A text is no job file. -/
  | jobText
  /-- The text of the job file is no job file. -/
  | invalidJobFile (path : Path)
  /-- A job failed in the directory it was run on. -/
  | scan (directory : Path) (cause : Failure)
  deriving DecidableEq, Repr

/-- Whose fault a failure is. -/
inductive FailureKind where
  /-- The walk through the directories. -/
  | walk
  /-- The text of the job file. -/
  | jobText
  /-- Files, directories or the output. -/
  | io
  deriving DecidableEq, Repr

namespace Failure

/-- Whose fault it is. -/
def kind : Failure → FailureKind
  | .walk .. => .walk
  | .jobText => .jobText
  | .invalidJobFile _ => .jobText
  | .scan _ cause => cause.kind
  | _ => .io

/-- What was attempted and what went wrong, outermost first.  A walk tells
its cause with the path and then alone. -/
def chain : Failure → List String
  | .output => [IoError.outputFull.message]
  | .list directory cause => ["Failed to read directory: " ++ directory.display, cause.message]
  | .walk start cause =>
    ["Failed to walk directory: " ++ start.display,
      "IO error for operation on " ++ start.display ++ ": " ++ cause.message,
      cause.message]
  | .jobFile path cause => ["Failed to read job file: " ++ path.display, cause.message]
  | .jobText => ["Failed to parse job file"]
  | .invalidJobFile path => ["Invalid job file: " ++ path.display, "Failed to parse job file"]
  | .scan directory cause => ("Failed to scan directory: " ++ directory.display) :: cause.chain

/-- Whether an explanation of the syntax follows the chain. -/
def isOpenEnded (f : Failure) : Bool := f.kind == .jobText

/-- The chain on one line. -/
def message (f : Failure) : String := ": ".intercalate f.chain

/-! ## On the error output -/

/-- A cause, set in under `label`; its further lines are set in as far. -/
def setIn (label cause : String) : String :=
  let margin := String.ofList (List.replicate label.length ' ')
  label ++ ("\n" ++ margin).intercalate (cause.splitOn "\n")

/-- The label of the `n`-th cause of several. -/
def numbered (n : Nat) : String :=
  let digits := decimalDigits n
  String.ofList (List.replicate (5 - digits.length) ' ' ++ digits) ++ ": "

/-- A failure as it stands on the error output.  A single cause has no
number.  An open end is left where the explanation would begin. -/
def diagnostic (f : Failure) : String :=
  match f.chain with
  | [] => ""
  | [attempt] =>
    if f.isOpenEnded then "Error: " ++ attempt ++ "\n\nCaused by:\n    "
    else "Error: " ++ attempt ++ "\n"
  | [attempt, cause] =>
    if f.isOpenEnded then
      "Error: " ++ attempt ++ "\n\nCaused by:\n" ++ setIn (numbered 0) cause ++ "\n" ++ numbered 1
    else "Error: " ++ attempt ++ "\n\nCaused by:\n" ++ setIn "    " cause ++ "\n"
  | attempt :: causes =>
    let told := causes.zipIdx.map fun (cause, n) => setIn (numbered n) cause ++ "\n"
    "Error: " ++ attempt ++ "\n\nCaused by:\n" ++ String.join told
      ++ if f.isOpenEnded then numbered causes.length else ""

end Failure

end CommentDensity
