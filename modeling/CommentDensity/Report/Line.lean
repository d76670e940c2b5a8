import CommentDensity.Measure

/-!
# CommentDensity.Report.Line

The lines of a report.

```
--- sub                                  a directory of the tree, with its depth
------ a.fs                              a file of the tree
root/sub comments:3 lines:30 ratio:0.10  what was found in a directory
FSharp lines:30 comments:3 ratio:0.1     what a job found
```

A directory line names comments first and a summary lines first; that is
how the two are told apart (`CommentDensity.Report.Tally`).
-/

namespace CommentDensity

/-- A line of a report. -/
inductive Line where
  /-- A directory that `depth` steps lead to. -/
  | heading (depth : Nat) (name : Bytes)
  /-- A file of the directory above it. -/
  | file (depth : Nat) (name : Bytes)
  /-- What was found in a directory. -/
  | directory (found : Measure)
  /-- What was found by a job. -/
  | summary (label : String) (found : Measure)
  deriving DecidableEq, Repr

namespace Line

/-- Three dashes for each step, and the name. -/
def indented (depth : Nat) (name : Bytes) : String :=
  String.join (List.replicate depth "---") ++ " " ++ name.lossy

/-- A count after its name. -/
def field (name : String) (c : Count) : String :=
  " " ++ name ++ ":" ++ String.ofList (decimalDigits c.toNat)

/-- The line without its end. -/
def text : Line → String
  | .heading depth name => indented depth name
  | .file depth name => indented depth name
  | .directory found =>
    found.root.display ++ field "comments" found.comments ++ field "lines" found.lines
      ++ " ratio:" ++ String.ofList found.ratio.hundredths
  | .summary label found =>
    label ++ field "lines" found.lines ++ field "comments" found.comments
      ++ " ratio:" ++ found.ratioText

/-- The bytes of the line, with its end. -/
def bytes (line : Line) : Bytes := .ofString (line.text ++ "\n")

end Line

end CommentDensity
