import CommentDensity.Comment.Count
import CommentDensity.Text.Newline
import CommentDensity.Report.Sink
import CommentDensity.Survey.Selection

/-!
# CommentDensity.Survey.Directory

Measuring files and single directories.

A file that cannot be read, or is not UTF-8, measures zero lines and zero
comments; it never fails a survey.  Its line ends are normalized before
anything is counted.
-/

namespace CommentDensity

/-- The measure of a text: its line ends are normalized, then its lines and
comments are counted. -/
def Measure.ofText (style : Style) (root : Path) (text : String) : Measure :=
  let cs := Newline.normalize text.toList
  ⟨.ofNat (Newline.lineCount cs), .ofNat (style.count cs), root⟩

/-- The measure of the file that a path leads to. -/
def FileTree.measureFile (t : FileTree) (style : Style) (path : Path) : Measure :=
  match t.readText path with
  | .ok text => .ofText style path text
  | .error _ => .empty path

/-- The measure of a directory from those of its files. -/
def Aggregation.combine (aggregation : Aggregation) (directory : Path) (files : List Measure) :
    Measure :=
  match aggregation with
  | .sum => .total directory files
  | .lastFile =>
    match files.getLast? with
    | some m => { m with root := directory }
    | none => .empty directory

/-- The measure of the named files in a directory. -/
def FileTree.measureDirectory (t : FileTree) (style : Style) (aggregation : Aggregation)
    (directory : Path) (files : List Bytes) : Measure :=
  aggregation.combine directory (files.map fun name => t.measureFile style (directory.join name))

/-- Measures the named files in a directory and reports it, unless there are
none. -/
def FileTree.reportDirectory (t : FileTree) (style : Style) (aggregation : Aggregation)
    (directory : Path) (files : List Bytes) : Report Measure := do
  let found := t.measureDirectory style aggregation directory files
  if !files.isEmpty then Report.line (.directory found)
  return found

/-! ## Lemmas -/

/-- Without files nothing is found. -/
@[simp] theorem FileTree.measureDirectory_nil (t : FileTree) (style : Style)
    (aggregation : Aggregation) (directory : Path) :
    t.measureDirectory style aggregation directory [] = .empty directory := by
  cases aggregation <;> rfl

/-- A directory's measure stands at the directory. -/
theorem FileTree.root_measureDirectory (t : FileTree) (style : Style) (aggregation : Aggregation)
    (directory : Path) (files : List Bytes) :
    (t.measureDirectory style aggregation directory files).root = directory := by
  unfold measureDirectory Aggregation.combine
  cases aggregation with
  | sum => rfl
  | lastFile => dsimp only; split <;> rfl

end CommentDensity
