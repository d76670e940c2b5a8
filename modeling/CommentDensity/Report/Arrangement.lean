import CommentDensity.Measure
import CommentDensity.Report.Tally
import CommentDensity.Text.Order
import CommentDensity.Text.Split

/-!
# CommentDensity.Report.Arrangement

Reports in an order of their own.

A report follows the order in which directories list their entries, which
need not be the same twice.  Two reports are compared after they are
arranged:

* A directory line and the tree lines in front of it are a block.  In a
  block the files, which stand between its heading and its last line, are
  sorted.
* The blocks of a job are sorted by the parts of the directories' paths.
* Summaries stay where they are.  Lines that belong to no block stay behind
  the blocks around them.
-/

namespace CommentDensity

/-- Tree lines with the directory line they end in. -/
structure Block where
  /-- The parts of the directory's path. -/
  parts : List (List Char)
  lines : List (List Char)
  deriving DecidableEq, Repr

namespace Block

/-- The block of a directory with its files sorted. -/
def of (name : List Char) (lines : List (List Char)) : Block where
  parts := split '/' name
  lines := match lines with
    | [] => []
    | first :: rest => first :: (rest.dropLast.mergeSort textLe ++ rest.getLast?.toList)

/-- Blocks in the order of their directories, then of their lines. -/
def le (a b : Block) : Bool :=
  if a.parts = b.parts then textsLe a.lines b.lines else textsLe a.parts b.parts

end Block

/-- A report that is being arranged. -/
structure Arrangement where
  /-- The lines that are in place, the last first. -/
  placed : List (List Char)
  /-- The blocks since the last summary. -/
  blocks : List Block
  /-- The lines since the last block or summary, the last first. -/
  loose : List (List Char)

namespace Arrangement

/-- Puts the blocks, and the lines behind them, in place. -/
def settle (a : Arrangement) : Arrangement :=
  let lines := (a.blocks.mergeSort Block.le).flatMap Block.lines
  ⟨a.loose ++ (lines.reverse ++ a.placed), [], []⟩

/-- Takes a line. -/
def take (a : Arrangement) (line : List Char) : Arrangement :=
  match Tally.ofLine? line with
  | some ⟨.directory, name, _, _⟩ =>
    { a with blocks := .of name (line :: a.loose).reverse :: a.blocks, loose := [] }
  | some ⟨.summary, _, _, _⟩ => { a.settle with placed := line :: a.settle.placed }
  | none => { a with loose := line :: a.loose }

end Arrangement

/-- The lines of a report, arranged. -/
def arrangedLines (lines : List (List Char)) : List (List Char) :=
  (lines.foldl Arrangement.take ⟨[], [], []⟩).settle.placed.reverse

/-- A report, arranged.  The end of its last line, if it has one, stays at
the end. -/
def arranged (report : String) : String :=
  let lines := split '\n' report.toList
  if lines.getLast? = some [] then
    String.ofList ((arrangedLines lines.dropLast).flatMap fun line => line ++ ['\n'])
  else String.ofList (List.intercalate ['\n'] (arrangedLines lines))

/-- Measures in the order of the parts of their paths. -/
def arrangedMeasures (ms : List Measure) : List Measure :=
  let parts (m : Measure) := split '/' m.root.display.toList
  ms.mergeSort fun a b => textsLe (parts a) (parts b)

end CommentDensity
