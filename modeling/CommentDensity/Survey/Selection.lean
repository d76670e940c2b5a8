import CommentDensity.Comment.Style
import CommentDensity.FileTree.Resolve

/-!
# CommentDensity.Survey.Selection

What a survey looks for and how it tells what it finds.

A name is picked when it ends in the extension, byte for byte — a suffix of
any kind, so `.fs` does not pick `a.fsx` and an empty extension picks
everything — and is none of the excluded names.
-/

namespace CommentDensity

/-- How the files of one directory make its measure. -/
inductive Aggregation where
  /-- The last file stands for the directory. -/
  | lastFile
  /-- Lines and comments are summed over the files. -/
  | sum
  deriving DecidableEq, Repr, Inhabited

/-- The aggregation that a switch asks for. -/
def Aggregation.ofSwitch (sum : Bool) : Aggregation := if sum then .sum else .lastFile

/-- Which files are counted, and how. -/
structure Survey where
  /-- The suffix of the names that are picked. -/
  extension : String
  /-- The names that are not picked. -/
  exclude : List String
  /-- The comments that are counted. -/
  style : Style
  /-- How files make a directory's measure. -/
  aggregation : Aggregation
  /-- Whether names with a dot in front are left out, directories included. -/
  skipHidden : Bool
  /-- Whether the report shows the files as a tree. -/
  showTree : Bool
  deriving DecidableEq, Repr

/-- Whether a name ends in the extension and is not excluded. -/
def isMatchingName (name : Bytes) (extension : String) (exclude : List String) : Bool :=
  (Bytes.ofString extension).isSuffixOf name &&
    !exclude.any fun excluded => Bytes.ofString excluded == name

namespace Survey

/-- Whether an entry is left out for its name alone, below the start. -/
def hides (s : Survey) (name : Bytes) : Bool := s.skipHidden && name.isHidden

/-- Whether the survey counts the entry `name` of a directory.  What leads to
a directory is no file, and neither is it examined any further. -/
def selects (s : Survey) (t : FileTree) (directory : Path) (name : Bytes) : Bool :=
  !t.isDirectory (directory.join name) && !s.hides name &&
    isMatchingName name s.extension s.exclude

/-- The files of a directory that are counted, in listing order. -/
def selected (s : Survey) (t : FileTree) (directory : Path) (entries : List (Bytes × Node)) :
    List Bytes :=
  (entries.map (·.1)).filter (s.selects t directory)

end Survey

end CommentDensity
