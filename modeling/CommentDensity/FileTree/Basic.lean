import CommentDensity.FileTree.Path

/-!
# CommentDensity.FileTree.Basic

A file system in memory: a tree of directories, files and symbolic links.

The entries of a directory stand in the order in which it lists them.
Permissions say what the program itself may do; whose they are does not
matter here.
-/

namespace CommentDensity

/-- What the program may do with a file or a directory. -/
structure Permission where
  /-- A file can be opened, a directory can be listed. -/
  read : Bool
  /-- What is in a directory can be reached. -/
  search : Bool
  deriving DecidableEq, Repr

/-- Everything is allowed. -/
def Permission.all : Permission := ⟨true, true⟩

/-- A file, a symbolic link, or a directory with its named entries. -/
inductive Node where
  | file (permission : Permission) (content : ByteArray)
  | link (target : Path)
  | directory (permission : Permission) (entries : List (Bytes × Node))

instance : Inhabited Node := ⟨.directory .all []⟩

namespace Node

/-- An empty directory. -/
def emptyDirectory : Node := .directory .all []

/-- Whether the node itself is a directory. -/
def isDirectory : Node → Bool
  | .directory .. => true
  | _ => false

/-- Whether the node itself is a symbolic link. -/
def isLink : Node → Bool
  | .link _ => true
  | _ => false

/-- The entries of a directory; nothing else has any. -/
def entries : Node → List (Bytes × Node)
  | .directory _ es => es
  | _ => []

/-- The same node with other permissions; a link has none of its own. -/
def withPermission (node : Node) (permission : Permission) : Node :=
  match node with
  | .file _ content => .file permission content
  | .directory _ es => .directory permission es
  | .link target => .link target

/-- The entries with one put in: in the place of an entry of its name, or
last. -/
def setEntry (name : Bytes) (node : Node) : List (Bytes × Node) → List (Bytes × Node)
  | [] => [(name, node)]
  | (n, old) :: es => if n = name then (n, node) :: es else (n, old) :: setEntry name node es

/-- The directory with an entry put in. -/
def insert (parent : Node) (name : Bytes) (child : Node) : Node :=
  match parent with
  | .directory permission es => .directory permission (setEntry name child es)
  | other => other

/-- The directory without an entry. -/
def erase (parent : Node) (name : Bytes) : Node :=
  match parent with
  | .directory permission es => .directory permission (es.filter (·.1 ≠ name))
  | other => other

/-- The entry that was put in is found. -/
theorem lookup_setEntry (name : Bytes) (node : Node) (es : List (Bytes × Node)) :
    (setEntry name node es).lookup name = some node := by
  induction es with
  | nil => simp [setEntry]
  | cons e es ih =>
    obtain ⟨n, old⟩ := e
    unfold setEntry
    split
    · next h => simp [h]
    · next h =>
      have : (name == n) = false := by simpa using fun e => h e.symm
      simp [List.lookup_cons, this, ih]

end Node

/-- A tree with the directory in which relative paths begin, given by its
names from the root. -/
structure FileTree where
  root : Node
  workingDirectory : List Bytes

namespace FileTree

/-- A tree that holds one empty directory, in which relative paths begin. -/
def onlyDirectory (name : Bytes) : FileTree where
  root := Node.emptyDirectory.insert name Node.emptyDirectory
  workingDirectory := [name]

end FileTree

end CommentDensity
