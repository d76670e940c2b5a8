import CommentDensity.FileTree.Resolve

/-!
# CommentDensity.FileTree.Edit

Changing a tree.

Changes are made with all permissions: they prepare what the program then
looks at.  Directories on the way to a new entry are made if they are
missing.  Writing a file goes through links; removing and renaming act on a
link itself.
-/

namespace CommentDensity.FileTree

/-- Looks a path up with all permissions. -/
def reach (t : FileTree) (followLast : Bool) (path : Path) : Except IoError Place :=
  t.locate ⟨followLast, true⟩ path

/-- The path of the directory that holds the last part of a path, and that
part. -/
def splitLast (path : Path) : Path × Bytes :=
  let stripped := (path.bytes.reverse.dropWhile (· = Path.slash)).reverse
  let last := (stripped.reverse.takeWhile (· ≠ Path.slash)).reverse
  let front := stripped.take (stripped.length - last.length)
  (if front.isEmpty then .ofString "." else ⟨front⟩, last)

/-- Puts an entry into the directory that `parent` leads to, if an entry can be
called so. -/
def insertAt (t : FileTree) (parent : Path) (name : Bytes) (node : Node) :
    Except IoError FileTree := do
  let place ← t.reach true parent
  if !place.node.isDirectory then .error .notADirectory
  else if name.IsEntryName then
    .ok { t with root := { place with node := place.node.insert name node }.rebuilt }
  else .error .noSuchEntry

/-- The paths that end with each part of a path in turn. -/
def fronts (path : Path) : List Path :=
  let cut := (List.range path.bytes.length).filter fun i =>
    path.bytes[i]? = some Path.slash ∧ 0 < i ∧ path.bytes[i - 1]? ≠ some Path.slash
  cut.map (fun i => ⟨path.bytes.take i⟩) ++ [path]

/-- Makes a directory, and those on the way to it, where there is none. -/
def makeDirectory (t : FileTree) (path : Path) : Except IoError FileTree :=
  (fronts path).foldlM
    (fun t front =>
      match t.reach true front with
      | .ok place => if place.node.isDirectory then .ok t else .error .notADirectory
      | .error .noSuchEntry =>
        let (parent, name) := splitLast front
        t.insertAt parent name Node.emptyDirectory
      | .error e => .error e)
    t

/-- Makes a symbolic link. -/
def makeLink (t : FileTree) (path target : Path) : Except IoError FileTree := do
  let (parent, name) := splitLast path
  (← t.makeDirectory parent).insertAt parent name (.link target)

/-- Writes a file, in the place that `path` leads to through at most `links`
links. -/
def writeThrough (t : FileTree) (content : ByteArray) : (links : Nat) → Path →
    Except IoError FileTree
  | 0, _ => throw .tooManyLinks
  | links + 1, path => do
    let (parent, name) := splitLast path
    match t.reach false path with
    | .error _ => t.insertAt parent name (.file .all content)
    | .ok place =>
      match place.node with
      | .link target =>
        writeThrough t content links
          (if target.isAbsolute then target else parent.join target.bytes)
      | .file permission _ => t.insertAt parent name (.file permission content)
      | .directory .. => throw .isADirectory

/-- Writes a file, making the directories on the way to it. -/
def writeFile (t : FileTree) (path : Path) (content : ByteArray) : Except IoError FileTree := do
  (← t.makeDirectory (splitLast path).1).writeThrough content maxLinks path

/-- Says what the program may do with what a path leads to. -/
def setPermission (t : FileTree) (path : Path) (permission : Permission) :
    Except IoError FileTree := do
  let place ← t.reach true path
  return { t with root := { place with node := place.node.withPermission permission }.rebuilt }

/-- Removes what a path names, a directory with all that is in it. -/
def remove (t : FileTree) (path : Path) : Except IoError FileTree := do
  match (← t.reach false path).above with
  | [] => throw .permissionDenied
  | (name, parent) :: above =>
    return { t with root := Place.rebuilt ⟨parent.erase name, above⟩ }

/-- Gives what one path names another name, in the place of what had it. -/
def rename (t : FileTree) (source destination : Path) : Except IoError FileTree := do
  let node := (← t.reach false source).node
  let (parent, name) := splitLast destination
  (← t.remove source).insertAt parent name node

end CommentDensity.FileTree
