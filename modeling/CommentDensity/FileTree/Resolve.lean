import CommentDensity.FileTree.Basic
import CommentDensity.FileTree.IoError

/-!
# CommentDensity.FileTree.Resolve

Looking paths up, and what can be asked of a path.

A `Place` is a node together with the directories it was reached through,
so that `..` is a step back.  A path is looked up step by step: every step
needs a directory that may be searched, and a symbolic link is replaced by
the steps of its target.  A look-up follows at most `maxLinks` links, which
ends it on links that lead to themselves; the number of links left is the
outer recursion and the steps left are the inner one.

Only a link that the *last* step reaches can be met without being followed.
A trailing slash is a step of its own (`Path.Step.directory`), so `link/`
is always followed.
-/

namespace CommentDensity

/-- A node, with the directories above it, nearest first, each with the name
of the entry that leads down. -/
structure Place where
  node : Node
  above : List (Bytes × Node)

namespace Place

/-- The directory above; the root is above itself. -/
def up (p : Place) : Place :=
  match p.above with
  | [] => p
  | (_, parent) :: above => ⟨parent, above⟩

/-- The entry `name`, which is `child`. -/
def enter (p : Place) (name : Bytes) (child : Node) : Place :=
  ⟨child, (name, p.node) :: p.above⟩

/-- The root above a place. -/
def root (p : Place) : Place :=
  match p.above.getLast? with
  | some (_, r) => ⟨r, []⟩
  | none => p

/-- The root of the tree in which the place holds its node. -/
def rebuilt (p : Place) : Node :=
  p.above.foldl (fun node (name, parent) => parent.insert name node) p.node

end Place

/-- How a path is looked up. -/
structure Lookup where
  /-- Whether a link at the last step is followed. -/
  followLast : Bool
  /-- Whether permissions are left aside. -/
  privileged : Bool
  deriving DecidableEq, Repr

namespace FileTree

/-- The longest name that can be looked up, in bytes. -/
def maxName : Nat := 255

/-- The longest path that can be looked up, in bytes. -/
def maxPath : Nat := 4095

/-- How many links one look-up follows. -/
def maxLinks : Nat := 40

/-- What a step meets. -/
inductive Met where
  /-- A place, from which the look-up goes on. -/
  | place (q : Place)
  /-- The entry `name`, a link. -/
  | link (name : Bytes) (target : Path)

/-- One step: it needs a directory, and one that may be searched unless the
step only asks for a directory. -/
def meet (how : Lookup) (p : Place) (step : Path.Step) : Except IoError Met :=
  match p.node with
  | .directory permission entries =>
    match step with
    | .directory => .ok (.place p)
    | step =>
      if !permission.search && !how.privileged then .error .permissionDenied
      else match step with
        | .name n =>
          if maxName < n.length then .error .nameTooLong
          else match entries.lookup n with
            | none => .error .noSuchEntry
            | some (.link target) => .ok (.link n target)
            | some child => .ok (.place (p.enter n child))
        | .up => .ok (.place p.up)
        | _ => .ok (.place p)
  | _ => .error .notADirectory

/-- The steps of a look-up up to the first link it has to follow, which
`onLink` then takes with the steps that are left. -/
def walkSteps (how : Lookup) (onLink : Place → Path → List Path.Step → Except IoError Place) :
    Place → List Path.Step → Except IoError Place
  | p, [] => .ok p
  | p, step :: rest =>
    match meet how p step with
    | .error e => .error e
    | .ok (.place q) => walkSteps how onLink q rest
    | .ok (.link name target) =>
      if rest.isEmpty && !how.followLast then .ok (p.enter name (.link target))
      else onLink p target rest

/-- A look-up that may still follow `links` links.  A link's target is looked
up from the directory that holds it, or from the root. -/
def walk (how : Lookup) : (links : Nat) → Place → List Path.Step → Except IoError Place
  | 0 => walkSteps how fun _ _ _ => .error .tooManyLinks
  | links + 1 => walkSteps how fun p target rest =>
    walk how links (if target.isAbsolute then p.root else p) (target.steps ++ rest)

/-- The directory in which relative paths begin. -/
def here (t : FileTree) : Place :=
  t.workingDirectory.foldl
    (fun p name => match p.node.entries.lookup name with
      | some child => p.enter name child
      | none => p)
    ⟨t.root, []⟩

/-- Looks a path up. -/
def locate (t : FileTree) (how : Lookup) (path : Path) : Except IoError Place :=
  if path.bytes.contains 0 then .error .nulInPath
  else if path.bytes.isEmpty then .error .noSuchEntry
  else if maxPath < path.bytes.length then .error .nameTooLong
  else walk how maxLinks (if path.isAbsolute then ⟨t.root, []⟩ else t.here) path.steps

/-! ## Questions -/

/-- What a path leads to. -/
def target (t : FileTree) (path : Path) : Except IoError Node :=
  return (← t.locate ⟨true, false⟩ path).node

/-- What a path names: a link in the last place is not followed. -/
def entry (t : FileTree) (path : Path) : Except IoError Node :=
  return (← t.locate ⟨false, false⟩ path).node

/-- Whether a path leads to a directory; no, if that cannot be found out. -/
def isDirectory (t : FileTree) (path : Path) : Bool :=
  match t.target path with
  | .ok node => node.isDirectory
  | .error _ => false

/-- The entries of the directory that a path leads to, in listing order. -/
def list (t : FileTree) (path : Path) : Except IoError (List (Bytes × Node)) := do
  match ← t.target path with
  | .directory permission entries =>
    if permission.read then return entries else throw .permissionDenied
  | _ => throw .notADirectory

/-- The text of the file that a path leads to. -/
def readText (t : FileTree) (path : Path) : Except IoError String := do
  match ← t.target path with
  | .file permission content =>
    if !permission.read then throw .permissionDenied
    match String.fromUTF8? content with
    | some text => return text
    | none => throw .notUtf8
  | .directory permission _ =>
    if permission.read then throw .isADirectory else throw .permissionDenied
  | .link _ => throw .noSuchEntry

end FileTree

end CommentDensity
