import CommentDensity.Command.Run
import CommentDensity.FileTree.Edit

/-!
# CommentDensity.Main

The command line.

What a run may look at — the directory it is to survey and the job file — is
read from the host into a tree, and the run is then one on that tree.
-/

namespace CommentDensity.Host

/-- What the host has at an entry, with all that is below it.  What cannot
be read is there without permission.  Of a link it matters only whether it
leads to a directory, to a file, or nowhere. -/
partial def node (entry : IO.FS.DirEntry) : IO Node := do
  let path := entry.path
  let file : IO Node := do
    try return .file .all (← IO.FS.readBinFile path)
    catch _ => return .file ⟨false, false⟩ .empty
  match (← path.symlinkMetadata).type with
  | .dir =>
    let entries ← try pure (some (← path.readDir)) catch _ => pure none
    match entries with
    | none => return .directory ⟨false, true⟩ []
    | some entries =>
      let inside ← entries.toList.mapM fun e => return (Bytes.ofString e.fileName, ← node e)
      return .directory .all inside
  | .symlink =>
    let leadsTo ← try pure (some (← path.metadata).type) catch _ => pure none
    match leadsTo with
    | some .dir => return .link (.ofString "/")
    | some _ => file
    | none => return .file ⟨false, false⟩ .empty
  | _ => file

/-- The tree with what the host has at a path, and on the way to it. -/
def add (t : FileTree) (path : Path) : IO FileTree := do
  let mut t := t
  for front in FileTree.fronts path do
    let entry : IO.FS.DirEntry := ⟨".", front.display⟩
    try
      let real := Path.ofString (← IO.FS.realPath entry.path).toString
      let (parent, name) := FileTree.splitLast real
      t := (t.makeDirectory parent).toOption.getD t
      if (← entry.path.metadata).type == .dir then
        t := (t.makeDirectory real).toOption.getD t
      if (← entry.path.symlinkMetadata).type == .symlink then
        t := (t.makeLink front real).toOption.getD t
      if front = path then
        let content ← node ⟨".", real.display⟩
        t := (t.insertAt parent name content).toOption.getD t
    catch _ => pure ()
  return t

/-- The tree of what a run may look at. -/
def tree (words : List Bytes) : IO FileTree := do
  let here := Path.ofString (← IO.currentDir).toString
  let empty : FileTree := ⟨.emptyDirectory, []⟩
  let t : FileTree := { (empty.makeDirectory here).toOption.getD empty with
    workingDirectory := here.parts }
  match Command.Arguments.parse words with
  | .error _ => return t
  | .ok a => (a.directory :: a.config.toList).foldlM add t

end CommentDensity.Host

/-- Does what the words of the command line ask for. -/
def main (args : List String) : IO UInt32 := do
  let words := args.map CommentDensity.Bytes.ofString
  let outcome := CommentDensity.Command.execute (← CommentDensity.Host.tree words) words
  (← IO.getStdout).write ⟨outcome.output.toArray⟩
  IO.eprint outcome.diagnostic
  return outcome.exitCode.toUInt32
