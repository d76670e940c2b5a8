import CommentDensity.Survey.Directory

/-!
# CommentDensity.Survey.Walk

The walk through a tree of directories.

Every directory is reported before those in it, and those in it in listing
order.  Links are followed at the start alone: a link there is walked into,
but is itself no directory, so what it leads to has no measure of its own.

The walk keeps the directories it is in, the innermost first, each with the
entries it has still to meet there (`Level`).  It goes down the tree of
nodes, which ends it; what a directory shows of itself — its listing, and
what its entries lead to — is asked of the tree by path, with permissions
and links.
-/

namespace CommentDensity.Survey

/-- Lists a directory and reports the files in it that are counted, under
their heading where the report shows a tree. -/
def visitDirectory (s : Survey) (t : FileTree) (directory : Path) (depth : Nat) :
    Report Measure := do
  let entries ← Report.require (.list directory) (t.list directory)
  let files := s.selected t directory entries
  if s.showTree && !files.isEmpty then
    Report.line (.heading depth directory.shownName)
    for name in files do
      Report.line (.file (depth + 1) name)
  t.reportDirectory s.style s.aggregation directory files

/-- A directory that the walk is in: its path, how many steps lead to its
entries, and the entries that are still to be met. -/
structure Level where
  directory : Path
  depth : Nat
  entries : List (Bytes × Node)

/-- Goes on in the directories that the walk is in, the innermost first.  An
entry that is left out for its name is passed over with all below it; of the
others, a directory is visited, and then the walk is in it. -/
def walk (s : Survey) (t : FileTree) : List Level → Report (List Measure)
  | [] => return []
  | ⟨_, _, []⟩ :: outer => walk s t outer
  | ⟨directory, depth, (name, node) :: rest⟩ :: outer =>
    if s.hides name then walk s t (⟨directory, depth, rest⟩ :: outer)
    else match node with
      | .directory _ entries => do
        let found ← s.visitDirectory t (directory.join name) depth
        return found :: (← walk s t
          (⟨directory.join name, depth + 1, entries⟩ :: ⟨directory, depth, rest⟩ :: outer))
      | _ => walk s t (⟨directory, depth, rest⟩ :: outer)
termination_by levels => levels.foldr (fun l left => sizeOf l.entries + 1 + left) 0

/-- Walks the tree that `start` leads to.  The measures of the directories
visited come in the order of the visits. -/
def traverse (s : Survey) (t : FileTree) (start : Path) : Report (List Measure) := do
  match ← Report.require (.walk start) (t.entry start) with
  | .directory _ entries => do
    let found ← s.visitDirectory t start 0
    return found :: (← s.walk t [⟨start, 1, entries⟩])
  | .link _ => do
    match ← Report.require (.walk start) (t.target start) with
    | .directory .. =>
      s.walk t [⟨start, 1, ← Report.require (.walk start) (t.list start)⟩]
    | _ => return []
  | .file .. => return []

/-- The total over the tree that `start` leads to. -/
def scan (s : Survey) (t : FileTree) (start : Path) : Report Measure :=
  return .total start (← s.traverse t start)

end CommentDensity.Survey
