import CommentDensity.Survey.Walk
import CommentDensity.Proofs.Report.Outcome

/-!
# CommentDensity.Proofs.Survey.Recursion

The walk as a recursion over the tree.

`Survey.walk` keeps the directories it is in on a stack.  `visit` and
`visitEntries` are the same walk by recursion on nodes: a directory, then
each of its entries with all below it.  `walk_cons` says that the innermost
directory of a stack is finished before the next one is taken up, and
`traverse_eq` that a whole walk is the recursion from its start.
-/

namespace CommentDensity.Survey

mutual

/-- Visits a node, if it is a directory, and all below it; `path` leads to
the node and is `depth` steps long. -/
def visit (s : Survey) (t : FileTree) (path : Path) (depth : Nat) : Node → Report (List Measure)
  | .directory _ entries => do
    let found ← s.visitDirectory t path depth
    return found :: (← visitEntries s t path (depth + 1) entries)
  | .file .. => return []
  | .link _ => return []

/-- Visits what is in the directory `path`, but for what is left out for its
name. -/
def visitEntries (s : Survey) (t : FileTree) (path : Path) (depth : Nat) :
    List (Bytes × Node) → Report (List Measure)
  | [] => return []
  | (name, node) :: rest => do
    let found ← if s.hides name then pure [] else visit s t (path.join name) depth node
    return found ++ (← visitEntries s t path depth rest)

end

variable {s : Survey} {t : FileTree}

theorem walk_nil : s.walk t [] = pure [] := by rw [walk]

theorem walk_finished (directory : Path) (depth : Nat) (outer : List Level) :
    s.walk t (⟨directory, depth, []⟩ :: outer) = s.walk t outer := by rw [walk]

/-- One entry: passed over, or visited with the walk in it from then on. -/
theorem walk_entry (directory : Path) (depth : Nat) (name : Bytes) (node : Node)
    (rest : List (Bytes × Node)) (outer : List Level) :
    s.walk t (⟨directory, depth, (name, node) :: rest⟩ :: outer) =
      if s.hides name then s.walk t (⟨directory, depth, rest⟩ :: outer)
      else match node with
        | .directory _ entries => do
          let found ← s.visitDirectory t (directory.join name) depth
          return found :: (← s.walk t
            (⟨directory.join name, depth + 1, entries⟩ :: ⟨directory, depth, rest⟩ :: outer))
        | _ => s.walk t (⟨directory, depth, rest⟩ :: outer) := by
  cases node <;> rw [walk]
  all_goals simp

/-- The innermost directory is finished first, with all below its entries. -/
theorem walk_cons (directory : Path) (depth : Nat) (entries : List (Bytes × Node))
    (outer : List Level) :
    s.walk t (⟨directory, depth, entries⟩ :: outer) = (do
      let inside ← s.visitEntries t directory depth entries
      return inside ++ (← s.walk t outer)) := by
  -- on the entries that are left, those of the directories below included
  induction hn : sizeOf entries using Nat.strongRecOn
    generalizing directory depth entries outer with
  | _ n ih =>
    subst hn
    match entries with
    | [] => simp [walk_finished, visitEntries]
    | (name, node) :: rest =>
      have hrest : ∀ outer, s.walk t (⟨directory, depth, rest⟩ :: outer) = (do
          let inside ← s.visitEntries t directory depth rest
          return inside ++ (← s.walk t outer)) :=
        fun outer => ih (sizeOf rest) (by rw [List.cons.sizeOf_spec]; omega) directory depth rest
          outer rfl
      rw [walk_entry, visitEntries]
      by_cases hh : s.hides name
      · simp [hh, hrest]
      · cases node with
        | file permission content => simp [hh, hrest, visit]
        | link target => simp [hh, hrest, visit]
        | directory permission inside =>
          have hsize :
              sizeOf inside < sizeOf ((name, Node.directory permission inside) :: rest) := by
            rw [List.cons.sizeOf_spec, Prod.mk.sizeOf_spec, Node.directory.sizeOf_spec]
            omega
          have hinside := ih (sizeOf inside) hsize (directory.join name) (depth + 1) inside
            (⟨directory, depth, rest⟩ :: outer) rfl
          simp [hh, hrest, hinside, visit]

theorem walk_singleton (directory : Path) (depth : Nat) (entries : List (Bytes × Node)) :
    s.walk t [⟨directory, depth, entries⟩] = s.visitEntries t directory depth entries := by
  simp [walk_cons, walk_nil]

/-- The walk is the recursion from its start.  A link at the start is no
directory itself, but what is in the directory it leads to is visited. -/
theorem traverse_eq (start : Path) :
    s.traverse t start = (do
      match ← Report.require (.walk start) (t.entry start) with
      | .link _ => do
        match ← Report.require (.walk start) (t.target start) with
        | .directory .. =>
          s.visitEntries t start 1 (← Report.require (.walk start) (t.list start))
        | _ => return []
      | node => s.visit t start 0 node) := by
  unfold traverse
  refine bind_congr fun node => ?_
  cases node with
  | file permission content => simp [visit]
  | directory permission entries => simp [visit, walk_singleton]
  | link target =>
    refine bind_congr fun node => ?_
    cases node with
    | file permission content => rfl
    | link target => rfl
    | directory permission entries => exact bind_congr fun listed => walk_singleton start 1 listed

end CommentDensity.Survey
