import CommentDensity.Proofs.FileTree.Lookup
import CommentDensity.Proofs.Survey.Recursion

/-!
# CommentDensity.Proofs.Survey.Results

What a walk that succeeds has found.

`directories` is the order of the walk without its reports: a directory,
then all that is below each of its entries, in listing order.  A walk that
succeeds has a measure for each of them, in that order, and could list each
of them (`visit_eq_ok`, `traverse_eq_ok`).
-/

namespace CommentDensity.Survey

/-! ## The order of the walk -/

mutual

/-- The directories at a node and below it, each before those in it; `path`
leads to the node. -/
def directories (s : Survey) (path : Path) : Node → List Path
  | .directory _ entries => path :: directoriesIn s path entries
  | .file .. => []
  | .link _ => []

/-- The directories at and below the entries of the directory `path`, in
listing order, but for what is left out for its name. -/
def directoriesIn (s : Survey) (path : Path) : List (Bytes × Node) → List Path
  | [] => []
  | (name, node) :: rest =>
    (if s.hides name then [] else directories s (path.join name) node) ++ directoriesIn s path rest

end

/-- The directories that a walk from `start` visits.  A link there is no
directory itself, but what is in the directory it leads to is visited. -/
def walkOrder (s : Survey) (t : FileTree) (start : Path) : List Path :=
  match t.entry start with
  | .ok (.link _) =>
    match t.target start with
    | .ok (.directory _ entries) => s.directoriesIn start entries
    | _ => []
  | .ok node => s.directories start node
  | .error _ => []

/-! ## What is found in a directory -/

/-- The files of a directory that are counted, in listing order. -/
def files (s : Survey) (t : FileTree) (directory : Path) : List Bytes :=
  match t.list directory with
  | .ok entries => s.selected t directory entries
  | .error _ => []

/-- The measure of a directory. -/
def found (s : Survey) (t : FileTree) (directory : Path) : Measure :=
  t.measureDirectory s.style s.aggregation directory (s.files t directory)

@[simp] theorem root_found (s : Survey) (t : FileTree) (directory : Path) :
    (s.found t directory).root = directory :=
  t.root_measureDirectory s.style s.aggregation directory (s.files t directory)

variable {s : Survey} {t : FileTree} {sink sink' : Sink}

/-- Reporting a directory gives its measure, whatever is written. -/
theorem reportDirectory_eq_ok {style : Style} {aggregation : Aggregation} {directory : Path}
    {files : List Bytes} {m : Measure}
    (h : t.reportDirectory style aggregation directory files sink = (.ok m, sink')) :
    m = t.measureDirectory style aggregation directory files := by
  unfold FileTree.reportDirectory at h
  split at h
  · obtain ⟨_, _, _, h⟩ := Report.bind_eq_ok.mp h
    cases h
    rfl
  · cases h
    rfl

/-- A directory that was visited could be listed, and its measure was found. -/
theorem visitDirectory_eq_ok {directory : Path} {depth : Nat} {m : Measure}
    (h : s.visitDirectory t directory depth sink = (.ok m, sink')) :
    m = s.found t directory ∧ ∃ entries, t.list directory = .ok entries := by
  obtain ⟨entries, _, hrequire, hreport⟩ := Report.bind_eq_ok.mp h
  obtain ⟨hlist, rfl⟩ := Report.require_eq_ok.mp hrequire
  have hfiles : s.files t directory = s.selected t directory entries := by rw [files, hlist]
  refine ⟨?_, entries, hlist⟩
  rw [found, hfiles]
  split at hreport
  · obtain ⟨_, _, _, hlines⟩ := Report.bind_eq_ok.mp hreport
    obtain ⟨_, _, _, hlast⟩ := Report.bind_eq_ok.mp hlines
    exact reportDirectory_eq_ok hlast
  · exact reportDirectory_eq_ok hreport

/-! ## What is found by a walk -/

/-- The measures `ms` are those of the directories `ds`, all of which can be
listed. -/
structure Measured (s : Survey) (t : FileTree) (ds : List Path) (ms : List Measure) : Prop where
  eq_map : ms = ds.map (s.found t)
  listed : ∀ d ∈ ds, ∃ entries, t.list d = .ok entries

theorem Measured.nil : s.Measured t [] [] := ⟨rfl, fun d hd => by cases hd⟩

theorem Measured.cons {d : Path} {ds : List Path} {ms : List Measure}
    (hd : ∃ entries, t.list d = .ok entries) (h : s.Measured t ds ms) :
    s.Measured t (d :: ds) (s.found t d :: ms) := by
  refine ⟨by rw [h.eq_map, List.map_cons], fun e he => ?_⟩
  obtain rfl | he := List.mem_cons.mp he
  · exact hd
  · exact h.listed e he

theorem Measured.append {ds ds' : List Path} {ms ms' : List Measure} (h : s.Measured t ds ms)
    (h' : s.Measured t ds' ms') : s.Measured t (ds ++ ds') (ms ++ ms') := by
  refine ⟨by rw [h.eq_map, h'.eq_map, List.map_append], fun e he => ?_⟩
  obtain he | he := List.mem_append.mp he
  · exact h.listed e he
  · exact h'.listed e he

theorem Measured.map_root {ds : List Path} {ms : List Measure} (h : s.Measured t ds ms) :
    ms.map (·.root) = ds := by
  rw [h.eq_map, List.map_map]
  exact List.map_id'' (fun d => root_found s t d) ds

mutual

/-- A visit that succeeds has found the directories at and below its node. -/
theorem visit_eq_ok : (node : Node) → {path : Path} → {depth : Nat} → {ms : List Measure} →
    {sink sink' : Sink} → s.visit t path depth node sink = (.ok ms, sink') →
    s.Measured t (s.directories path node) ms
  | .file .., _, _, _, _, _, h => by
    rw [visit] at h
    cases h
    exact .nil
  | .link _, _, _, _, _, _, h => by
    rw [visit] at h
    cases h
    exact .nil
  | .directory _ entries, _, _, _, _, _, h => by
    rw [visit] at h
    obtain ⟨m, _, hm, hinside⟩ := Report.bind_eq_ok.mp h
    obtain ⟨ms, _, hms, hall⟩ := Report.bind_eq_ok.mp hinside
    cases hall
    obtain ⟨rfl, hlist⟩ := visitDirectory_eq_ok hm
    exact .cons hlist (visitEntries_eq_ok entries hms)

theorem visitEntries_eq_ok : (entries : List (Bytes × Node)) → {path : Path} → {depth : Nat} →
    {ms : List Measure} → {sink sink' : Sink} →
    s.visitEntries t path depth entries sink = (.ok ms, sink') →
    s.Measured t (s.directoriesIn path entries) ms
  | [], _, _, _, _, _, h => by
    rw [visitEntries] at h
    cases h
    exact .nil
  | (name, node) :: rest, path, depth, _, _, _, h => by
    rw [visitEntries] at h
    rw [directoriesIn]
    split at h
    · next hh =>
      obtain ⟨_, _, hnone, hrest⟩ := Report.bind_eq_ok.mp h
      obtain ⟨ms, _, hms, hall⟩ := Report.bind_eq_ok.mp hrest
      cases hnone
      cases hall
      rw [if_pos hh]
      exact .append .nil (visitEntries_eq_ok rest hms)
    · next hh =>
      obtain ⟨ms, _, hms, hrest⟩ := Report.bind_eq_ok.mp h
      obtain ⟨ms', _, hms', hall⟩ := Report.bind_eq_ok.mp hrest
      cases hall
      rw [if_neg hh]
      exact .append (visit_eq_ok node hms) (visitEntries_eq_ok rest hms')

end

/-- A walk that succeeds has found the directories from its start on.  The
start could be looked up, and listed if it leads to a directory. -/
theorem traverse_eq_ok {start : Path} {ms : List Measure}
    (h : s.traverse t start sink = (.ok ms, sink')) :
    s.Measured t (s.walkOrder t start) ms ∧ (∃ node, t.entry start = .ok node) ∧
      ∀ permission entries, t.target start = .ok (.directory permission entries) →
        t.list start = .ok entries := by
  rw [traverse_eq] at h
  obtain ⟨node, _, hrequire, hvisit⟩ := Report.bind_eq_ok.mp h
  obtain ⟨hentry, rfl⟩ := Report.require_eq_ok.mp hrequire
  rw [walkOrder, hentry]
  cases node with
  | file permission content =>
    refine ⟨visit_eq_ok _ hvisit, ⟨_, rfl⟩, fun permission entries htarget => ?_⟩
    rw [FileTree.target_of_entry hentry rfl] at htarget
    cases htarget
  | directory permission entries =>
    have hmeasured := visit_eq_ok _ hvisit
    refine ⟨hmeasured, ⟨_, rfl⟩, fun permission entries htarget => ?_⟩
    obtain ⟨listed, hlist⟩ := hmeasured.listed start (by simp [directories])
    exact (FileTree.list_eq_of_target hlist htarget) ▸ hlist
  | link _ =>
    obtain ⟨target, _, hrequire, hinside⟩ := Report.bind_eq_ok.mp hvisit
    obtain ⟨htarget, rfl⟩ := Report.require_eq_ok.mp hrequire
    rw [htarget]
    cases target with
    | file permission content =>
      cases hinside
      exact ⟨.nil, ⟨_, rfl⟩, fun _ _ h => by cases h⟩
    | link _ =>
      cases hinside
      exact ⟨.nil, ⟨_, rfl⟩, fun _ _ h => by cases h⟩
    | directory permission entries =>
      obtain ⟨listed, _, hrequire, hentries⟩ := Report.bind_eq_ok.mp hinside
      obtain ⟨hlist, rfl⟩ := Report.require_eq_ok.mp hrequire
      obtain rfl := FileTree.list_eq_of_target hlist htarget
      refine ⟨visitEntries_eq_ok listed hentries, ⟨_, rfl⟩, fun _ _ h => ?_⟩
      cases h
      exact hlist

end CommentDensity.Survey
