import CommentDensity.Proofs.Report.Script
import CommentDensity.Proofs.Survey.Results

/-!
# CommentDensity.Proofs.Survey.Itinerary

A walk as a list of visits.

Which directories a walk comes to, and how deep they are, is settled before
the first of them is visited: the tree of nodes says so (`visits`), once the
start has been looked up (`itinerary`).  The walk then makes the visits in
order (`traverse_eq_mapM`), and each visit is a script: the block of its
directory if that can be listed, and a failure without any line if not
(`perform_eq_play`).

So a walk writes the blocks of the directories in front of the first that
cannot be listed, and no more (`mapM_perform_of_listed`,
`mapM_perform_of_not_listed`).
-/

namespace CommentDensity.Survey

/-! ## The visits of a walk -/

/-- A directory to be visited, and how many steps below the start it is. -/
structure Visit where
  directory : Path
  depth : Nat
  deriving DecidableEq, Repr

mutual

/-- The visits at a node and below it, in the order of the walk; `path` leads
to the node and is `depth` steps long. -/
def visits (s : Survey) (path : Path) (depth : Nat) : Node → List Visit
  | .directory _ entries => ⟨path, depth⟩ :: visitsIn s path (depth + 1) entries
  | .file .. => []
  | .link _ => []

/-- The visits at and below the entries of the directory `path`. -/
def visitsIn (s : Survey) (path : Path) (depth : Nat) : List (Bytes × Node) → List Visit
  | [] => []
  | (name, node) :: rest =>
    (if s.hides name then [] else visits s (path.join name) depth node) ++
      visitsIn s path depth rest

end

/-- The visits of the walk from `start`, or why it cannot begin. -/
def itinerary (s : Survey) (t : FileTree) (start : Path) : Except IoError (List Visit) := do
  match ← t.entry start with
  | .link _ =>
    match ← t.target start with
    | .directory .. => return s.visitsIn start 1 (← t.list start)
    | _ => return []
  | node => return s.visits start 0 node

/-- Makes a visit. -/
def perform (s : Survey) (t : FileTree) (v : Visit) : Report Measure :=
  s.visitDirectory t v.directory v.depth

variable {s : Survey} {t : FileTree}

mutual

theorem visit_eq_mapM : (node : Node) → (path : Path) → (depth : Nat) →
    s.visit t path depth node = (s.visits path depth node).mapM (s.perform t)
  | .file .., _, _ => by rw [visit, visits, List.mapM_nil]
  | .link _, _, _ => by rw [visit, visits, List.mapM_nil]
  | .directory _ entries, path, depth => by
    rw [visit, visits, List.mapM_cons, visitEntries_eq_mapM entries path (depth + 1)]
    rfl

theorem visitEntries_eq_mapM : (entries : List (Bytes × Node)) → (path : Path) → (depth : Nat) →
    s.visitEntries t path depth entries = (s.visitsIn path depth entries).mapM (s.perform t)
  | [], _, _ => by rw [visitEntries, visitsIn, List.mapM_nil]
  | (name, node) :: rest, path, depth => by
    rw [visitEntries, visitsIn, List.mapM_append, visitEntries_eq_mapM rest path depth]
    split
    · simp
    · rw [visit_eq_mapM node (path.join name) depth]

end

/-- A walk makes the visits of its itinerary in order. -/
theorem traverse_eq_mapM (start : Path) :
    s.traverse t start = (do
      (← Report.require (.walk start) (s.itinerary t start)).mapM (s.perform t)) := by
  rw [traverse_eq, itinerary, Report.require_bind, bind_assoc]
  refine bind_congr fun node => ?_
  cases node with
  | file permission content => simp [visit_eq_mapM, Report.require_pure]
  | directory permission entries => simp [visit_eq_mapM, Report.require_pure]
  | link _ =>
    dsimp only
    rw [Report.require_bind, bind_assoc]
    refine bind_congr fun target => ?_
    cases target with
    | file permission content => simp [Report.require_pure]
    | link _ => simp [Report.require_pure]
    | directory permission entries =>
      dsimp only
      rw [Report.require_bind, bind_assoc]
      refine bind_congr fun listed => ?_
      rw [Report.require_pure, pure_bind, visitEntries_eq_mapM]

mutual

/-- The directories visited are those of the walk. -/
theorem map_directory_visits : (node : Node) → (path : Path) → (depth : Nat) →
    (s.visits path depth node).map (·.directory) = s.directories path node
  | .file .., _, _ => by rw [visits, directories, List.map_nil]
  | .link _, _, _ => by rw [visits, directories, List.map_nil]
  | .directory _ entries, path, depth => by
    rw [visits, directories, List.map_cons, map_directory_visitsIn entries path (depth + 1)]

theorem map_directory_visitsIn : (entries : List (Bytes × Node)) → (path : Path) →
    (depth : Nat) → (s.visitsIn path depth entries).map (·.directory) = s.directoriesIn path entries
  | [], _, _ => by rw [visitsIn, directoriesIn, List.map_nil]
  | (name, node) :: rest, path, depth => by
    rw [visitsIn, directoriesIn, List.map_append, map_directory_visitsIn rest path depth]
    split
    · rw [List.map_nil]
    · rw [map_directory_visits node (path.join name) depth]

end

section Start

variable {start : Path} {link : Path} {permission : Permission} {entries : List (Bytes × Node)}

theorem itinerary_of_entry_error {e : IoError} (h : t.entry start = .error e) :
    s.itinerary t start = .error e := by
  rw [itinerary, h]
  rfl

/-- A start that is no link. -/
theorem itinerary_of_entry {node : Node} (h : t.entry start = .ok node)
    (hlink : node.isLink = false) : s.itinerary t start = .ok (s.visits start 0 node) := by
  rw [itinerary, h]
  cases node with
  | file permission content => rfl
  | directory permission entries => rfl
  | link link => simp [Node.isLink] at hlink

theorem itinerary_of_target_error {e : IoError} (h : t.entry start = .ok (.link link))
    (htarget : t.target start = .error e) : s.itinerary t start = .error e := by
  rw [itinerary, h, htarget]
  rfl

/-- A link to a directory at the start, which has to be listed at once. -/
theorem itinerary_of_link (h : t.entry start = .ok (.link link))
    (htarget : t.target start = .ok (.directory permission entries)) :
    s.itinerary t start = (t.list start).map (s.visitsIn start 1) := by
  rw [itinerary, h, htarget]
  rfl

/-- A link to something else at the start. -/
theorem itinerary_of_link_of_not_directory {node : Node} (h : t.entry start = .ok (.link link))
    (htarget : t.target start = .ok node) (hdir : node.isDirectory = false) :
    s.itinerary t start = .ok [] := by
  rw [itinerary, h, htarget]
  cases node with
  | file permission content => rfl
  | directory permission entries => simp [Node.isDirectory] at hdir
  | link link => rfl

/-- How an itinerary comes about: the visits at a start that is no link, those
in the directory that a link there leads to, or none. -/
theorem itinerary_eq_ok {vs : List Visit} (h : s.itinerary t start = .ok vs) :
    (∃ node, t.entry start = .ok node ∧ node.isLink = false ∧ vs = s.visits start 0 node) ∨
    (∃ link permission entries, t.entry start = .ok (.link link) ∧
      t.target start = .ok (.directory permission entries) ∧ t.list start = .ok entries ∧
      vs = s.visitsIn start 1 entries) ∨
    (∃ link node, t.entry start = .ok (.link link) ∧ t.target start = .ok node ∧
      node.isDirectory = false ∧ vs = []) := by
  cases hentry : t.entry start with
  | error e => rw [itinerary_of_entry_error hentry] at h; cases h
  | ok node =>
    cases hlink : node.isLink with
    | false =>
      rw [itinerary_of_entry hentry hlink] at h
      cases h
      exact .inl ⟨node, rfl, hlink, rfl⟩
    | true =>
      obtain ⟨link, rfl⟩ : ∃ link, node = .link link := by cases node <;> simp_all [Node.isLink]
      cases htarget : t.target start with
      | error e => rw [itinerary_of_target_error hentry htarget] at h; cases h
      | ok target =>
        cases hdir : target.isDirectory with
        | false =>
          rw [itinerary_of_link_of_not_directory hentry htarget hdir] at h
          cases h
          exact .inr (.inr ⟨link, target, rfl, rfl, hdir, rfl⟩)
        | true =>
          obtain ⟨permission, entries, rfl⟩ : ∃ permission entries,
              target = .directory permission entries := by
            cases target <;> simp_all [Node.isDirectory]
          rw [itinerary_of_link hentry htarget] at h
          cases hlist : t.list start with
          | error e => rw [hlist] at h; cases h
          | ok listed =>
            obtain rfl := FileTree.list_eq_of_target hlist htarget
            rw [hlist] at h
            cases h
            exact .inr (.inl ⟨link, permission, listed, rfl, rfl, rfl, rfl⟩)

/-- The itinerary is in the order of the walk. -/
theorem map_directory_itinerary {vs : List Visit} (h : s.itinerary t start = .ok vs) :
    vs.map (·.directory) = s.walkOrder t start := by
  unfold walkOrder
  obtain ⟨node, hentry, hlink, rfl⟩ | ⟨link, permission, entries, hentry, htarget, _, rfl⟩ |
    ⟨link, node, hentry, htarget, hdir, rfl⟩ := itinerary_eq_ok h
  · rw [hentry, map_directory_visits]
    cases node with
    | file permission content => rfl
    | link link => simp [Node.isLink] at hlink
    | directory permission entries => rfl
  · rw [hentry, htarget, map_directory_visitsIn]
  · rw [hentry, htarget]
    cases node with
    | file permission content => rfl
    | link link => rfl
    | directory permission entries => simp [Node.isDirectory] at hdir

end Start

/-- Visits that are made alike make the same walk. -/
theorem mapM_congr_of_mem {vs : List Visit} {f g : Visit → Report Measure}
    (h : ∀ v ∈ vs, f v = g v) : vs.mapM f = vs.mapM g := by
  induction vs with
  | nil => rfl
  | cons v vs ih =>
    rw [List.mapM_cons, List.mapM_cons, h v List.mem_cons_self,
      ih fun u hu => h u (List.mem_cons_of_mem _ hu)]

/-! ## What the itinerary depends on -/

mutual

/-- Of a survey, the itinerary knows which names are left out. -/
theorem visits_congr {s s' : Survey} (h : s.skipHidden = s'.skipHidden) : (node : Node) →
    (path : Path) → (depth : Nat) → s.visits path depth node = s'.visits path depth node
  | .file .., _, _ => by rw [visits, visits]
  | .link _, _, _ => by rw [visits, visits]
  | .directory _ entries, path, depth => by
    rw [visits, visits, visitsIn_congr h entries path (depth + 1)]

theorem visitsIn_congr {s s' : Survey} (h : s.skipHidden = s'.skipHidden) :
    (entries : List (Bytes × Node)) → (path : Path) → (depth : Nat) →
    s.visitsIn path depth entries = s'.visitsIn path depth entries
  | [], _, _ => by rw [visitsIn, visitsIn]
  | (name, node) :: rest, path, depth => by
    rw [visitsIn, visitsIn, visits_congr h node (path.join name) depth,
      visitsIn_congr h rest path depth, hides, hides, h]

end

theorem itinerary_congr {s s' : Survey} (h : s.skipHidden = s'.skipHidden) (start : Path) :
    s.itinerary t start = s'.itinerary t start := by
  unfold itinerary
  simp only [visits_congr h, visitsIn_congr h]

/-- Surveys that leave out the same names and agree on every visit agree on
the walk. -/
theorem traverse_congr {s s' : Survey} (hhidden : s.skipHidden = s'.skipHidden)
    (hperform : s.perform t = s'.perform t) (start : Path) :
    s.traverse t start = s'.traverse t start := by
  rw [traverse_eq_mapM, traverse_eq_mapM, itinerary_congr hhidden, hperform]

/-! ## The script of a visit -/

/-- The lines for a directory: its heading and its files, where the report
shows a tree, and what was found in it.  Without files there are none. -/
def block (s : Survey) (t : FileTree) (v : Visit) : List Line :=
  let files := s.files t v.directory
  if files.isEmpty then []
  else
    (if s.showTree then
      .heading v.depth v.directory.shownName :: files.map (.file (v.depth + 1))
    else []) ++ [.directory (s.found t v.directory)]

/-- What a visit writes and finds: without a listing, nothing. -/
def visitScript (s : Survey) (t : FileTree) (v : Visit) : Script Measure :=
  match t.list v.directory with
  | .ok _ => ⟨(s.block t v).map fun l => (l, .output), .ok (s.found t v.directory)⟩
  | .error e => ⟨[], .error (.list v.directory e)⟩

theorem perform_eq_play (v : Visit) : s.perform t v = (s.visitScript t v).play := by
  rw [perform, visitDirectory, visitScript]
  cases hlist : t.list v.directory with
  | error e => rfl
  | ok entries =>
    have hfiles : s.files t v.directory = s.selected t v.directory entries := by rw [files, hlist]
    show (do
      if s.showTree && !(s.selected t v.directory entries).isEmpty then
        Report.line (.heading v.depth v.directory.shownName)
        for name in s.selected t v.directory entries do
          Report.line (.file (v.depth + 1) name)
      t.reportDirectory s.style s.aggregation v.directory (s.selected t v.directory entries)) = _
    rw [← hfiles, block, FileTree.reportDirectory, ← found]
    cases (s.files t v.directory).isEmpty with
    | true => simp [Script.play, Script.tell, Report.ofExcept_ok]
    | false =>
      cases s.showTree with
      | false => simp [Script.play, Script.tell, Script.within_line, Report.ofExcept_ok]
      | true =>
        simp [Script.play, Script.tell, Script.tell_append, Script.within_line,
          Script.foldlM_line, Report.ofExcept_ok, Function.comp_def]

/-! ## The script of several visits -/

/-- Directories that can all be listed are all reported. -/
theorem mapM_perform_of_listed (vs : List Visit)
    (h : ∀ v ∈ vs, ∃ entries, t.list v.directory = .ok entries) :
    vs.mapM (s.perform t) = Script.play
      ⟨(vs.flatMap (s.block t)).map fun l => (l, .output),
        .ok (vs.map fun v => s.found t v.directory)⟩ := by
  induction vs with
  | nil => rfl
  | cons v vs ih =>
    obtain ⟨entries, hlist⟩ := h v List.mem_cons_self
    have hv : s.perform t v = Script.play
        ⟨(s.block t v).map fun l => (l, .output), .ok (s.found t v.directory)⟩ := by
      rw [perform_eq_play, visitScript, hlist]
    rw [List.mapM_cons, hv, ih fun u hu => h u (List.mem_cons_of_mem _ hu), Script.play_ok_bind,
      Script.play_ok_bind_pure, Script.tell_play, List.flatMap_cons, List.map_append, List.map_cons]

/-- The first directory that cannot be listed ends the walk, without a line
of its own. -/
theorem mapM_perform_of_not_listed (front rest : List Visit) (v : Visit) {e : IoError}
    (h : ∀ u ∈ front, ∃ entries, t.list u.directory = .ok entries)
    (he : t.list v.directory = .error e) :
    (front ++ v :: rest).mapM (s.perform t) = Script.play
      ⟨(front.flatMap (s.block t)).map fun l => (l, .output), .error (.list v.directory e)⟩ := by
  have hv : (v :: rest).mapM (s.perform t) = Script.play ⟨[], .error (.list v.directory e)⟩ := by
    rw [List.mapM_cons, perform_eq_play, visitScript, he]
    exact Script.play_error_bind [] _ _
  rw [List.mapM_append, mapM_perform_of_listed front h, hv, Script.play_ok_bind,
    Script.play_error_bind, Script.tell_play, List.append_nil]

end CommentDensity.Survey
