import CommentDensity.Proofs.Survey.Alignment
import CommentDensity.Proofs.Survey.Totals

/-!
# CommentDensity.Proofs.Survey.Completion

When a walk comes to its end, and what it leaves behind if it does not.

A walk writes to a sink that takes everything.  It fails if its start cannot
be looked up (`writeTo_traverse_of_lost`) or if a directory on its way cannot
be listed, and then it has written the blocks of the directories in front of
that one (`writeTo_traverse_of_broken`).  Otherwise it succeeds
(`writeTo_traverse_of_listed`).  In every case it has made the visits up to
the first that fails (`writeTo_traverse`).

Which directories are on its way is said by the tree of nodes and, equally,
by listings: `listed_iff_reached`.  Neither knows anything of files and
links, so these have no part in it: `all_listed_congr`.
-/

namespace CommentDensity

/-! ## The directories of a tree alone -/

mutual

/-- The node without files and links below it. -/
def Node.skeleton : Node → Node
  | .directory permission entries => .directory permission (skeletons entries)
  | .file permission content => .file permission content
  | .link target => .link target

/-- The entries that are directories, without files and links below them. -/
def Node.skeletons : List (Bytes × Node) → List (Bytes × Node)
  | [] => []
  | (name, node) :: rest =>
    if node.isDirectory then (name, node.skeleton) :: skeletons rest else skeletons rest

end

theorem Node.skeletons_eq_map (entries : List (Bytes × Node)) :
    skeletons entries =
      (entries.filter fun e => e.2.isDirectory).map fun e => (e.1, e.2.skeleton) := by
  induction entries with
  | nil => rfl
  | cons e rest ih =>
    obtain ⟨name, node⟩ := e
    rw [skeletons, List.filter_cons]
    split
    · rw [List.map_cons, ih]
    · exact ih

/-- Of the same directories, each is in both, with the same directories. -/
theorem Node.exists_of_skeletons_eq {entries entries' : List (Bytes × Node)}
    (h : skeletons entries = skeletons entries') {e : Bytes × Node} (he : e ∈ entries)
    (hdir : e.2.isDirectory = true) :
    ∃ child, (e.1, child) ∈ entries' ∧ e.2.skeleton = child.skeleton := by
  have hmem : (e.1, e.2.skeleton) ∈ skeletons entries' := by
    rw [← h, skeletons_eq_map]
    exact List.mem_map.mpr ⟨e, List.mem_filter.mpr ⟨he, hdir⟩, rfl⟩
  rw [skeletons_eq_map] at hmem
  obtain ⟨⟨name, child⟩, hchild, heq⟩ := List.mem_map.mp hmem
  obtain ⟨rfl, hskeleton⟩ := Prod.mk.inj heq
  exact ⟨child, (List.mem_filter.mp hchild).1, hskeleton.symm⟩

/-- A node with the directories of a directory is one itself. -/
theorem Node.eq_directory_of_skeleton {permission : Permission} {entries : List (Bytes × Node)}
    {other : Node} (h : (Node.directory permission entries).skeleton = other.skeleton) :
    ∃ entries', other = .directory permission entries' ∧ skeletons entries = skeletons entries' := by
  cases other with
  | file filePermission content => simp [skeleton] at h
  | link target => simp [skeleton] at h
  | directory otherPermission entries' =>
    simp only [skeleton, Node.directory.injEq] at h
    obtain ⟨rfl, h⟩ := h
    exact ⟨entries', rfl, h⟩

namespace Survey

variable {s : Survey} {t t' : FileTree} {start : Path}

mutual

/-- A walk comes to the same directories without the files and links. -/
theorem directories_skeleton : (node : Node) → (path : Path) →
    s.directories path node.skeleton = s.directories path node
  | .file .., _ => by rw [Node.skeleton]
  | .link _, _ => by rw [Node.skeleton]
  | .directory permission entries, path => by
    rw [Node.skeleton, directories, directories, directoriesIn_skeletons entries path]

theorem directoriesIn_skeletons : (entries : List (Bytes × Node)) → (path : Path) →
    s.directoriesIn path (Node.skeletons entries) = s.directoriesIn path entries
  | [], _ => by rw [Node.skeletons]
  | (name, node) :: rest, path => by
    rw [Node.skeletons, directoriesIn]
    split
    · rw [directoriesIn, directories_skeleton node (path.join name),
        directoriesIn_skeletons rest path]
    · next hdir =>
      have hnone : s.directories (path.join name) node = [] := by
        cases node with
        | file permission content => rw [directories]
        | link target => rw [directories]
        | directory permission inside => exact absurd rfl hdir
      rw [hnone, ite_self, List.nil_append, directoriesIn_skeletons rest path]

end

/-- Trees with the same directories agree on whether all that a walk comes to
can be listed. -/
theorem all_listed_congr (ht : t.WellFormed) (ht' : t'.WellFormed) {permission : Permission}
    {entries entries' : List (Bytes × Node)}
    (htarget : t.target start = .ok (.directory permission entries))
    (htarget' : t'.target start = .ok (.directory permission entries'))
    (hsame : Node.skeletons entries = Node.skeletons entries') :
    (∀ d ∈ s.directories start (.directory permission entries), ∃ listed, t.list d = .ok listed) ↔
      ∀ d ∈ s.directories start (.directory permission entries'),
        ∃ listed, t'.list d = .ok listed := by
  have hskeleton : (Node.directory permission entries).skeleton =
      (Node.directory permission entries').skeleton := by rw [Node.skeleton, hsame, Node.skeleton]
  have hdirectories : s.directories start (.directory permission entries') =
      s.directories start (.directory permission entries) := by
    rw [← directories_skeleton, ← hskeleton, directories_skeleton]
  have halike := alike_directories (s := s)
    (R := fun _ node other => node.skeleton = other.skeleton)
    (fun path permission entries other hrel => by
      obtain ⟨entries', rfl, hentries⟩ := Node.eq_directory_of_skeleton hrel
      exact ⟨entries', rfl, fun e he _ hdir => Node.exists_of_skeletons_eq hentries he hdir⟩)
    (ht.target htarget) (ht'.target htarget') hskeleton (FileTree.alike_of_target htarget htarget')
  rw [hdirectories]
  refine forall₂_congr fun d hd => ?_
  obtain ⟨_, _, _, _, halike⟩ := halike d hd
  obtain ⟨hlist, hlist'⟩ | ⟨e, he, he'⟩ := halike.list
  · simp [hlist, hlist']
  · simp [he, he']

/-! ## The directories on the way -/

mutual

/-- If all that steps of the walk reach can be listed, so can all that the
tree of nodes shows. -/
theorem listed_of_reached (ht : t.WellFormed) : (node : Node) → {path : Path} →
    t.target path = .ok node →
    (∀ d, Relation.ReflTransGen (s.Enters t) path d → ∃ listed, t.list d = .ok listed) →
    ∀ d ∈ s.directories path node, ∃ listed, t.list d = .ok listed
  | .file .., _, _, _, _, hd => by simp [directories] at hd
  | .link _, _, _, _, _, hd => by simp [directories] at hd
  | .directory permission entries, path, htarget, h, d, hd => by
    obtain ⟨listed, hlisted⟩ := h path .refl
    rw [FileTree.list_eq_of_target hlisted htarget] at hlisted
    obtain rfl | hd := List.mem_cons.mp hd
    · exact ⟨entries, hlisted⟩
    · exact listed_of_reachedIn ht entries hlisted (fun _ he => he) h d hd

theorem listed_of_reachedIn (ht : t.WellFormed) : (rest : List (Bytes × Node)) → {path : Path} →
    {entries : List (Bytes × Node)} → t.list path = .ok entries → (∀ e ∈ rest, e ∈ entries) →
    (∀ d, Relation.ReflTransGen (s.Enters t) path d → ∃ listed, t.list d = .ok listed) →
    ∀ d ∈ s.directoriesIn path rest, ∃ listed, t.list d = .ok listed
  | [], _, _, _, _, _, _, hd => by simp [directoriesIn] at hd
  | (name, node) :: rest, path, entries, hlist, hsub, h, d, hd => by
    rw [directoriesIn, List.mem_append] at hd
    obtain hd | hd := hd
    · cases hh : s.hides name with
      | true => simp [hh] at hd
      | false =>
        cases node with
        | file permission content => simp [hh, directories] at hd
        | link target => simp [hh, directories] at hd
        | directory permission inside =>
          have hmem := hsub _ List.mem_cons_self
          have henters : s.Enters t path (path.join name) :=
            ⟨entries, name, _, hlist, hmem, rfl, hh, rfl⟩
          obtain ⟨listed, hjoined⟩ := h _ (.single henters)
          rw [hh, if_neg Bool.false_ne_true] at hd
          exact listed_of_reached ht (.directory permission inside)
            (FileTree.target_of_list_join ht hlist hmem hjoined)
            (fun d hreach => h d (.head henters hreach)) d hd
    · exact listed_of_reachedIn ht rest hlist (fun e he => hsub e (List.mem_cons_of_mem _ he)) h d hd

end

/-- Nodes and listings agree on whether all on the way can be listed. -/
theorem listed_iff_reached (ht : t.WellFormed) {permission : Permission}
    {entries : List (Bytes × Node)} (htarget : t.target start = .ok (.directory permission entries)) :
    (∀ d ∈ s.directories start (.directory permission entries), ∃ listed, t.list d = .ok listed) ↔
      ∀ d, Relation.ReflTransGen (s.Enters t) start d → ∃ listed, t.list d = .ok listed := by
  constructor
  · intro h d hreach
    exact h d ((mem_directories_iff ht _ htarget h).mpr ⟨rfl, hreach⟩)
  · exact listed_of_reached ht _ htarget

/-! ## The itinerary -/

/-- When a walk can begin, and list all directories on its way. -/
theorem itinerary_listed_iff :
    (∃ vs, s.itinerary t start = .ok vs ∧ ∀ v ∈ vs, ∃ listed, t.list v.directory = .ok listed) ↔
      (∃ node, t.entry start = .ok node) ∧
      (∀ link, t.entry start = .ok (.link link) → ∃ node, t.target start = .ok node) ∧
      ∀ permission entries, t.target start = .ok (.directory permission entries) →
        ∀ d ∈ s.directories start (.directory permission entries),
          ∃ listed, t.list d = .ok listed := by
  cases hentry : t.entry start with
  | error e => simp [itinerary_of_entry_error hentry]
  | ok node =>
    cases node with
    | file permission content =>
      simp [itinerary_of_entry hentry rfl, visits, FileTree.target_of_entry hentry rfl]
    | directory permission entries =>
      have hall := List.forall_mem_map (l := s.visits start 0 (.directory permission entries))
        (f := (·.directory)) (P := fun d => ∃ listed, t.list d = .ok listed)
      rw [map_directory_visits] at hall
      simp [itinerary_of_entry hentry rfl, FileTree.target_of_entry hentry rfl, hall]
    | link link =>
      cases htarget : t.target start with
      | error e => simp [itinerary_of_target_error hentry htarget]
      | ok target =>
        cases target with
        | file permission content =>
          simp [itinerary_of_link_of_not_directory hentry htarget rfl]
        | link link => simp [itinerary_of_link_of_not_directory hentry htarget rfl]
        | directory permission entries =>
          rw [itinerary_of_link hentry htarget]
          cases hlist : t.list start with
          | error e => simp [hlist, Except.map, directories]
          | ok listed =>
            obtain rfl := FileTree.list_eq_of_target hlist htarget
            have hall := List.forall_mem_map (l := s.visitsIn start 1 listed) (f := (·.directory))
              (P := fun d => ∃ listed, t.list d = .ok listed)
            rw [map_directory_visitsIn] at hall
            simp [Except.map, directories, hlist, hall]

/-- Of several directories, all can be listed, or there is a first that
cannot. -/
theorem listed_or_first (t : FileTree) (vs : List Visit) :
    (∀ v ∈ vs, ∃ listed, t.list v.directory = .ok listed) ∨
      ∃ made v rest e, vs = made ++ v :: rest ∧
        (∀ u ∈ made, ∃ listed, t.list u.directory = .ok listed) ∧ t.list v.directory = .error e := by
  induction vs with
  | nil => exact .inl fun v hv => by cases hv
  | cons v vs ih =>
    cases hv : t.list v.directory with
    | error e => exact .inr ⟨[], v, vs, e, rfl, (fun u hu => by cases hu), hv⟩
    | ok listed =>
      obtain hall | ⟨made, u, rest, e, rfl, hmade, hu⟩ := ih
      · refine .inl fun u hu => ?_
        obtain rfl | hu := List.mem_cons.mp hu
        · exact ⟨listed, hv⟩
        · exact hall u hu
      · refine .inr ⟨v :: made, u, rest, e, rfl, fun w hw => ?_, hu⟩
        obtain rfl | hw := List.mem_cons.mp hw
        · exact ⟨listed, hv⟩
        · exact hmade w hw

/-! ## What a walk comes to -/

/-- The bytes of the blocks of several visits. -/
def blockBytes (s : Survey) (t : FileTree) (vs : List Visit) : Bytes :=
  (vs.flatMap (s.block t)).flatMap Line.bytes

theorem flatten_writes_blocks (vs : List Visit) :
    (Script.writes ((vs.flatMap (s.block t)).map fun l => (l, Failure.output))).flatten =
      s.blockBytes t vs := by
  rw [Script.writes, List.map_map, blockBytes, List.flatMap_def]
  rfl

/-- A walk whose start cannot be looked up. -/
theorem writeTo_traverse_of_lost {e : IoError} (h : s.itinerary t start = .error e) :
    (s.traverse t start).writeTo .unlimited = (.error (.walk start e), []) := by
  rw [traverse_eq_mapM, h]
  rfl

/-- A walk that can list all directories on its way. -/
theorem writeTo_traverse_of_listed {vs : List Visit} (h : s.itinerary t start = .ok vs)
    (hlisted : ∀ v ∈ vs, ∃ listed, t.list v.directory = .ok listed) :
    (s.traverse t start).writeTo .unlimited =
      (.ok (vs.map fun v => s.found t v.directory), s.blockBytes t vs) := by
  have hrequire : Report.require (.walk start) (.ok vs : Except IoError (List Visit)) = pure vs := rfl
  rw [traverse_eq_mapM, h, hrequire, pure_bind, mapM_perform_of_listed vs hlisted,
    Script.writeTo_play_unlimited, flatten_writes_blocks]

/-- A walk that comes to a directory that cannot be listed. -/
theorem writeTo_traverse_of_broken {made rest : List Visit} {v : Visit} {e : IoError}
    (h : s.itinerary t start = .ok (made ++ v :: rest))
    (hmade : ∀ u ∈ made, ∃ listed, t.list u.directory = .ok listed)
    (he : t.list v.directory = .error e) :
    (s.traverse t start).writeTo .unlimited =
      (.error (.list v.directory e), s.blockBytes t made) := by
  have hrequire : Report.require (.walk start)
      (.ok (made ++ v :: rest) : Except IoError (List Visit)) = pure (made ++ v :: rest) := rfl
  rw [traverse_eq_mapM, h, hrequire, pure_bind, mapM_perform_of_not_listed made rest v hmade he,
    Script.writeTo_play_unlimited, flatten_writes_blocks]

/-- What stands in the way of a visit: the directory cannot be listed. -/
def Visit.failure? (t : FileTree) (v : Visit) : Option Failure :=
  match t.list v.directory with
  | .ok _ => none
  | .error e => some (.list v.directory e)

theorem Visit.failure?_of_listed {v : Visit} (h : ∃ listed, t.list v.directory = .ok listed) :
    v.failure? t = none := by
  obtain ⟨listed, hlist⟩ := h
  rw [failure?, hlist]

theorem Visit.failure?_of_not_listed {v : Visit} {e : IoError}
    (h : t.list v.directory = .error e) : v.failure? t = some (.list v.directory e) := by
  rw [failure?, h]

/-- The visits that a walk makes, up to the first that fails. -/
def visited (s : Survey) (t : FileTree) (start : Path) : List Visit :=
  match s.itinerary t start with
  | .ok vs => vs.takeWhile fun v => (v.failure? t).isNone
  | .error _ => []

/-- What a walk fails with, if it does. -/
def failure? (s : Survey) (t : FileTree) (start : Path) : Option Failure :=
  match s.itinerary t start with
  | .ok vs => vs.findSome? (·.failure? t)
  | .error e => some (.walk start e)

/-- What a walk comes to: what its visits find, or how it fails. -/
def outcome (s : Survey) (t : FileTree) (start : Path) : Except Failure (List Measure) :=
  match s.failure? t start with
  | none => .ok ((s.visited t start).map fun v => s.found t v.directory)
  | some failure => .error failure

/-- The names that are left out alone decide which visits are made. -/
theorem visited_congr {s s' : Survey} (h : s.skipHidden = s'.skipHidden) (t : FileTree)
    (start : Path) : s.visited t start = s'.visited t start := by
  rw [visited, visited, itinerary_congr h]

theorem failure?_congr {s s' : Survey} (h : s.skipHidden = s'.skipHidden) (t : FileTree)
    (start : Path) : s.failure? t start = s'.failure? t start := by
  rw [failure?, failure?, itinerary_congr h]

/-- The visits that are made are some of those that a walk has before it. -/
theorem mem_of_mem_visited {vs : List Visit} (h : s.itinerary t start = .ok vs) {v : Visit}
    (hv : v ∈ s.visited t start) : v ∈ vs := by
  rw [visited, h] at hv
  exact (List.takeWhile_sublist _).subset hv

/-- A walk writes the blocks of the visits that it makes. -/
theorem writeTo_traverse (s : Survey) (t : FileTree) (start : Path) :
    (s.traverse t start).writeTo .unlimited =
      (s.outcome t start, s.blockBytes t (s.visited t start)) := by
  rw [outcome, visited, failure?]
  cases hvs : s.itinerary t start with
  | error e => exact writeTo_traverse_of_lost hvs
  | ok vs =>
    dsimp only
    obtain hall | ⟨made, v, rest, e, rfl, hmade, he⟩ := listed_or_first t vs
    · have hnone : ∀ v ∈ vs, v.failure? t = none :=
        fun v hv => Visit.failure?_of_listed (hall v hv)
      have hvisited : vs.takeWhile (fun v => (v.failure? t).isNone) = vs :=
        List.takeWhile_eq_self_iff.mpr fun v hv => by rw [hnone v hv, Option.isNone_none]
      rw [writeTo_traverse_of_listed hvs hall, hvisited, List.findSome?_eq_none_iff.mpr hnone]
    · have hnone : ∀ u ∈ made, u.failure? t = none :=
        fun u hu => Visit.failure?_of_listed (hmade u hu)
      have hv := Visit.failure?_of_not_listed he
      have hvisited : (made ++ v :: rest).takeWhile (fun v => (v.failure? t).isNone) = made := by
        rw [List.takeWhile_append_of_pos fun u hu => by rw [hnone u hu, Option.isNone_none],
          List.takeWhile_cons, hv, Option.isNone_some, if_neg Bool.false_ne_true, List.append_nil]
      rw [writeTo_traverse_of_broken hvs hmade he, hvisited, List.findSome?_append,
        List.findSome?_eq_none_iff.mpr hnone, List.findSome?_cons, hv, Option.none_or]

/-- The walk from `start` succeeds where nothing hinders its report. -/
def Completes (s : Survey) (t : FileTree) (start : Path) : Prop :=
  ∃ ms, ((s.traverse t start).writeTo .unlimited).1 = .ok ms

theorem completes_iff :
    s.Completes t start ↔
      ∃ vs, s.itinerary t start = .ok vs ∧ ∀ v ∈ vs, ∃ listed, t.list v.directory = .ok listed := by
  unfold Completes
  cases hvs : s.itinerary t start with
  | error e => simp [writeTo_traverse_of_lost hvs]
  | ok vs =>
    obtain hall | ⟨made, v, rest, e, rfl, hmade, hv⟩ := listed_or_first t vs
    · simp only [writeTo_traverse_of_listed hvs hall, Except.ok.injEq, exists_eq', true_iff]
      exact ⟨vs, rfl, hall⟩
    · rw [writeTo_traverse_of_broken hvs hmade hv]
      refine iff_of_false (by simp) ?_
      rintro ⟨_, ⟨⟩, hall⟩
      obtain ⟨listed, hlisted⟩ := hall v (by simp)
      rw [hv] at hlisted
      cases hlisted

/-- The total is that of the results. -/
theorem writeTo_scan {ms : List Measure} {out : Bytes}
    (h : (s.traverse t start).writeTo .unlimited = (.ok ms, out)) :
    (s.scan t start).writeTo .unlimited = (.ok (.total start ms), out) := by
  obtain ⟨after, hrun, hout⟩ := Report.writeTo_eq_ok.mp h
  exact Report.writeTo_eq_ok.mpr ⟨after, Report.bind_eq_ok.mpr ⟨ms, after, hrun, rfl⟩, hout⟩

/-- A scan ends as its walk does. -/
theorem fst_writeTo_scan (start : Path) (sink : Sink) :
    ((s.scan t start).writeTo sink).1 =
      (((s.traverse t start).writeTo sink).1).map (Measure.total start) := by
  rw [scan, Report.writeTo, Report.writeTo, Report.bind_apply]
  rcases s.traverse t start sink with ⟨_ | ms, after⟩
  · rfl
  · rfl

/-- Whether the text of the file `name` of a directory can be had. -/
def isReadable (t : FileTree) (directory : Path) (name : Bytes) : Bool :=
  (t.readText (directory.join name)).isOk

theorem holds_found (s : Survey) (t : FileTree) (d : Path) :
    (s.found t d).Holds
      (((s.aggregation.standing (s.files t d)).filter (isReadable t d)).map fun name =>
        t.lineCount (d.join name)).sum
      (((s.aggregation.standing (s.files t d)).filter (isReadable t d)).map fun name =>
        t.commentCount s.style (d.join name)).sum := by
  have herror : ∀ name, isReadable t d name = false → ∃ e, t.readText (d.join name) = .error e := by
    intro name h
    unfold isReadable at h
    cases htext : t.readText (d.join name) with
    | error e => exact ⟨e, rfl⟩
    | ok text => rw [htext] at h; cases h
  have hlines : ∀ name, isReadable t d name = false → t.lineCount (d.join name) = 0 := by
    intro name h
    obtain ⟨e, he⟩ := herror name h
    rw [FileTree.lineCount, he]
  have hcomments : ∀ name, isReadable t d name = false →
      t.commentCount s.style (d.join name) = 0 := by
    intro name h
    obtain ⟨e, he⟩ := herror name h
    rw [FileTree.commentCount, he]
  rw [sum_map_filter _ hlines, sum_map_filter _ hcomments]
  exact t.holds_measureDirectory s.style s.aggregation d (s.files t d)

/-! ## Success and failure -/

/-- A walk succeeds if it can begin and list all that its steps reach. -/
theorem completes_iff_reached (ht : t.WellFormed) :
    s.Completes t start ↔
      (∃ node, t.entry start = .ok node) ∧
      (∀ link, t.entry start = .ok (.link link) → ∃ node, t.target start = .ok node) ∧
      ∀ permission entries, t.target start = .ok (.directory permission entries) →
        ∀ d, Relation.ReflTransGen (s.Enters t) start d → ∃ listed, t.list d = .ok listed := by
  rw [completes_iff, itinerary_listed_iff]
  refine and_congr_right fun _ => and_congr_right fun _ => ?_
  exact forall₂_congr fun permission entries =>
    forall_congr' fun htarget => listed_iff_reached ht htarget

/-- Files and links below the start make no difference. -/
theorem completes_congr (ht : t.WellFormed) (ht' : t'.WellFormed) {permission : Permission}
    {entries entries' : List (Bytes × Node)}
    (htarget : t.target start = .ok (.directory permission entries))
    (htarget' : t'.target start = .ok (.directory permission entries'))
    (hsame : Node.skeletons entries = Node.skeletons entries') :
    s.Completes t start ↔ s.Completes t' start := by
  obtain ⟨node, hentry⟩ := FileTree.entry_of_target htarget
  obtain ⟨node', hentry'⟩ := FileTree.entry_of_target htarget'
  have hall := all_listed_congr (s := s) ht ht' htarget htarget' hsame
  rw [completes_iff, completes_iff, itinerary_listed_iff, itinerary_listed_iff]
  simp [hentry, hentry', htarget, htarget', hall]

/-- How a walk fails: it cannot begin, or it comes to a directory that cannot
be listed.  It has written the blocks of the directories in front of that
one, in the order of the walk, and nothing else. -/
inductive BreaksOff (s : Survey) (t : FileTree) (start : Path) : Failure → Bytes → Prop where
  | lost (e : IoError) : s.itinerary t start = .error e → BreaksOff s t start (.walk start e) []
  | broken (made : List Visit) (v : Visit) (rest : List Visit) (e : IoError) :
      s.itinerary t start = .ok (made ++ v :: rest) →
      s.walkOrder t start = (made ++ v :: rest).map (·.directory) →
      (∀ u ∈ made, ∃ listed, t.list u.directory = .ok listed) →
      t.list v.directory = .error e →
      BreaksOff s t start (.list v.directory e) (s.blockBytes t made)

theorem breaksOff_of_error {failure : Failure} {out : Bytes}
    (h : (s.traverse t start).writeTo .unlimited = (.error failure, out)) :
    s.BreaksOff t start failure out := by
  cases hvs : s.itinerary t start with
  | error e =>
    rw [writeTo_traverse_of_lost hvs] at h
    cases h
    exact .lost e hvs
  | ok vs =>
    obtain hall | ⟨made, v, rest, e, rfl, hmade, hv⟩ := listed_or_first t vs
    · rw [writeTo_traverse_of_listed hvs hall] at h
      cases h
    · rw [writeTo_traverse_of_broken hvs hmade hv] at h
      cases h
      exact .broken made v rest e hvs (map_directory_itinerary hvs).symm hmade hv

/-- A walk whose report is not hindered succeeds exactly if its start can be
looked up — what a link there leads to as well — and, if that is a directory,
it and all directories that the walk reaches can be listed.

So files and links below the start have no part in it: trees in which the
start leads to the same directories agree on it.  A file that cannot be read
adds nothing to the numbers of its directory.  A walk that fails has written
the whole blocks of the directories in front of the one it fails at. -/
theorem completes_iff_listed (ht : t.WellFormed) (start : Path) :
    (s.Completes t start ↔
      (∃ node, t.entry start = .ok node) ∧
      (∀ link, t.entry start = .ok (.link link) → ∃ node, t.target start = .ok node) ∧
      ∀ permission entries, t.target start = .ok (.directory permission entries) →
        ∀ d, Relation.ReflTransGen (s.Enters t) start d → ∃ listed, t.list d = .ok listed) ∧
    (∀ (t' : FileTree) (permission : Permission) (entries entries' : List (Bytes × Node)),
      t'.WellFormed →
      t.target start = .ok (.directory permission entries) →
      t'.target start = .ok (.directory permission entries') →
      Node.skeletons entries = Node.skeletons entries' →
      (s.Completes t start ↔ s.Completes t' start)) ∧
    (∀ ms out, (s.traverse t start).writeTo .unlimited = (.ok ms, out) →
      ms.map (·.root) = s.walkOrder t start ∧
      ∀ m ∈ ms, m.Holds
        (((s.aggregation.standing (s.files t m.root)).filter (isReadable t m.root)).map fun name =>
          t.lineCount (m.root.join name)).sum
        (((s.aggregation.standing (s.files t m.root)).filter (isReadable t m.root)).map fun name =>
          t.commentCount s.style (m.root.join name)).sum) ∧
    ∀ failure out, (s.traverse t start).writeTo .unlimited = (.error failure, out) →
      s.BreaksOff t start failure out := by
  refine ⟨completes_iff_reached ht, ?_, ?_, fun _ _ h => breaksOff_of_error h⟩
  · intro t' permission entries entries' ht' htarget htarget' hsame
    exact completes_congr ht ht' htarget htarget' hsame
  · intro ms out h
    obtain ⟨after, hrun, _⟩ := Report.writeTo_eq_ok.mp h
    obtain ⟨hmeasured, _, _⟩ := traverse_eq_ok hrun
    refine ⟨hmeasured.map_root, fun m hm => ?_⟩
    rw [hmeasured.eq_map] at hm
    obtain ⟨d, _, rfl⟩ := List.mem_map.mp hm
    rw [root_found]
    exact holds_found s t d

/-- A directory `code` with a hidden one that cannot be listed, and one that
can. -/
def bareTree : FileTree where
  root := .directory .all
    [(Bytes.ofString "code", .directory .all
      [(Bytes.ofString ".git", .directory ⟨false, false⟩ []),
        (Bytes.ofString "src", .directory .all [])])]
  workingDirectory := []

/-- The same directories, with a file that cannot be opened, one that is not
UTF-8 and a link that leads nowhere. -/
def litteredTree : FileTree where
  root := .directory .all
    [(Bytes.ofString "code", .directory .all
      [(Bytes.ofString "a.fs", .file ⟨false, false⟩ "//".toUTF8),
        (Bytes.ofString ".git", .directory ⟨false, false⟩ []),
        (Bytes.ofString "src", .directory .all
          [(Bytes.ofString "b.fs", .file .all ⟨#[255]⟩)]),
        (Bytes.ofString "c.fs", .link (.ofString "nowhere"))])]
  workingDirectory := []

/-- A walk that completes in one of them completes in the other. -/
theorem completes_iff_listed_litteredTree :
    bareTree.WellFormed ∧ litteredTree.WellFormed ∧
      Completes ⟨".fs", [], .fsharp, .sum, true, false⟩ litteredTree (.ofString "code") := by
  have hwf : bareTree.WellFormed := by decide
  have hwf' : litteredTree.WellFormed := by decide
  have hbare : Completes ⟨".fs", [], .fsharp, .sum, true, false⟩ bareTree (.ofString "code") := by
    refine completes_iff.mpr ⟨[⟨.ofString "code", 0⟩, ⟨.ofString "code/src", 1⟩], rfl, ?_⟩
    rintro v hv
    simp only [List.mem_cons, List.not_mem_nil, or_false] at hv
    obtain rfl | rfl := hv
    · exact ⟨_, rfl⟩
    · exact ⟨_, rfl⟩
  exact ⟨hwf, hwf',
    ((completes_iff_listed hwf (.ofString "code")).2.1 litteredTree _ _ _ hwf' rfl rfl rfl).mp hbare⟩

end Survey

end CommentDensity
