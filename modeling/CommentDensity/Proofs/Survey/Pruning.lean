import CommentDensity.Proofs.FileTree.Trail
import CommentDensity.Proofs.Survey.Alignment

/-!
# CommentDensity.Proofs.Survey.Pruning

What a survey does not select, it does not notice.

Pruning a tree leaves to every directory at and below the start its
directories and the files that are counted there; hidden names go with all
below them (`prune`).  The pruned tree has then no need of a survey that
passes over hidden names (`Survey.showHidden`).

The two walks are compared visit by visit.  They come to the same
directories (`visits_prune`), which are looked up alike (`alike_prune`), so
their listings differ by what was pruned and the same files are counted in
them (`selected_pruneEntries`).  Only links can lead through what was pruned;
those that are left and lead anywhere are asked not to (`FileTree.KeptIn`).
-/

namespace CommentDensity.Survey

/-- The survey that passes over no name for being hidden. -/
def showHidden (s : Survey) : Survey := { s with skipHidden := false }

/-- Whether pruning keeps an entry of a directory: a directory, or a file
that is counted, that is not left out for its name. -/
def keeps (s : Survey) (t : FileTree) (directory : Path) (name : Bytes) (node : Node) : Bool :=
  !s.hides name && (node.isDirectory || s.selects t directory name)

mutual

/-- The node without what is not selected at and below it; `path` leads to
it. -/
def prune (s : Survey) (t : FileTree) (path : Path) : Node → Node
  | .directory permission entries => .directory permission (pruneEntries s t path entries)
  | .file permission content => .file permission content
  | .link target => .link target

/-- The entries of the directory `path` that are selected, pruned in turn. -/
def pruneEntries (s : Survey) (t : FileTree) (path : Path) :
    List (Bytes × Node) → List (Bytes × Node)
  | [] => []
  | (name, node) :: rest =>
    if s.keeps t path name node then
      (name, prune s t (path.join name) node) :: pruneEntries s t path rest
    else pruneEntries s t path rest

end

/-- The tree without what is not selected at and below the start. -/
def pruned (s : Survey) (t : FileTree) (start : Path) : FileTree :=
  match t.locate ⟨true, false⟩ start with
  | .ok place => { t with root := Place.rebuilt { place with node := s.prune t start place.node } }
  | .error _ => t

variable {s : Survey} {t : FileTree} {start : Path}

@[simp] theorem hides_showHidden (s : Survey) (name : Bytes) : s.showHidden.hides name = false := rfl

theorem hides_of_selects {directory : Path} {name : Bytes}
    (h : s.selects t directory name = true) : s.hides name = false := by
  simp only [selects, Bool.and_eq_true, Bool.not_eq_true'] at h
  exact h.1.2

/-- A file that is counted is kept. -/
theorem keeps_of_selects {directory : Path} {name : Bytes}
    (h : s.selects t directory name = true) (node : Node) :
    s.keeps t directory name node = true := by
  rw [keeps, hides_of_selects h, h, Bool.or_true]
  rfl

/-! ## What is left of a directory -/

theorem pruneEntries_eq_map (path : Path) (entries : List (Bytes × Node)) :
    s.pruneEntries t path entries = (entries.filter fun e => s.keeps t path e.1 e.2).map fun e =>
      (e.1, s.prune t (path.join e.1) e.2) := by
  induction entries with
  | nil => rfl
  | cons e rest ih =>
    obtain ⟨name, node⟩ := e
    rw [pruneEntries, List.filter_cons]
    split
    · rw [List.map_cons, ih]
    · exact ih

theorem mem_pruneEntries {path : Path} {entries : List (Bytes × Node)} {e : Bytes × Node}
    (he : e ∈ entries) (hkeeps : s.keeps t path e.1 e.2 = true) :
    (e.1, s.prune t (path.join e.1) e.2) ∈ s.pruneEntries t path entries := by
  rw [pruneEntries_eq_map]
  exact List.mem_map.mpr ⟨e, List.mem_filter.mpr ⟨he, hkeeps⟩, rfl⟩

theorem exists_of_mem_pruneEntries {path : Path} {entries : List (Bytes × Node)} {name : Bytes}
    {left : Node} (h : (name, left) ∈ s.pruneEntries t path entries) :
    ∃ node, (name, node) ∈ entries ∧ left = s.prune t (path.join name) node := by
  rw [pruneEntries_eq_map] at h
  obtain ⟨⟨n, node⟩, hmem, heq⟩ := List.mem_map.mp h
  cases heq
  exact ⟨node, (List.mem_filter.mp hmem).1, rfl⟩

/-- The names that are left, in the order they were listed in. -/
theorem map_fst_pruneEntries (path : Path) (entries : List (Bytes × Node)) :
    (s.pruneEntries t path entries).map (·.1) =
      (entries.filter fun e => s.keeps t path e.1 e.2).map (·.1) := by
  rw [pruneEntries_eq_map, List.map_map]
  rfl

theorem nodup_pruneEntries {entries : List (Bytes × Node)} (h : (entries.map (·.1)).Nodup)
    (path : Path) : ((s.pruneEntries t path entries).map (·.1)).Nodup := by
  rw [map_fst_pruneEntries]
  exact h.sublist (List.filter_sublist.map _)

mutual

theorem wellFormed_prune : (node : Node) → node.WellFormed → (path : Path) →
    (s.prune t path node).WellFormed
  | .file .., h, _ => by rw [prune]; exact h
  | .link _, h, _ => by rw [prune]; exact h
  | .directory permission entries, h, path => by
    have hall := wellFormed_pruneEntries entries h.forall_mem path
    rw [prune]
    exact .directory permission _ (nodup_pruneEntries h.nodup path) (fun e he => (hall e he).1)
      fun e he => (hall e he).2

theorem wellFormed_pruneEntries : (entries : List (Bytes × Node)) →
    (∀ e ∈ entries, e.1.IsEntryName ∧ e.2.WellFormed) → (path : Path) →
    ∀ e ∈ s.pruneEntries t path entries, e.1.IsEntryName ∧ e.2.WellFormed
  | [], _, _, _, he => by rw [pruneEntries] at he; cases he
  | (name, node) :: rest, h, path, e, he => by
    have hrest := wellFormed_pruneEntries rest (fun e he => h e (List.mem_cons_of_mem _ he)) path
    rw [pruneEntries] at he
    split at he
    · obtain rfl | he := List.mem_cons.mp he
      · obtain ⟨hname, hnode⟩ := h _ List.mem_cons_self
        exact ⟨hname, wellFormed_prune node hnode (path.join name)⟩
      · exact hrest e he
    · exact hrest e he

end

mutual

/-- What is left was there. -/
theorem covers_prune : (node : Node) → node.WellFormed → (path : Path) →
    node.Covers (s.prune t path node)
  | .file .., _, _ => by rw [prune]; exact .refl _
  | .link _, _, _ => by rw [prune]; exact .refl _
  | .directory permission entries, h, path => by
    rw [prune]
    refine Node.covers_directory fun name left hleft => ?_
    obtain ⟨node, hmem, rfl⟩ := exists_of_mem_pruneEntries (mem_of_lookup hleft)
    exact ⟨node, lookup_of_mem h.nodup hmem,
      covers_pruneEntries entries h.forall_mem path (name, node) hmem⟩

theorem covers_pruneEntries : (entries : List (Bytes × Node)) →
    (∀ e ∈ entries, e.1.IsEntryName ∧ e.2.WellFormed) → (path : Path) →
    ∀ e ∈ entries, e.2.Covers (s.prune t (path.join e.1) e.2)
  | [], _, _, _, he => by cases he
  | (name, node) :: rest, h, path, e, he => by
    obtain rfl | he := List.mem_cons.mp he
    · exact covers_prune node (h _ List.mem_cons_self).2 (path.join name)
    · exact covers_pruneEntries rest (fun e he => h e (List.mem_cons_of_mem _ he)) path e he

end

mutual

/-- The walks come to the same directories. -/
theorem visits_prune : (node : Node) → (path : Path) → (depth : Nat) →
    s.showHidden.visits path depth (s.prune t path node) = s.visits path depth node
  | .file .., _, _ => by rw [prune, visits, visits]
  | .link _, _, _ => by rw [prune, visits, visits]
  | .directory permission entries, path, depth => by
    rw [prune, visits, visits, visitsIn_pruneEntries entries path (depth + 1)]

theorem visitsIn_pruneEntries : (entries : List (Bytes × Node)) → (path : Path) → (depth : Nat) →
    s.showHidden.visitsIn path depth (s.pruneEntries t path entries) =
      s.visitsIn path depth entries
  | [], _, _ => by rw [pruneEntries, visitsIn, visitsIn]
  | (name, node) :: rest, path, depth => by
    have hrest := visitsIn_pruneEntries rest path depth
    have hnode := visits_prune node (path.join name) depth
    rw [pruneEntries, visitsIn]
    cases hh : s.hides name with
    | true =>
      have hkeeps : s.keeps t path name node = false := by rw [keeps, hh]; rfl
      rw [hkeeps, if_neg Bool.false_ne_true, if_pos rfl, List.nil_append, hrest]
    | false =>
      rw [if_neg Bool.false_ne_true]
      split
      · rw [visitsIn, hides_showHidden, if_neg Bool.false_ne_true, hnode, hrest]
      · next hkeeps =>
        have hnone : s.visits (path.join name) depth node = [] := by
          cases node with
          | file permission content => rw [visits]
          | link target => rw [visits]
          | directory permission inside => simp [keeps, hh, Node.isDirectory] at hkeeps
        rw [hnone, List.nil_append, hrest]

end

/-! ## The start in both trees -/

theorem workingDirectory_pruned (s : Survey) (t : FileTree) (start : Path) :
    (s.pruned t start).workingDirectory = t.workingDirectory := by
  unfold pruned
  split <;> rfl

theorem covers_pruned (ht : t.WellFormed) (start : Path) :
    t.root.Covers (s.pruned t start).root := by
  unfold pruned
  split
  · next place hplace =>
    have hwf := (ht.locate hplace).node
    exact (FileTree.within_of_locate hplace).covers_rebuilt (covers_prune place.node hwf start)
  · exact .refl t.root

/-- A start that is kept leads to what is left of what it led to. -/
theorem target_pruned (ht : t.WellFormed) {node : Node} (htarget : t.target start = .ok node)
    (hkept : t.KeptIn (s.pruned t start) start) :
    (s.pruned t start).target start = .ok (s.prune t start node) := by
  obtain ⟨q, q', hq, hq', htwins⟩ := hkept.locate_of_target (covers_pruned ht start)
    (workingDirectory_pruned s t start) htarget
  have hnode : q.node = node := by
    rw [FileTree.target_eq_ok.mpr ⟨q, hq, rfl⟩] at htarget
    exact Except.ok.inj htarget
  have hpruned : (s.pruned t start).root =
      Place.rebuilt { q with node := s.prune t start q.node } := by
    rw [pruned, hq]
  have hthere := htwins.within'.at?_location
  rw [htwins.location_eq, hpruned, htwins.within.at?_rebuilt, hnode] at hthere
  exact FileTree.target_eq_ok.mpr ⟨q', hq', (Option.some.inj hthere).symm⟩

/-- The walks have the same itinerary, if the start leads anywhere. -/
theorem itinerary_pruned (ht : t.WellFormed) {node : Node} (htarget : t.target start = .ok node)
    (hkept : t.KeptIn (s.pruned t start) start) :
    s.showHidden.itinerary (s.pruned t start) start = s.itinerary t start := by
  have htarget' := target_pruned ht htarget hkept
  obtain ⟨named, named', hentry, hentry', hlike⟩ := hkept.entry (covers_pruned ht start)
    (workingDirectory_pruned s t start) htarget
  cases hlike with
  | file permission content =>
    rw [itinerary_of_entry hentry rfl, itinerary_of_entry hentry' rfl, visits, visits]
  | directory permission entries entries' =>
    have hsame := FileTree.target_of_entry hentry rfl
    have hsame' := FileTree.target_of_entry hentry' rfl
    rw [htarget] at hsame
    cases hsame
    rw [htarget'] at hsame'
    cases hsame'
    rw [itinerary_of_entry hentry rfl, itinerary_of_entry hentry' rfl]
    exact congrArg Except.ok (visits_prune (.directory permission entries) start 0)
  | link link =>
    have halike := FileTree.alike_of_target htarget htarget'
    cases node with
    | file permission content =>
      rw [prune] at htarget'
      rw [itinerary_of_link_of_not_directory hentry htarget rfl,
        itinerary_of_link_of_not_directory hentry' htarget' rfl]
    | link link =>
      rw [prune] at htarget'
      rw [itinerary_of_link_of_not_directory hentry htarget rfl,
        itinerary_of_link_of_not_directory hentry' htarget' rfl]
    | directory permission entries =>
      rw [prune] at htarget' halike
      rw [itinerary_of_link hentry htarget, itinerary_of_link hentry' htarget']
      obtain ⟨hlist, hlist'⟩ | ⟨e, he, he'⟩ := halike.list
      · rw [hlist, hlist']
        exact congrArg Except.ok (visitsIn_pruneEntries entries start 1)
      · rw [he, he']
        rfl

/-! ## Single directories in both trees -/

/-- A directory of the walk: its path goes on from the start, and it is
looked up as what is left of it is in the pruned tree. -/
theorem alike_prune (ht : t.WellFormed) {node : Node} (htarget : t.target start = .ok node)
    (hkept : t.KeptIn (s.pruned t start) start) :
    ∀ d ∈ s.directories start node, d.isAbsolute = start.isAbsolute ∧
      ∃ permission entries, t.Alike (s.pruned t start) d (.directory permission entries)
        (.directory permission (s.pruneEntries t d entries)) := by
  intro d hd
  have hwf := ht.target htarget
  obtain ⟨permission, entries, _, ⟨_, habsolute, hleft⟩, halike⟩ := alike_directories (s := s)
    (R := fun path node left =>
      node.WellFormed ∧ path.isAbsolute = start.isAbsolute ∧ left = s.prune t path node)
    (fun path permission entries left hrel => by
      obtain ⟨hwf, habsolute, rfl⟩ := hrel
      refine ⟨s.pruneEntries t path entries, by rw [prune], fun e he hshown hdir => ?_⟩
      have hkeeps : s.keeps t path e.1 e.2 = true := by rw [keeps, hshown, hdir]; rfl
      exact ⟨_, mem_pruneEntries he hkeeps, hwf.of_mem he,
        (Path.isAbsolute_join path (hwf.isEntryName he)).trans habsolute, rfl⟩)
    hwf (wellFormed_prune node hwf start) ⟨hwf, rfl, rfl⟩
    (FileTree.alike_of_target htarget (target_pruned ht htarget hkept)) d hd
  rw [prune] at hleft
  cases hleft
  exact ⟨habsolute, permission, entries, halike⟩

/-- What pruning keeps in a directory leads to the same in both trees, if
that is asked of links. -/
theorem leadsAlike_of_keeps (ht : t.WellFormed) {d : Path} {permission : Permission}
    {entries : List (Bytes × Node)} (hstart : t.KeptIn (s.pruned t start) start) {node : Node}
    (htarget : t.target start = .ok node) (habsolute : d.isAbsolute = start.isAbsolute)
    (halike : t.Alike (s.pruned t start) d (.directory permission entries)
      (.directory permission (s.pruneEntries t d entries)))
    (hlist : t.list d = .ok entries)
    (hlinks : ∀ name link, (name, .link link) ∈ entries → s.selects t d name = true →
      t.KeptIn (s.pruned t start) (d.join name))
    {e : Bytes × Node} (he : e ∈ entries) (hkeeps : s.keeps t d e.1 e.2 = true) :
    t.LeadsAlike (s.pruned t start) (d.join e.1) := by
  obtain ⟨name, child⟩ := e
  obtain ⟨_, hdir, _⟩ := FileTree.list_eq_ok.mp hlist
  have hwf := ht.target hdir
  have hname := hwf.isEntryName he
  have hfound := lookup_of_mem hwf.nodup he
  have hleft : (s.pruneEntries t d entries).lookup name = some (s.prune t (d.join name) child) :=
    lookup_of_mem (nodup_pruneEntries hwf.nodup d) (mem_pruneEntries he hkeeps)
  cases child with
  | directory childPermission inside =>
    rw [prune] at hleft
    exact (halike.join hname hfound hleft rfl rfl).leadsAlike (.directory ..)
  | file filePermission content =>
    rw [prune] at hleft
    exact (halike.join hname hfound hleft rfl rfl).leadsAlike (.file ..)
  | link link =>
    have hselects : s.selects t d name = true := by
      simp only [keeps, Node.isDirectory, Bool.false_or, Bool.and_eq_true] at hkeeps
      exact hkeeps.2
    have hbeginning : t.beginning (d.join name) = t.beginning start := by
      rw [FileTree.beginning_join hname, FileTree.beginning, FileTree.beginning, habsolute]
    refine (hlinks name link he hselects).leadsAlike (covers_pruned ht start)
      (workingDirectory_pruned s t start) ?_
    rw [hbeginning]
    exact Option.isSome_iff_ne_none.mp (hstart node htarget _ List.mem_cons_self)

/-- The same files are counted in a directory and in what is left of it. -/
theorem selected_pruneEntries {t' : FileTree} {d : Path} {entries : List (Bytes × Node)}
    (halike : ∀ e ∈ entries, s.keeps t d e.1 e.2 = true → t.LeadsAlike t' (d.join e.1)) :
    s.showHidden.selected t' d (s.pruneEntries t d entries) = s.selected t d entries := by
  rw [selected, selected, map_fst_pruneEntries, List.filter_map, List.filter_map,
    List.filter_filter]
  refine congrArg _ (List.filter_congr fun e he => ?_)
  rw [Function.comp_apply, Function.comp_apply]
  cases hkeeps : s.keeps t d e.1 e.2 with
  | true =>
    have hshown : s.hides e.1 = false := by
      simp only [keeps, Bool.and_eq_true, Bool.not_eq_true'] at hkeeps
      exact hkeeps.1
    rw [Bool.and_true, selects, selects, hides_showHidden, hshown,
      (halike e he hkeeps).isDirectory_eq]
    rfl
  | false =>
    rw [Bool.and_false]
    cases hselects : s.selects t d e.1 with
    | false => rfl
    | true =>
      rw [keeps_of_selects hselects e.2] at hkeeps
      cases hkeeps

theorem measureFile_eq {t' : FileTree} {path : Path} (h : t.LeadsAlike t' path) (style : Style) :
    t.measureFile style path = t'.measureFile style path := by
  unfold FileTree.measureFile
  obtain heq | ⟨e, e', he, he'⟩ := h.readText
  · rw [heq]
  · rw [he, he']

/-- The same is found in a directory in which the same files are counted and
can be read alike. -/
theorem found_showHidden {t' : FileTree} {d : Path}
    (hfiles : s.showHidden.files t' d = s.files t d)
    (halike : ∀ name ∈ s.files t d, t.LeadsAlike t' (d.join name)) :
    s.showHidden.found t' d = s.found t d := by
  have hmeasures : (s.files t d).map (fun name => t'.measureFile s.style (d.join name)) =
      (s.files t d).map fun name => t.measureFile s.style (d.join name) :=
    List.map_congr_left fun name hname => (measureFile_eq (halike name hname) s.style).symm
  rw [found, found, hfiles]
  exact congrArg (s.aggregation.combine d) hmeasures

/-- A directory is visited alike in both trees. -/
theorem perform_pruned (ht : t.WellFormed) {node : Node} (htarget : t.target start = .ok node)
    (hstart : t.KeptIn (s.pruned t start) start) {v : Visit}
    (hv : v.directory ∈ s.directories start node)
    (hlinks : ∀ entries, t.list v.directory = .ok entries → ∀ name link,
      (name, .link link) ∈ entries → s.selects t v.directory name = true →
      t.KeptIn (s.pruned t start) (v.directory.join name)) :
    s.showHidden.perform (s.pruned t start) v = s.perform t v := by
  obtain ⟨habsolute, permission, entries, halike⟩ := alike_prune ht htarget hstart v.directory hv
  rw [perform_eq_play, perform_eq_play, visitScript, visitScript]
  obtain ⟨hlist, hlist'⟩ | ⟨e, he, he'⟩ := halike.list
  · have hkept : ∀ e ∈ entries, s.keeps t v.directory e.1 e.2 = true →
        t.LeadsAlike (s.pruned t start) (v.directory.join e.1) := fun e he =>
      leadsAlike_of_keeps ht hstart htarget habsolute halike hlist (hlinks entries hlist) he
    have hfiles : s.showHidden.files (s.pruned t start) v.directory = s.files t v.directory := by
      rw [files, files, hlist, hlist']
      exact selected_pruneEntries hkept
    have hfound : s.showHidden.found (s.pruned t start) v.directory = s.found t v.directory := by
      refine found_showHidden hfiles fun name hname => ?_
      rw [files, hlist] at hname
      obtain ⟨hmem, hselects⟩ := List.mem_filter.mp hname
      obtain ⟨e, he, rfl⟩ := List.mem_map.mp hmem
      exact hkept e he (keeps_of_selects hselects e.2)
    have hblock : s.showHidden.block (s.pruned t start) v = s.block t v := by
      rw [block, block, hfiles, hfound]
      rfl
    rw [hlist, hlist', hblock, hfound]
  · rw [he, he']

/-! ## The whole walk -/

/-- A start that leads nowhere leads nowhere in the pruned tree. -/
theorem itinerary_pruned_of_error {e : IoError} (h : t.target start = .error e) :
    ∃ e, s.itinerary t start = .error e ∧
      s.showHidden.itinerary (s.pruned t start) start = .error e := by
  have hpruned : s.pruned t start = t := by
    unfold pruned
    split
    · next place hplace => rw [FileTree.target_eq_ok.mpr ⟨place, hplace, rfl⟩] at h; cases h
    · rfl
  rw [hpruned]
  cases hentry : t.entry start with
  | error e => exact ⟨e, itinerary_of_entry_error hentry, itinerary_of_entry_error hentry⟩
  | ok node =>
    cases node with
    | file permission content => rw [FileTree.target_of_entry hentry rfl] at h; cases h
    | directory permission entries => rw [FileTree.target_of_entry hentry rfl] at h; cases h
    | link link =>
      exact ⟨e, itinerary_of_target_error hentry h, itinerary_of_target_error hentry h⟩

/-- A walk keeps below what its start leads to. -/
theorem mem_directories_of_mem_walkOrder {node : Node} (htarget : t.target start = .ok node)
    {d : Path} (hd : d ∈ s.walkOrder t start) : d ∈ s.directories start node := by
  unfold walkOrder at hd
  split at hd
  · rw [htarget] at hd
    cases node with
    | file permission content => simp at hd
    | link link => simp at hd
    | directory permission entries => exact List.mem_cons_of_mem _ hd
  · next named hlink hentry =>
    rw [FileTree.target_of_entry hentry (Node.isLink_eq_false hlink)] at htarget
    cases htarget
    exact hd
  · simp at hd

/-- What is not selected is not noticed: the walk of the survey and the walk
through the pruned tree, with hidden names shown, are the same report.  They
find the same, write the same and fail in the same way, to whatever sink.

The start and the links to files that are left in the directories of the walk
must not lead through what was pruned. -/
theorem traverse_pruned (ht : t.WellFormed) (start : Path)
    (hstart : t.KeptIn (s.pruned t start) start)
    (hlinks : ∀ d ∈ s.walkOrder t start, ∀ entries, t.list d = .ok entries →
      ∀ name link, (name, .link link) ∈ entries → s.selects t d name = true →
        t.KeptIn (s.pruned t start) (d.join name)) :
    s.showHidden.traverse (s.pruned t start) start = s.traverse t start := by
  rw [traverse_eq_mapM, traverse_eq_mapM]
  cases htarget : t.target start with
  | error e =>
    obtain ⟨e, he, he'⟩ := itinerary_pruned_of_error (s := s) htarget
    rw [he, he', Report.require_error_bind, Report.require_error_bind]
  | ok node =>
    rw [itinerary_pruned ht htarget hstart]
    cases hvs : s.itinerary t start with
    | error e => rw [Report.require_error_bind, Report.require_error_bind]
    | ok vs =>
      refine mapM_congr_of_mem fun v hv => ?_
      have hwalk : v.directory ∈ s.walkOrder t start :=
        map_directory_itinerary hvs ▸ List.mem_map_of_mem hv
      exact perform_pruned ht htarget hstart (mem_directories_of_mem_walkOrder htarget hwalk)
        (hlinks v.directory hwalk)

/-- A directory `code` with a source, links to it and to a directory, a note,
a directory with a source that is left out, and a hidden directory that
cannot be listed. -/
def clutteredTree : FileTree where
  root := .directory .all
    [(Bytes.ofString "code", .directory .all
      [(Bytes.ofString "a.fs", .file .all "// a\n".toUTF8),
        (Bytes.ofString "b.fs", .link (.ofString "a.fs")),
        (Bytes.ofString "c.fs", .link (.ofString "in")),
        (Bytes.ofString "note", .file .all "".toUTF8),
        (Bytes.ofString "in", .directory .all
          [(Bytes.ofString "Gen.fs", .file .all "// d\n".toUTF8)]),
        (Bytes.ofString ".git", .directory ⟨false, false⟩ [])])]
  workingDirectory := []

/-- What is left of it. -/
def tidyTree : FileTree where
  root := .directory .all
    [(Bytes.ofString "code", .directory .all
      [(Bytes.ofString "a.fs", .file .all "// a\n".toUTF8),
        (Bytes.ofString "b.fs", .link (.ofString "a.fs")),
        (Bytes.ofString "in", .directory .all [])])]
  workingDirectory := []

/-- The two trees show the same sources. -/
theorem traverse_pruned_clutteredTree :
    clutteredTree.WellFormed ∧
      traverse ⟨".fs", ["Gen.fs"], .fsharp, .sum, false, true⟩ tidyTree (.ofString "code") =
        traverse ⟨".fs", ["Gen.fs"], .fsharp, .sum, true, true⟩ clutteredTree
          (.ofString "code") := by
  have hwf : clutteredTree.WellFormed := by decide
  have hpruned : pruned ⟨".fs", ["Gen.fs"], .fsharp, .sum, true, true⟩ clutteredTree
      (.ofString "code") = tidyTree := rfl
  have hstart : ∀ names ∈ clutteredTree.trail (.ofString "code"),
      (tidyTree.root.at? names).isSome = true := by decide
  have hlink : ∀ names ∈ clutteredTree.trail (.ofString "code/b.fs"),
      (tidyTree.root.at? names).isSome = true := by decide
  refine ⟨hwf, hpruned ▸ traverse_pruned hwf _ (fun _ _ => hpruned ▸ hstart) ?_⟩
  intro d hd entries hlist name link hmem hselects
  obtain rfl | rfl : d = .ofString "code" ∨ d = .ofString "code/in" := by
    simpa using (show d ∈ [Path.ofString "code", .ofString "code/in"] from hd)
  · cases hlist
    simp only [List.mem_cons, List.not_mem_nil, or_false] at hmem
    obtain h | h | h | h | h | h := hmem
    · cases h
    · cases h
      exact fun _ _ => hpruned ▸ hlink
    · cases h
      exact absurd hselects (by decide)
    · cases h
    · cases h
    · cases h
  · cases hlist
    simp at hmem

end CommentDensity.Survey
