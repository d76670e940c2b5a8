import CommentDensity.Proofs.Survey.Results
import Mathlib.Logic.Relation

/-!
# CommentDensity.Proofs.Survey.Coverage

Which directories a walk visits.

`Enters` is one step of the walk, said by listings alone: an entry that is
itself a directory, and not left out for its name.  A walk that succeeds
visits exactly what such steps reach from its start, each directory once,
and in the order of `walkOrder`.

* `mem_directories_iff` — the tree of nodes and the listings by path agree,
  since every directory visited could be listed;
* `nodup_directories` — no two directories have the same path: siblings
  differ in a name, and all below them keeps it.
-/

namespace CommentDensity.Survey

variable {s : Survey} {t : FileTree}

/-! ## Steps of the walk -/

/-- The listing of `parent` shows an entry that is itself a directory, and
no link to one, and that is not left out for its name; `child` is its path. -/
def Enters (s : Survey) (t : FileTree) (parent child : Path) : Prop :=
  ∃ entries name node, t.list parent = .ok entries ∧ (name, node) ∈ entries ∧
    node.isDirectory = true ∧ s.hides name = false ∧ child = parent.join name

/-- The directories that a walk from `start` has to visit: the start, if it
is itself a directory, and all that is reached by steps of the walk. -/
def Reaches (s : Survey) (t : FileTree) (start directory : Path) : Prop :=
  (directory = start ∧ ∃ permission entries, t.entry start = .ok (.directory permission entries)) ∨
    Relation.TransGen (s.Enters t) start directory

theorem enters_iff {parent child : Path} {entries : List (Bytes × Node)}
    (hlist : t.list parent = .ok entries) :
    s.Enters t parent child ↔ ∃ name node, (name, node) ∈ entries ∧ node.isDirectory = true ∧
      s.hides name = false ∧ child = parent.join name := by
  constructor
  · rintro ⟨listed, name, node, hlisted, hmem, hrest⟩
    rw [hlist] at hlisted
    cases hlisted
    exact ⟨name, node, hmem, hrest⟩
  · rintro ⟨name, node, hmem, hrest⟩
    exact ⟨entries, name, node, hlist, hmem, hrest⟩

mutual

/-- Below a directory that its path leads to, the walk visits what steps of
the walk reach. -/
theorem mem_directories_iff (ht : t.WellFormed) : (node : Node) → {path d : Path} →
    t.target path = .ok node → (∀ d ∈ s.directories path node, ∃ entries, t.list d = .ok entries) →
    (d ∈ s.directories path node ↔
      node.isDirectory = true ∧ Relation.ReflTransGen (s.Enters t) path d)
  | .file .., _, _, _, _ => by simp [directories, Node.isDirectory]
  | .link _, _, _, _, _ => by simp [directories, Node.isDirectory]
  | .directory permission entries, path, d, htarget, hlist => by
    obtain ⟨listed, hlisted⟩ := hlist path (by simp [directories])
    rw [FileTree.list_eq_of_target hlisted htarget] at hlisted
    have hin := mem_directoriesIn_iff ht entries (d := d) hlisted (fun _ he => he) fun d hd =>
      hlist d (by simp [directories, hd])
    rw [directories, List.mem_cons, hin, Relation.ReflTransGen.cases_head_iff]
    simp only [Node.isDirectory, true_and, enters_iff hlisted]
    constructor
    · rintro (rfl | ⟨name, node, hmem, hdir, hshown, hreach⟩)
      · exact .inl rfl
      · exact .inr ⟨_, ⟨name, node, hmem, hdir, hshown, rfl⟩, hreach⟩
    · rintro (rfl | ⟨_, ⟨name, node, hmem, hdir, hshown, rfl⟩, hreach⟩)
      · exact .inl rfl
      · exact .inr ⟨name, node, hmem, hdir, hshown, hreach⟩

/-- The same for the entries of a directory that are still to be met. -/
theorem mem_directoriesIn_iff (ht : t.WellFormed) : (rest : List (Bytes × Node)) →
    {path d : Path} → {entries : List (Bytes × Node)} → t.list path = .ok entries →
    (∀ e ∈ rest, e ∈ entries) →
    (∀ d ∈ s.directoriesIn path rest, ∃ entries, t.list d = .ok entries) →
    (d ∈ s.directoriesIn path rest ↔ ∃ name node, (name, node) ∈ rest ∧ node.isDirectory = true ∧
      s.hides name = false ∧ Relation.ReflTransGen (s.Enters t) (path.join name) d)
  | [], _, _, _, _, _, _ => by simp [directoriesIn]
  | (name, node) :: rest, path, d, entries, hlist, hsub, hlisted => by
    have hrest := mem_directoriesIn_iff ht rest (d := d) hlist
      (fun e he => hsub e (List.mem_cons_of_mem _ he))
      fun d hd => hlisted d (by simp [directoriesIn, hd])
    have hfirst : d ∈ (if s.hides name then [] else s.directories (path.join name) node) ↔
        node.isDirectory = true ∧ s.hides name = false ∧
          Relation.ReflTransGen (s.Enters t) (path.join name) d := by
      cases hh : s.hides name with
      | true => simp
      | false =>
        cases node with
        | file permission content => simp [directories, Node.isDirectory]
        | link target => simp [directories, Node.isDirectory]
        | directory permission inside =>
          have hbelow : ∀ d ∈ s.directories (path.join name) (.directory permission inside),
              ∃ entries, t.list d = .ok entries :=
            fun d hd => hlisted d (by simp [directoriesIn, hh, hd])
          obtain ⟨listed, hjoined⟩ := hbelow (path.join name) (by simp [directories])
          have htarget := FileTree.target_of_list_join ht hlist (hsub _ List.mem_cons_self) hjoined
          simpa using mem_directories_iff ht (.directory permission inside) htarget hbelow
    rw [directoriesIn, List.mem_append, hfirst, hrest]
    constructor
    · rintro (⟨hdir, hshown, hreach⟩ | ⟨n, other, hmem, hothers⟩)
      · exact ⟨name, node, List.mem_cons_self, hdir, hshown, hreach⟩
      · exact ⟨n, other, List.mem_cons_of_mem _ hmem, hothers⟩
    · rintro ⟨n, other, hmem, hothers⟩
      obtain heq | hmem := List.mem_cons.mp hmem
      · cases heq
        exact .inl hothers
      · exact .inr ⟨n, other, hmem, hothers⟩

end

/-- From what leads to no directory no step is taken. -/
theorem not_transGen_enters {start d : Path}
    (hno : ∀ permission entries, t.target start ≠ .ok (.directory permission entries)) :
    ¬ Relation.TransGen (s.Enters t) start d := by
  intro hreach
  obtain ⟨_, ⟨entries, _, _, hlisted, _⟩, _⟩ := Relation.TransGen.head'_iff.mp hreach
  obtain ⟨permission, htarget, _⟩ := FileTree.list_eq_ok.mp hlisted
  exact hno permission entries htarget

/-- Below a directory that can be listed the walk visits what is one step of
it or more away. -/
theorem mem_directoriesIn_iff_transGen (ht : t.WellFormed) {path d : Path}
    {entries : List (Bytes × Node)} (hlisted : t.list path = .ok entries)
    (hlist : ∀ d ∈ s.directoriesIn path entries, ∃ entries, t.list d = .ok entries) :
    d ∈ s.directoriesIn path entries ↔ Relation.TransGen (s.Enters t) path d := by
  rw [mem_directoriesIn_iff ht entries hlisted (fun _ he => he) hlist, Relation.TransGen.head'_iff]
  simp only [enters_iff hlisted]
  constructor
  · rintro ⟨name, node, hmem, hnode, hshown, hreach⟩
    exact ⟨_, ⟨name, node, hmem, hnode, hshown, rfl⟩, hreach⟩
  · rintro ⟨_, ⟨name, node, hmem, hnode, hshown, rfl⟩, hreach⟩
    exact ⟨name, node, hmem, hnode, hshown, hreach⟩

/-- A walk visits what it has to visit. -/
theorem mem_walkOrder_iff (ht : t.WellFormed) {start d : Path} {node : Node}
    (hentry : t.entry start = .ok node)
    (hstart : ∀ permission entries, t.target start = .ok (.directory permission entries) →
      t.list start = .ok entries)
    (hlist : ∀ d ∈ s.walkOrder t start, ∃ entries, t.list d = .ok entries) :
    d ∈ s.walkOrder t start ↔ s.Reaches t start d := by
  unfold Reaches
  rw [hentry]
  rw [walkOrder, hentry] at hlist ⊢
  cases node with
  | directory permission entries =>
    rw [mem_directories_iff ht _ (FileTree.target_of_entry hentry rfl) hlist,
      Relation.reflTransGen_iff_eq_or_transGen]
    simp [Node.isDirectory]
  | file permission content =>
    have hno : ∀ permission entries, t.target start ≠ .ok (.directory permission entries) := by
      simp [FileTree.target_of_entry hentry rfl]
    simp [directories, not_transGen_enters hno]
  | link _ =>
    by_cases hdir : ∃ permission entries, t.target start = .ok (.directory permission entries)
    · obtain ⟨permission, entries, htarget⟩ := hdir
      have hlisted := hstart permission entries htarget
      simp only [htarget] at hlist ⊢
      rw [mem_directoriesIn_iff_transGen ht hlisted hlist]
      simp
    · have hno : ∀ permission entries, t.target start ≠ .ok (.directory permission entries) :=
        fun permission entries htarget => hdir ⟨permission, entries, htarget⟩
      dsimp only
      split
      · next htarget => exact absurd htarget (hno _ _)
      · simp [not_transGen_enters hno]

/-! ## No directory twice -/

/-- What can stand behind the name of an entry in the path of something at or
below it. -/
def IsTail (tail : Bytes) : Prop := tail = [] ∨ tail.head? = some Path.slash

/-- The name of an entry can be read off the path of all below it. -/
theorem takeWhile_append_tail {name tail : Bytes} (hname : name.IsEntryName) (htail : IsTail tail) :
    (name ++ tail).takeWhile (· ≠ Path.slash) = name := by
  have hall : ∀ b ∈ name, (decide (b ≠ Path.slash)) = true := by
    intro b hb
    simp only [decide_eq_true_eq]
    rintro rfl
    exact hname.slash_notMem hb
  rw [List.takeWhile_append_of_pos hall]
  obtain rfl | htail := htail
  · simp
  · cases tail with
    | nil => simp
    | cons b tail =>
      obtain rfl : b = Path.slash := by simpa using htail
      simp

/-- Below different entries of a directory there are no equal paths. -/
theorem eq_of_join_append_eq {path : Path} {name name' tail tail' : Bytes}
    (hname : name.IsEntryName) (hname' : name'.IsEntryName) (htail : IsTail tail)
    (htail' : IsTail tail')
    (h : (path.join name).bytes ++ tail = (path.join name').bytes ++ tail') : name = name' := by
  have hsame : name ++ tail = name' ++ tail' := by
    rw [Path.bytes_join hname, Path.bytes_join hname'] at h
    split at h <;> simpa using h
  rw [← takeWhile_append_tail hname htail, hsame, takeWhile_append_tail hname' htail']

theorem length_lt_join (path : Path) {name : Bytes} (hname : name.IsEntryName) :
    path.bytes.length < (path.join name).bytes.length := by
  have hpos : 0 < name.length := List.length_pos_iff.mpr hname.ne_nil
  rw [Path.bytes_join hname]
  split
  · rw [List.length_append]; omega
  · rw [List.length_append, List.length_cons]; omega

mutual

/-- All below a directory has a path that goes through one of its entries. -/
theorem bytes_of_mem_directories : (node : Node) → node.WellFormed → {path d : Path} →
    d ∈ s.directories path node → d = path ∨
      ∃ name tail, name.IsEntryName ∧ IsTail tail ∧ d.bytes = (path.join name).bytes ++ tail
  | .file .., _, _, _, h => by simp [directories] at h
  | .link _, _, _, _, h => by simp [directories] at h
  | .directory _ entries, hwf, _, _, h => by
    obtain rfl | h := List.mem_cons.mp h
    · exact .inl rfl
    · obtain ⟨e, he, tail, htail, hbytes⟩ := bytes_of_mem_directoriesIn entries
        hwf.forall_mem h
      exact .inr ⟨e.1, tail, hwf.isEntryName he, htail, hbytes⟩

theorem bytes_of_mem_directoriesIn : (entries : List (Bytes × Node)) →
    (∀ e ∈ entries, e.1.IsEntryName ∧ e.2.WellFormed) → {path d : Path} →
    d ∈ s.directoriesIn path entries →
      ∃ e ∈ entries, ∃ tail, IsTail tail ∧ d.bytes = (path.join e.1).bytes ++ tail
  | [], _, _, _, h => by simp [directoriesIn] at h
  | (name, node) :: rest, hwf, path, d, h => by
    obtain ⟨hname, hnode⟩ := hwf _ List.mem_cons_self
    rw [directoriesIn, List.mem_append] at h
    obtain h | h := h
    · split at h
      · simp at h
      · obtain rfl | ⟨below, tail, hbelow, htail, hbytes⟩ := bytes_of_mem_directories node hnode h
        · exact ⟨(name, node), List.mem_cons_self, [], .inl rfl, by simp⟩
        · refine ⟨(name, node), List.mem_cons_self, Path.slash :: (below ++ tail), .inr rfl, ?_⟩
          have hends : ¬ ((path.join name).bytes = [] ∨
              (path.join name).bytes.getLast? = some Path.slash) := by
            rintro (hnil | hslash)
            · have := length_lt_join path hname
              simp [hnil] at this
            · exact Path.getLast?_join_ne_slash path hname hslash
          rw [hbytes, Path.bytes_join hbelow, if_neg hends]
          simp
    · obtain ⟨e, he, hrest⟩ := bytes_of_mem_directoriesIn rest
        (fun e he => hwf e (List.mem_cons_of_mem _ he)) h
      exact ⟨e, List.mem_cons_of_mem _ he, hrest⟩

end

/-- No directory is below itself. -/
theorem self_notMem_directoriesIn {entries : List (Bytes × Node)} {path : Path}
    (hwf : ∀ e ∈ entries, e.1.IsEntryName ∧ e.2.WellFormed) :
    path ∉ s.directoriesIn path entries := by
  intro hmem
  obtain ⟨e, he, tail, _, hbytes⟩ := bytes_of_mem_directoriesIn entries hwf hmem
  have hlt := length_lt_join path (hwf e he).1
  rw [hbytes, List.length_append] at hlt
  omega

mutual

/-- No directory is visited twice. -/
theorem nodup_directories : (node : Node) → node.WellFormed → (path : Path) →
    (s.directories path node).Nodup
  | .file .., _, _ => by simp [directories]
  | .link _, _, _ => by simp [directories]
  | .directory _ entries, hwf, path => by
    rw [directories, List.nodup_cons]
    constructor
    · exact self_notMem_directoriesIn hwf.forall_mem
    · exact nodup_directoriesIn entries hwf.nodup hwf.forall_mem path

theorem nodup_directoriesIn : (entries : List (Bytes × Node)) → (entries.map (·.1)).Nodup →
    (∀ e ∈ entries, e.1.IsEntryName ∧ e.2.WellFormed) → (path : Path) →
    (s.directoriesIn path entries).Nodup
  | [], _, _, _ => by simp [directoriesIn]
  | (name, node) :: rest, hnodup, hwf, path => by
    obtain ⟨hname, hnode⟩ := hwf _ List.mem_cons_self
    have hrest : ∀ e ∈ rest, e.1.IsEntryName ∧ e.2.WellFormed :=
      fun e he => hwf e (List.mem_cons_of_mem _ he)
    rw [List.map_cons, List.nodup_cons] at hnodup
    rw [directoriesIn, List.nodup_append]
    refine ⟨?_, nodup_directoriesIn rest hnodup.2 hrest path, ?_⟩
    · split
      · exact List.nodup_nil
      · exact nodup_directories node hnode (path.join name)
    · rintro d hd _ hd' rfl
      -- the name of the entry it is below would be the name of two entries
      have hfirst : d ∈ s.directoriesIn path [(name, node)] := by
        rw [directoriesIn, directoriesIn, List.append_nil]
        exact hd
      obtain ⟨e, he, tail, htail, hbytes⟩ := bytes_of_mem_directoriesIn [(name, node)]
        (fun e he => hwf e (by simp at he; simp [he])) hfirst
      obtain ⟨e', he', tail', htail', hbytes'⟩ := bytes_of_mem_directoriesIn rest hrest hd'
      obtain rfl := List.mem_singleton.mp he
      have hsame : name = e'.1 :=
        eq_of_join_append_eq hname (hrest e' he').1 htail htail' (hbytes ▸ hbytes')
      exact hnodup.1 (List.mem_map.mpr ⟨e', he', hsame.symm⟩)

end

theorem nodup_walkOrder (ht : t.WellFormed) (start : Path) : (s.walkOrder t start).Nodup := by
  rw [walkOrder]
  split
  · split
    · next permission entries htarget =>
      have hwf := ht.target htarget
      exact nodup_directoriesIn entries hwf.nodup hwf.forall_mem start
    · exact List.nodup_nil
  · next node hlink hentry =>
    have htarget := FileTree.target_of_entry hentry (Node.isLink_eq_false hlink)
    exact nodup_directories node (ht.target htarget) start
  · exact List.nodup_nil

/-- A start is in its own walk exactly if it is itself a directory. -/
theorem start_mem_walkOrder_iff (ht : t.WellFormed) {start : Path} :
    start ∈ s.walkOrder t start ↔
      ∃ permission entries, t.entry start = .ok (.directory permission entries) := by
  rw [walkOrder]
  split
  · next link hentry =>
    have hno : ¬ ∃ permission entries, t.entry start = .ok (.directory permission entries) := by
      simp [hentry]
    split
    · next permission entries htarget =>
      exact iff_of_false (self_notMem_directoriesIn (ht.target htarget).forall_mem) hno
    · exact iff_of_false List.not_mem_nil hno
  · next node hlink hentry =>
    cases node with
    | link target => exact absurd rfl (hlink target)
    | file permission content => simp [directories, hentry]
    | directory permission entries => simp [directories, hentry]
  · next e hentry => simp [hentry]

/-! ## The whole walk -/

/-- The measures of a walk stand at the directories it has to visit, each of
them once and in the order of `walkOrder`: a directory before what is in it,
all that is below it together, and entries in listing order.  The start is
one of them exactly if it is itself a directory; a file has none. -/
theorem roots_traverse (ht : t.WellFormed) {start : Path} {ms : List Measure} {sink : Sink}
    {written : Bytes} (h : (s.traverse t start).writeTo sink = (.ok ms, written)) :
    ms.map (·.root) = s.walkOrder t start ∧
      (ms.map (·.root)).Nodup ∧
      (∀ d, d ∈ ms.map (·.root) ↔ s.Reaches t start d) ∧
      (start ∈ ms.map (·.root) ↔
        ∃ permission entries, t.entry start = .ok (.directory permission entries)) ∧
      (∀ permission content, t.entry start = .ok (.file permission content) → ms = []) := by
  obtain ⟨after, hrun, _⟩ := Report.writeTo_eq_ok.mp h
  obtain ⟨hmeasured, ⟨node, hentry⟩, hstart⟩ := traverse_eq_ok hrun
  rw [hmeasured.map_root]
  refine ⟨rfl, nodup_walkOrder ht start,
    fun d => mem_walkOrder_iff ht hentry hstart hmeasured.listed, start_mem_walkOrder_iff ht,
    fun permission content hfile => ?_⟩
  rw [hmeasured.eq_map, walkOrder, hfile]
  rfl

/-- A directory `code` with a hidden directory, a link to itself and two
directories below each other, and a link `now` to it. -/
def linkedTree : FileTree where
  root := .directory .all
    [(Bytes.ofString "code", .directory .all
      [(Bytes.ofString ".git", .directory .all []),
        (Bytes.ofString "here", .link (.ofString ".")),
        (Bytes.ofString "src", .directory .all [(Bytes.ofString "a", .directory .all [])])]),
      (Bytes.ofString "now", .link (.ofString "code"))]
  workingDirectory := []

/-- A walk from `now` that passes over hidden names. -/
theorem roots_traverse_linkedTree :
    linkedTree.WellFormed ∧
      ∀ d, d ∈ [Path.ofString "now/src", Path.ofString "now/src/a"] ↔
        Reaches ⟨".cs", [], .csharp, .sum, true, false⟩ linkedTree (.ofString "now") d := by
  have hwf : linkedTree.WellFormed := by decide
  have hrun : (traverse ⟨".cs", [], .csharp, .sum, true, false⟩ linkedTree
      (.ofString "now")).writeTo .unlimited =
        (.ok [.empty (.ofString "now/src"), .empty (.ofString "now/src/a")], []) := by
    rw [traverse_eq]
    rfl
  exact ⟨hwf, (roots_traverse hwf hrun).2.2.1⟩

end CommentDensity.Survey
