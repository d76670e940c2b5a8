import CommentDensity.Proofs.Survey.Coverage

/-!
# CommentDensity.Proofs.Survey.Kinds

Files that are counted and directories that are walked.

A listing is asked what its entries *lead to* when files are counted, and
what they *are* when the walk goes on.  The two differ at a link, and in a
directory that may be listed but not searched: there nothing can be found out
about the entries, so that one which is a directory passes as a file.

No walk that succeeds takes an entry for both (`counted_or_walked`): what it
visits it could list, and what can be listed leads to a directory.
-/

namespace CommentDensity.Survey

variable {s : Survey} {t : FileTree} {start d : Path} {name : Bytes}
  {entries : List (Bytes × Node)}

/-! ## Counted files -/

/-- What leads to a directory is not counted. -/
theorem notMem_selected_of_isDirectory (h : t.isDirectory (d.join name) = true) :
    name ∉ s.selected t d entries := by
  intro hmem
  have hselects := (List.mem_filter.mp hmem).2
  simp [selects, h] at hselects

/-- What is left out for its name is not counted. -/
theorem notMem_selected_of_hides (h : s.hides name = true) : name ∉ s.selected t d entries := by
  intro hmem
  have hselects := (List.mem_filter.mp hmem).2
  simp [selects, h] at hselects

theorem isDirectory_of_target {node : Node} (h : t.target d = .ok node)
    (hnode : node.isDirectory = true) : t.isDirectory d = true := by
  rw [FileTree.isDirectory, h]
  exact hnode

theorem isDirectory_of_list (h : t.list d = .ok entries) : t.isDirectory d = true := by
  obtain ⟨permission, htarget, -⟩ := FileTree.list_eq_ok.mp h
  exact isDirectory_of_target htarget rfl

/-! ## Walked directories -/

/-- The path of a directory that is reached, and can be listed, names a
directory itself. -/
theorem entry_of_reaches (ht : t.WellFormed) (h : s.Reaches t start d)
    (hlist : ∃ entries, t.list d = .ok entries) :
    ∃ permission entries, t.entry d = .ok (.directory permission entries) := by
  obtain ⟨rfl, hentry⟩ | hreach := h
  · exact hentry
  · obtain ⟨parent, -, entries, name, node, hparent, hmem, hnode, -, rfl⟩ :=
      Relation.TransGen.tail'_iff.mp hreach
    cases node with
    | file permission content => cases hnode
    | link target => cases hnode
    | directory permission inside =>
      obtain ⟨listed, hlisted⟩ := hlist
      obtain ⟨_, hdir, -⟩ := FileTree.list_eq_ok.mp hparent
      have hwf := ht.target hdir
      have htarget := FileTree.target_of_list_join ht hparent hmem hlisted
      have hentry := FileTree.entry_join hdir (hwf.isEntryName hmem) (lookup_of_mem hwf.nodup hmem)
        rfl
      exact ⟨permission, inside, hentry.trans htarget⟩

/-- From a directory that the walk is in, its steps are taken. -/
theorem Reaches.enters {child : Path} (h : d = start ∨ s.Reaches t start d)
    (hstep : s.Enters t d child) : s.Reaches t start child := by
  obtain rfl | ⟨rfl, -⟩ | hreach := h
  · exact .inr (.single hstep)
  · exact .inr (.single hstep)
  · exact .inr (hreach.tail hstep)

/-! ## The two kinds -/

/-- When a walk has succeeded, an entry of a directory that it was in and that
is itself a directory is not counted there; it has been visited, unless it is
left out for its name.  Nothing that is counted anywhere has been visited.
And a link that leads to a directory is neither counted nor visited. -/
theorem counted_or_walked (ht : t.WellFormed) {ms : List Measure} {sink : Sink} {written : Bytes}
    (h : (s.traverse t start).writeTo sink = (.ok ms, written)) :
    (∀ d entries name node, (d = start ∨ d ∈ ms.map (·.root)) → t.list d = .ok entries →
      (name, node) ∈ entries → node.isDirectory = true →
        name ∉ s.selected t d entries ∧ (s.hides name = false → d.join name ∈ ms.map (·.root))) ∧
    (∀ d entries, ∀ name ∈ s.selected t d entries, d.join name ∉ ms.map (·.root)) ∧
    (∀ d permission entries name link node, t.target d = .ok (.directory permission entries) →
      (name, .link link) ∈ entries → t.target (d.join name) = .ok node → node.isDirectory = true →
        name ∉ s.selected t d entries ∧ d.join name ∉ ms.map (·.root)) := by
  obtain ⟨after, hrun, -⟩ := Report.writeTo_eq_ok.mp h
  obtain ⟨hmeasured, ⟨_, hstart⟩, hopen⟩ := traverse_eq_ok hrun
  rw [hmeasured.map_root]
  have hlisted := hmeasured.listed
  have hreaches : ∀ d, d ∈ s.walkOrder t start ↔ s.Reaches t start d :=
    fun d => mem_walkOrder_iff ht hstart hopen hlisted
  refine ⟨fun d entries name node hd hlist hmem hnode => ?_,
    fun d entries name hname hvisited => ?_,
    fun d permission entries name link node htarget hmem hjoined hnode => ?_⟩
  · have hvisited : s.hides name = false → d.join name ∈ s.walkOrder t start := fun hshown =>
      (hreaches _).mpr (Reaches.enters (hd.imp_right (hreaches d).mp)
        ⟨entries, name, node, hlist, hmem, hnode, hshown, rfl⟩)
    refine ⟨?_, hvisited⟩
    cases hhides : s.hides name with
    | true => exact notMem_selected_of_hides hhides
    | false =>
      obtain ⟨inside, hinside⟩ := hlisted _ (hvisited hhides)
      exact notMem_selected_of_isDirectory (isDirectory_of_list hinside)
  · obtain ⟨inside, hinside⟩ := hlisted _ hvisited
    exact notMem_selected_of_isDirectory (isDirectory_of_list hinside) hname
  · refine ⟨notMem_selected_of_isDirectory (isDirectory_of_target hjoined hnode),
      fun hvisited => ?_⟩
    obtain ⟨_, _, hentry⟩ := entry_of_reaches ht ((hreaches _).mp hvisited) (hlisted _ hvisited)
    have hwf := ht.target htarget
    cases FileTree.entry_join_of_link htarget (hwf.isEntryName hmem) (lookup_of_mem hwf.nodup hmem)
      hentry

/-- A directory `code` with a link `up.cs` to itself and a directory `lib.cs`
that may be listed but not searched; the directory in that one is hidden. -/
def shutTree : FileTree where
  root := .directory .all
    [(Bytes.ofString "code", .directory .all
      [(Bytes.ofString "up.cs", .link (.ofString ".")),
        (Bytes.ofString "lib.cs", .directory ⟨true, false⟩
          [(Bytes.ofString ".old.cs", .directory .all [])])])]
  workingDirectory := []

/-- All three names end in `.cs`, and none is counted: not those in `code`,
and not that in `lib.cs`. -/
theorem counted_or_walked_shutTree :
    shutTree.WellFormed ∧
      (∀ entries, shutTree.list (.ofString "code") = .ok entries →
        Bytes.ofString "lib.cs" ∉ selected ⟨".cs", [], .csharp, .sum, true, false⟩ shutTree
          (.ofString "code") entries ∧
        Bytes.ofString "up.cs" ∉ selected ⟨".cs", [], .csharp, .sum, true, false⟩ shutTree
          (.ofString "code") entries) ∧
      ∀ entries, shutTree.list (.ofString "code/lib.cs") = .ok entries →
        Bytes.ofString ".old.cs" ∉ selected ⟨".cs", [], .csharp, .sum, true, false⟩ shutTree
          (.ofString "code/lib.cs") entries := by
  have hwf : shutTree.WellFormed := by decide
  have hrun : (traverse ⟨".cs", [], .csharp, .sum, true, false⟩ shutTree
      (.ofString "code")).writeTo .unlimited =
        (.ok [.empty (.ofString "code"), .empty (.ofString "code/lib.cs")], []) := by
    rw [traverse_eq]
    rfl
  obtain ⟨hkinds, -, hlinks⟩ := counted_or_walked hwf hrun
  refine ⟨hwf, fun entries hlist => ?_, fun entries hlist => ?_⟩
  · obtain rfl := Except.ok.inj hlist
    exact ⟨(hkinds _ _ _ _ (.inl rfl) rfl (.tail _ (.head _)) rfl).1,
      (hlinks _ _ _ _ _ _ rfl (.head _) rfl rfl).1⟩
  · obtain rfl := Except.ok.inj hlist
    exact (hkinds _ _ _ _ (.inr (.tail _ (.head _))) rfl (.head _) rfl).1

end CommentDensity.Survey
