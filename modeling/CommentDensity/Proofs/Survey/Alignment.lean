import CommentDensity.Proofs.FileTree.Descent
import CommentDensity.Proofs.Survey.Itinerary

/-!
# CommentDensity.Proofs.Survey.Alignment

The directories of a walk in two trees.

What a directory passes on to the directories in it holds of all that a walk
visits (`forall_directories`).  So, if a relation between the nodes of two
trees leaves to every directory its permission and the directories in it,
the two trees agree on every directory of the walk, on those that cannot be
looked up too (`alike_directories`).
-/

namespace CommentDensity.Survey

variable {s : Survey} {t t' : FileTree}

mutual

/-- What is passed on from directories to the directories in them holds of
all that are visited. -/
theorem forall_directories {P : Path → Node → Prop}
    (hdown : ∀ path permission entries, P path (.directory permission entries) →
      ∀ e ∈ entries, s.hides e.1 = false → e.2.isDirectory = true → P (path.join e.1) e.2) :
    (node : Node) → {path : Path} → P path node → ∀ d ∈ s.directories path node,
      ∃ permission entries, P d (.directory permission entries)
  | .file .., _, _, _, hd => by simp [directories] at hd
  | .link _, _, _, _, hd => by simp [directories] at hd
  | .directory permission entries, _, h, d, hd => by
    obtain rfl | hd := List.mem_cons.mp hd
    · exact ⟨permission, entries, h⟩
    · exact forall_directoriesIn hdown entries (hdown _ permission entries h) d hd

theorem forall_directoriesIn {P : Path → Node → Prop}
    (hdown : ∀ path permission entries, P path (.directory permission entries) →
      ∀ e ∈ entries, s.hides e.1 = false → e.2.isDirectory = true → P (path.join e.1) e.2) :
    (entries : List (Bytes × Node)) → {path : Path} →
    (∀ e ∈ entries, s.hides e.1 = false → e.2.isDirectory = true → P (path.join e.1) e.2) →
    ∀ d ∈ s.directoriesIn path entries, ∃ permission entries, P d (.directory permission entries)
  | [], _, _, _, hd => by simp [directoriesIn] at hd
  | (name, node) :: rest, path, h, d, hd => by
    rw [directoriesIn, List.mem_append] at hd
    obtain hd | hd := hd
    · cases hh : s.hides name with
      | true => simp [hh] at hd
      | false =>
        cases node with
        | file permission content => simp [hh, directories] at hd
        | link target => simp [hh, directories] at hd
        | directory permission inside =>
          rw [hh, if_neg Bool.false_ne_true] at hd
          exact forall_directories hdown (.directory permission inside)
            (h _ List.mem_cons_self hh rfl) d hd
    · exact forall_directoriesIn hdown rest (fun e he => h e (List.mem_cons_of_mem _ he)) d hd

end

/-- The directories of a walk are led to alike in two trees, if the nodes at
its start are and each directory has its own again in the other tree. -/
theorem alike_directories {R : Path → Node → Node → Prop}
    (hrel : ∀ path permission entries other, R path (.directory permission entries) other →
      ∃ entries', other = .directory permission entries' ∧
        ∀ e ∈ entries, s.hides e.1 = false → e.2.isDirectory = true →
          ∃ child, (e.1, child) ∈ entries' ∧ R (path.join e.1) e.2 child)
    {path : Path} {node other : Node} (hwf : node.WellFormed) (hwf' : other.WellFormed)
    (hstart : R path node other) (halike : t.Alike t' path node other) :
    ∀ d ∈ s.directories path node, ∃ permission entries entries',
      R d (.directory permission entries) (.directory permission entries') ∧
        t.Alike t' d (.directory permission entries) (.directory permission entries') := by
  intro d hd
  have hdown : ∀ path permission entries,
      (∃ other, (Node.directory permission entries).WellFormed ∧ other.WellFormed ∧
        R path (.directory permission entries) other ∧
        t.Alike t' path (.directory permission entries) other) →
      ∀ e ∈ entries, s.hides e.1 = false → e.2.isDirectory = true →
        ∃ other, e.2.WellFormed ∧ other.WellFormed ∧ R (path.join e.1) e.2 other ∧
          t.Alike t' (path.join e.1) e.2 other := by
    rintro path permission entries ⟨other, hwf, hwf', hrelated, halike⟩ ⟨name, child⟩ he hshown hdir
    obtain ⟨entries', rfl, hdown⟩ := hrel path permission entries other hrelated
    obtain ⟨child', hmem, hchild⟩ := hdown _ he hshown hdir
    cases child with
    | file filePermission content => simp [Node.isDirectory] at hdir
    | link target => simp [Node.isDirectory] at hdir
    | directory childPermission inside =>
      obtain ⟨inside', rfl, _⟩ := hrel _ _ _ _ hchild
      exact ⟨_, hwf.of_mem he, hwf'.of_mem hmem, hchild,
        halike.join (hwf.isEntryName he) (lookup_of_mem hwf.nodup he)
          (lookup_of_mem hwf'.nodup hmem) rfl rfl⟩
  obtain ⟨permission, entries, other, _, _, hrelated, halike⟩ :=
    forall_directories (P := fun path node => ∃ other, node.WellFormed ∧ other.WellFormed ∧
      R path node other ∧ t.Alike t' path node other) hdown node
      ⟨other, hwf, hwf', hstart, halike⟩ d hd
  obtain ⟨entries', rfl, _⟩ := hrel d permission entries other hrelated
  exact ⟨permission, entries, entries', hrelated, halike⟩

end CommentDensity.Survey
