import CommentDensity.FileTree.Edit
import CommentDensity.Proofs.FileTree.WellFormed

/-!
# CommentDensity.Proofs.FileTree.Edit

Edits keep a tree as file systems have them.

An edit looks a place up, puts another node there, and builds the tree again
around it (`Place.WellFormed.rebuilt`).  The directories above the place are
those that the look-up went through, so their names are names of entries; and
a new name is refused if it is none (`insertAt`).  So whatever edits are made
of a tree, and however many, its directories stay well-formed
(`Edited.wellFormed`).
-/

namespace CommentDensity

/-! ## Nodes -/

namespace Node

variable {name : Bytes} {node child : Node} {entries : List (Bytes × Node)}

/-- The names are those that were there and the new one. -/
theorem mem_fst_setEntry {n : Bytes} :
    n ∈ (setEntry name node entries).map (·.1) ↔ n = name ∨ n ∈ entries.map (·.1) := by
  induction entries with
  | nil => simp [setEntry]
  | cons e entries ih =>
    obtain ⟨m, old⟩ := e
    by_cases hm : m = name
    · subst hm
      simp [setEntry]
    · simp only [setEntry, hm, if_false, List.map_cons, List.mem_cons, ih]
      exact or_left_comm

theorem nodup_setEntry (h : (entries.map (·.1)).Nodup) :
    ((setEntry name node entries).map (·.1)).Nodup := by
  induction entries with
  | nil => simp [setEntry]
  | cons e entries ih =>
    obtain ⟨m, old⟩ := e
    obtain ⟨hnew, hrest⟩ := List.nodup_cons.mp h
    by_cases hm : m = name
    · subst hm
      simpa [setEntry] using h
    · simp only [setEntry, hm, if_false, List.map_cons]
      exact List.nodup_cons.mpr ⟨fun hmem => (mem_fst_setEntry.mp hmem).elim hm hnew, ih hrest⟩

theorem mem_setEntry {e : Bytes × Node} (h : e ∈ setEntry name node entries) :
    e = (name, node) ∨ e ∈ entries := by
  induction entries with
  | nil => exact .inl (List.mem_singleton.mp h)
  | cons first entries ih =>
    obtain ⟨m, old⟩ := first
    unfold setEntry at h
    split at h
    · next hm =>
      obtain rfl | h := List.mem_cons.mp h
      · exact .inl (by rw [hm])
      · exact .inr (List.mem_cons_of_mem _ h)
    · obtain rfl | h := List.mem_cons.mp h
      · exact .inr List.mem_cons_self
      · exact (ih h).imp_right (List.mem_cons_of_mem _)

theorem WellFormed.insert (h : node.WellFormed) (hname : name.IsEntryName)
    (hchild : child.WellFormed) : (node.insert name child).WellFormed := by
  cases node with
  | file permission content => exact h
  | link target => exact h
  | directory permission entries =>
    refine .directory permission _ (nodup_setEntry h.nodup) ?names ?nodes
    case names =>
      intro e he
      obtain rfl | he := mem_setEntry he
      · exact hname
      · exact h.isEntryName he
    case nodes =>
      intro e he
      obtain rfl | he := mem_setEntry he
      · exact hchild
      · exact h.of_mem he

theorem WellFormed.erase (h : node.WellFormed) (name : Bytes) : (node.erase name).WellFormed := by
  cases node with
  | file permission content => exact h
  | link target => exact h
  | directory permission entries =>
    have hfewer : (entries.filter (·.1 ≠ name)).Sublist entries := List.filter_sublist
    exact .directory permission _ (h.nodup.sublist (hfewer.map _))
      (fun e he => h.isEntryName (hfewer.subset he)) (fun e he => h.of_mem (hfewer.subset he))

theorem WellFormed.withPermission (h : node.WellFormed) (permission : Permission) :
    (node.withPermission permission).WellFormed := by
  cases node with
  | file old content => exact .file permission content
  | link target => exact h
  | directory old entries =>
    exact .directory permission entries h.nodup (fun _ he => h.isEntryName he)
      (fun _ he => h.of_mem he)

theorem wellFormed_emptyDirectory : emptyDirectory.WellFormed :=
  .directory .all [] List.nodup_nil (fun _ he => by cases he) (fun _ he => by cases he)

end Node

/-- The tree around a place is built again with another node there. -/
theorem Place.WellFormed.rebuilt {p : Place} (h : p.WellFormed) :
    p.rebuilt.WellFormed := by
  obtain ⟨node, above⟩ := p
  unfold Place.rebuilt
  induction above generalizing node with
  | nil => exact h.node
  | cons e above ih =>
    obtain ⟨hname, hparent⟩ := h.above e List.mem_cons_self
    exact ih (e.2.insert e.1 node)
      ⟨hparent.insert hname h.node, fun e' he' => h.above e' (List.mem_cons_of_mem e he')⟩

/-! ## Edits -/

namespace FileTree

variable {t t' : FileTree} {path : Path}

namespace WellFormed

theorem reach (ht : t.WellFormed) {followLast : Bool} {place : Place}
    (h : t.reach followLast path = .ok place) : place.WellFormed := ht.locate h

theorem insertAt (ht : t.WellFormed) {parent : Path} {name : Bytes} {node : Node}
    (hnode : node.WellFormed) (h : t.insertAt parent name node = .ok t') : t'.WellFormed := by
  obtain ⟨place, hplace, h⟩ := exists_of_bind_eq_ok h
  split at h
  · cases h
  · split at h
    · next hname =>
      cases h
      have hp := ht.reach hplace
      exact Place.WellFormed.rebuilt ⟨hp.node.insert hname hnode, hp.above⟩
    · cases h

theorem makeDirectory (ht : t.WellFormed) (h : t.makeDirectory path = .ok t') :
    t'.WellFormed := by
  unfold FileTree.makeDirectory at h
  generalize fronts path = fronts at h
  -- one directory after the other, from the front of the path
  induction fronts generalizing t with
  | nil => cases h; exact ht
  | cons front fronts ih =>
    rw [List.foldlM_cons] at h
    obtain ⟨u, hu, h⟩ := exists_of_bind_eq_ok h
    refine ih ?_ h
    split at hu
    · split at hu
      · cases hu; exact ht
      · cases hu
    · exact ht.insertAt Node.wellFormed_emptyDirectory hu
    · cases hu

theorem makeLink (ht : t.WellFormed) {target : Path} (h : t.makeLink path target = .ok t') :
    t'.WellFormed := by
  obtain ⟨u, hu, h⟩ := exists_of_bind_eq_ok h
  exact (ht.makeDirectory hu).insertAt (.link target) h

theorem writeThrough (ht : t.WellFormed) {content : ByteArray} {links : Nat}
    (h : t.writeThrough content links path = .ok t') : t'.WellFormed := by
  induction links generalizing path with
  | zero => cases h
  | succ links ih =>
    simp only [FileTree.writeThrough] at h
    split at h
    · exact ht.insertAt (.file .all content) h
    · split at h
      · exact ih h
      · next permission _ _ => exact ht.insertAt (.file permission content) h
      · cases h

theorem writeFile (ht : t.WellFormed) {content : ByteArray}
    (h : t.writeFile path content = .ok t') : t'.WellFormed := by
  obtain ⟨u, hu, h⟩ := exists_of_bind_eq_ok h
  exact (ht.makeDirectory hu).writeThrough h

theorem setPermission (ht : t.WellFormed) {permission : Permission}
    (h : t.setPermission path permission = .ok t') : t'.WellFormed := by
  obtain ⟨place, hplace, h⟩ := exists_of_bind_eq_ok h
  cases h
  have hp := ht.reach hplace
  exact Place.WellFormed.rebuilt ⟨hp.node.withPermission permission, hp.above⟩

theorem remove (ht : t.WellFormed) (h : t.remove path = .ok t') : t'.WellFormed := by
  obtain ⟨place, hplace, h⟩ := exists_of_bind_eq_ok h
  have hp := ht.reach hplace
  split at h
  · cases h
  · next name parent above habove =>
    cases h
    have hup : Place.WellFormed ⟨parent, above⟩ := by
      have hplaceUp := hp.up
      rwa [Place.up, habove] at hplaceUp
    exact Place.WellFormed.rebuilt ⟨hup.node.erase name, hup.above⟩

theorem rename (ht : t.WellFormed) {source destination : Path}
    (h : t.rename source destination = .ok t') : t'.WellFormed := by
  obtain ⟨place, hplace, h⟩ := exists_of_bind_eq_ok h
  obtain ⟨u, hu, h⟩ := exists_of_bind_eq_ok h
  exact (ht.remove hu).insertAt (ht.reach hplace).node h

end WellFormed

/-- A tree of one empty directory is well-formed, if an entry can be called
as that is. -/
theorem wellFormed_onlyDirectory {name : Bytes} (hname : name.IsEntryName) :
    (onlyDirectory name).WellFormed :=
  Node.WellFormed.insert Node.wellFormed_emptyDirectory hname Node.wellFormed_emptyDirectory

end FileTree

end CommentDensity
