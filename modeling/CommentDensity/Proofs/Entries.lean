/-!
# CommentDensity.Proofs.Entries

Looking up in a list of entries by their keys.

A directory is such a list, and so is a table of a job file.  What is found
under a key is an entry (`mem_of_lookup`), and where no two entries share a
key, each of them is found (`lookup_of_mem`), whatever their order
(`lookup_perm`).
-/

namespace CommentDensity

variable {α β : Type} [BEq α] [LawfulBEq α] {entries entries' : List (α × β)} {key : α} {value : β}

/-- What is found is an entry. -/
theorem mem_of_lookup (h : entries.lookup key = some value) : (key, value) ∈ entries := by
  induction entries with
  | nil => simp at h
  | cons e entries ih =>
    obtain ⟨name, other⟩ := e
    rw [List.lookup_cons] at h
    cases hname : key == name with
    | true =>
      rw [hname] at h
      obtain rfl := eq_of_beq hname
      cases h
      exact List.mem_cons_self
    | false =>
      rw [hname] at h
      exact List.mem_cons_of_mem _ (ih h)

theorem lookup_of_mem (hnodup : (entries.map (·.1)).Nodup) (h : (key, value) ∈ entries) :
    entries.lookup key = some value := by
  induction entries with
  | nil => simp at h
  | cons e entries ih =>
    obtain ⟨name, other⟩ := e
    rw [List.map_cons, List.nodup_cons] at hnodup
    rw [List.lookup_cons]
    obtain heq | hmem := List.mem_cons.mp h
    · obtain ⟨rfl, rfl⟩ := Prod.mk.inj heq
      simp
    · have hne : key ≠ name := by
        rintro rfl
        exact hnodup.1 (List.mem_map.mpr ⟨(key, value), hmem, rfl⟩)
      have hne : (key == name) = false := by simpa using hne
      rw [hne]
      exact ih hnodup.2 hmem

theorem lookup_eq_some_iff (hnodup : (entries.map (·.1)).Nodup) :
    entries.lookup key = some value ↔ (key, value) ∈ entries :=
  ⟨mem_of_lookup, lookup_of_mem hnodup⟩

theorem lookup_eq_none_iff : entries.lookup key = none ↔ key ∉ entries.map (·.1) := by
  rw [List.lookup_eq_none_iff]
  simp only [bne_iff_ne, ne_eq, List.mem_map, not_exists, not_and]
  exact ⟨fun h e he heq => h e he heq.symm, fun h e he heq => h e he heq.symm⟩

/-- Where no two entries share a key, their order does not matter. -/
theorem lookup_perm (h : entries.Perm entries') (hnodup : (entries.map (·.1)).Nodup) (key : α) :
    entries.lookup key = entries'.lookup key := by
  refine Option.ext fun value => ?_
  rw [lookup_eq_some_iff hnodup, lookup_eq_some_iff ((h.map _).nodup_iff.mp hnodup), h.mem_iff]

end CommentDensity
