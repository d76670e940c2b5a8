import CommentDensity.FileTree.Resolve
import CommentDensity.Proofs.Entries

/-!
# CommentDensity.Proofs.FileTree.WellFormed

Trees as file systems have them.

`FileTree.WellFormed` says that the entries of every directory have names
that a path can hold, and no two of them the same.  A look-up never leaves
the tree, so all that a path leads to is well-formed (`WellFormed.locate`).
-/

namespace CommentDensity

/-- The names of every directory are names of entries, and no two entries of
a directory share one. -/
inductive Node.WellFormed : Node → Prop where
  | file (permission : Permission) (content : ByteArray) : WellFormed (.file permission content)
  | link (target : Path) : WellFormed (.link target)
  | directory (permission : Permission) (entries : List (Bytes × Node)) :
      (entries.map (·.1)).Nodup → (∀ e ∈ entries, e.1.IsEntryName) →
      (∀ e ∈ entries, e.2.WellFormed) → WellFormed (.directory permission entries)

theorem Node.isLink_eq_false {node : Node} (h : ∀ target, node = .link target → False) :
    node.isLink = false := by
  cases node with
  | file permission content => rfl
  | link target => exact (h target rfl).elim
  | directory permission entries => rfl

/-- A tree whose directories have names as file systems have them. -/
def FileTree.WellFormed (t : FileTree) : Prop := t.root.WellFormed

theorem Node.WellFormed.nodup {permission : Permission} {entries : List (Bytes × Node)}
    (h : (Node.directory permission entries).WellFormed) : (entries.map (·.1)).Nodup := by
  cases h with
  | directory _ _ hnodup => exact hnodup

theorem Node.WellFormed.isEntryName {permission : Permission} {entries : List (Bytes × Node)}
    (h : (Node.directory permission entries).WellFormed) {e : Bytes × Node} (he : e ∈ entries) :
    e.1.IsEntryName := by
  cases h with
  | directory _ _ _ hnames => exact hnames e he

theorem Node.WellFormed.of_mem {permission : Permission} {entries : List (Bytes × Node)}
    (h : (Node.directory permission entries).WellFormed) {e : Bytes × Node} (he : e ∈ entries) :
    e.2.WellFormed := by
  cases h with
  | directory _ _ _ _ hnodes => exact hnodes e he

theorem Node.WellFormed.forall_mem {permission : Permission} {entries : List (Bytes × Node)}
    (h : (Node.directory permission entries).WellFormed) :
    ∀ e ∈ entries, e.1.IsEntryName ∧ e.2.WellFormed :=
  fun _ he => ⟨h.isEntryName he, h.of_mem he⟩

/-! ## Deciding it -/

mutual

/-- Looks at every directory of a tree whether its names are well-formed. -/
def Node.isWellFormed : Node → Bool
  | .file .. => true
  | .link _ => true
  | .directory _ entries =>
    decide (entries.map (·.1)).Nodup && decide (∀ e ∈ entries, e.1.IsEntryName) &&
      Node.allWellFormed entries

/-- Whether all entries are well-formed below their names. -/
def Node.allWellFormed : List (Bytes × Node) → Bool
  | [] => true
  | (_, node) :: rest => node.isWellFormed && Node.allWellFormed rest

end

mutual

theorem Node.isWellFormed_iff : (node : Node) → (node.isWellFormed = true ↔ node.WellFormed)
  | .file permission content => ⟨fun _ => .file permission content, fun _ => rfl⟩
  | .link target => ⟨fun _ => .link target, fun _ => rfl⟩
  | .directory permission entries => by
    rw [Node.isWellFormed, Bool.and_eq_true, Bool.and_eq_true, decide_eq_true_eq,
      decide_eq_true_eq, Node.allWellFormed_iff entries]
    constructor
    · rintro ⟨⟨hnodup, hnames⟩, hnodes⟩
      exact .directory permission entries hnodup hnames hnodes
    · exact fun h => ⟨⟨h.nodup, fun e he => h.isEntryName he⟩, fun e he => h.of_mem he⟩

theorem Node.allWellFormed_iff : (entries : List (Bytes × Node)) →
    (Node.allWellFormed entries = true ↔ ∀ e ∈ entries, e.2.WellFormed)
  | [] => by simp [Node.allWellFormed]
  | (name, node) :: rest => by
    rw [Node.allWellFormed, Bool.and_eq_true, Node.isWellFormed_iff node,
      Node.allWellFormed_iff rest, List.forall_mem_cons]

end

instance (node : Node) : Decidable node.WellFormed :=
  decidable_of_iff _ node.isWellFormed_iff

instance (t : FileTree) : Decidable t.WellFormed :=
  inferInstanceAs (Decidable t.root.WellFormed)

/-! ## Places -/

/-- A place in a well-formed tree. -/
structure Place.WellFormed (p : Place) : Prop where
  node : p.node.WellFormed
  above : ∀ e ∈ p.above, e.1.IsEntryName ∧ e.2.WellFormed

namespace Place.WellFormed

variable {p : Place}

theorem up (h : p.WellFormed) : p.up.WellFormed := by
  unfold Place.up
  split
  · exact h
  · next habove =>
    refine ⟨(h.above _ (by rw [habove]; exact List.mem_cons_self)).2, fun e he => h.above e ?_⟩
    rw [habove]
    exact List.mem_cons_of_mem _ he

theorem enter (h : p.WellFormed) {permission : Permission} {entries : List (Bytes × Node)}
    {name : Bytes} {child : Node} (hnode : p.node = .directory permission entries)
    (hmem : (name, child) ∈ entries) : (p.enter name child).WellFormed := by
  refine ⟨(hnode ▸ h.node).of_mem hmem, fun e he => ?_⟩
  obtain rfl | he := List.mem_cons.mp he
  · exact ⟨(hnode ▸ h.node).isEntryName (e := (name, child)) hmem, h.node⟩
  · exact h.above e he

theorem root (h : p.WellFormed) : p.root.WellFormed := by
  unfold Place.root
  split
  · next hlast => exact ⟨(h.above _ (List.mem_of_getLast? hlast)).2, fun e he => by cases he⟩
  · exact h

end Place.WellFormed

/-! ## Look-ups stay in the tree -/

/-- What succeeds step by step succeeds in its first step. -/
theorem exists_of_bind_eq_ok {ε α β : Type} {x : Except ε α} {f : α → Except ε β} {b : β}
    (h : x >>= f = .ok b) : ∃ a, x = .ok a ∧ f a = .ok b := by
  cases x with
  | error e => cases h
  | ok a => exact ⟨a, rfl, h⟩

namespace FileTree

variable {how : Lookup} {p q : Place} {t : FileTree}

/-- A step leads nowhere, up, or to an entry; of a link it says where that
leads. -/
theorem meet_eq_ok {step : Path.Step} {m : Met} (h : meet how p step = .ok m) :
    m = .place p ∨ m = .place p.up ∨ ∃ permission entries name child,
      p.node = .directory permission entries ∧ (name, child) ∈ entries ∧
        (m = .place (p.enter name child) ∨
          ∃ target, child = .link target ∧ m = .link name target) := by
  unfold meet at h
  split at h
  · next permission entries hnode =>
    split at h
    · cases h; exact .inl rfl
    · split at h
      · cases h
      · split at h
        · split at h
          · cases h
          · split at h
            · cases h
            · next target hfound =>
              cases h
              exact .inr (.inr ⟨permission, entries, _, _, hnode, mem_of_lookup hfound,
                .inr ⟨target, rfl, rfl⟩⟩)
            · next child _ hfound =>
              cases h
              exact .inr (.inr ⟨permission, entries, _, _, hnode, mem_of_lookup hfound, .inl rfl⟩)
        · cases h; exact .inr (.inl rfl)
        · cases h; exact .inl rfl
  · cases h

theorem walkSteps_wellFormed
    {onLink : Place → Path → List Path.Step → Except IoError Place}
    (hon : ∀ p target rest q, p.WellFormed → onLink p target rest = .ok q → q.WellFormed)
    (steps : List Path.Step) (hp : p.WellFormed) (h : walkSteps how onLink p steps = .ok q) :
    q.WellFormed := by
  induction steps generalizing p with
  | nil => cases h; exact hp
  | cons step steps ih =>
    simp only [walkSteps] at h
    cases hmet : meet how p step with
    | error e => rw [hmet] at h; cases h
    | ok m =>
      rw [hmet] at h
      obtain rfl | rfl | ⟨_, _, name, child, hnode, hmem, rfl | ⟨target, rfl, rfl⟩⟩ :=
        meet_eq_ok hmet
      · exact ih hp h
      · exact ih hp.up h
      · exact ih (hp.enter hnode hmem) h
      · dsimp only at h
        split at h
        · cases h
          exact hp.enter hnode hmem
        · exact hon _ _ _ _ hp h

theorem walk_wellFormed (links : Nat) (steps : List Path.Step) (hp : p.WellFormed)
    (h : walk how links p steps = .ok q) : q.WellFormed := by
  induction links generalizing p steps q with
  | zero => exact walkSteps_wellFormed (fun _ _ _ _ _ h => by cases h) steps hp h
  | succ links ih =>
    refine walkSteps_wellFormed (fun p target rest q hp h => ih _ ?_ h) steps hp h
    split
    · exact hp.root
    · exact hp

theorem WellFormed.here (ht : t.WellFormed) : t.here.WellFormed := by
  refine List.foldlRecOn _ _ ⟨ht, fun e he => by cases he⟩ fun p hp name _ => ?_
  split
  · next child hfound =>
    cases hnode : p.node with
    | directory permission entries =>
      rw [hnode] at hfound
      exact hp.enter hnode (mem_of_lookup hfound)
    | file permission content => rw [hnode] at hfound; cases hfound
    | link target => rw [hnode] at hfound; cases hfound
  · exact hp

theorem WellFormed.locate (ht : t.WellFormed) {path : Path} (h : t.locate how path = .ok q) :
    q.WellFormed := by
  rw [FileTree.locate] at h
  split at h
  · cases h
  · split at h
    · cases h
    · split at h
      · cases h
      · refine walk_wellFormed maxLinks path.steps ?_ h
        split
        · exact ⟨ht, fun e he => by cases he⟩
        · exact ht.here

/-- What a path leads to is well-formed. -/
theorem WellFormed.target (ht : t.WellFormed) {path : Path} {node : Node}
    (h : t.target path = .ok node) : node.WellFormed := by
  obtain ⟨q, hq, h⟩ := exists_of_bind_eq_ok h
  cases h
  exact (ht.locate hq).node

end FileTree

end CommentDensity
