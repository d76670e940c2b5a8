import CommentDensity.Proofs.FileTree.Descent
import CommentDensity.Proofs.FileTree.Location

/-!
# CommentDensity.Proofs.FileTree.Reordering

Trees that list the same entries in another order.

The order is that of each directory for itself (`Node.Reordered`).  A look-up
asks for entries by name, so it goes the same way in both trees: it comes to
places that differ in the order of listings alone, or fails with the same
error (`FileTree.Reordered.locate`).  What can be asked of a path is answered
alike then: a listing has the same names in some order, and everything else
is the same.
-/

namespace CommentDensity

/-- The same node, but for the order in which the directories in it, and it
itself, list their entries. -/
inductive Node.Reordered : Node → Node → Prop where
  | file (permission : Permission) (content : ByteArray) :
      Reordered (.file permission content) (.file permission content)
  | link (target : Path) : Reordered (.link target) (.link target)
  | directory (permission : Permission) (entries entries' : List (Bytes × Node)) :
      (entries.map (·.1)).Perm (entries'.map (·.1)) →
      (∀ name child child', (name, child) ∈ entries → (name, child') ∈ entries' →
        Reordered child child') →
      Reordered (.directory permission entries) (.directory permission entries')

/-- The same tree, but for the order of its listings. -/
structure FileTree.Reordered (t t' : FileTree) : Prop where
  root : t.root.Reordered t'.root
  workingDirectory : t.workingDirectory = t'.workingDirectory

/-- Two questions fail with the same error or have related answers. -/
inductive SameAnswer {α β : Type} (R : α → β → Prop) :
    Except IoError α → Except IoError β → Prop where
  | error (e : IoError) : SameAnswer R (.error e) (.error e)
  | ok {a : α} {b : β} : R a b → SameAnswer R (.ok a) (.ok b)

theorem SameAnswer.bind {α β γ δ : Type} {R : α → β → Prop} {S : γ → δ → Prop}
    {r : Except IoError α} {r' : Except IoError β} {f : α → Except IoError γ}
    {f' : β → Except IoError δ} (h : SameAnswer R r r')
    (hf : ∀ a b, R a b → SameAnswer S (f a) (f' b)) : SameAnswer S (r >>= f) (r' >>= f') := by
  cases h with
  | error e => exact .error e
  | ok hab => exact hf _ _ hab

theorem SameAnswer.outcomes {α β : Type} {R : α → β → Prop} {r : Except IoError α}
    {r' : Except IoError β} (h : SameAnswer R r r') :
    (∃ e, r = .error e ∧ r' = .error e) ∨ ∃ a b, r = .ok a ∧ r' = .ok b ∧ R a b := by
  cases h with
  | error e => exact .inl ⟨e, rfl, rfl⟩
  | ok hab => exact .inr ⟨_, _, rfl, rfl, hab⟩

section Entries

variable {node node' : Node}

/-- An entry is in both directories or in neither. -/
theorem Node.Reordered.lookup (h : node.Reordered node') (name : Bytes) :
    (node.entries.lookup name = none ∧ node'.entries.lookup name = none) ∨
      ∃ child child', node.entries.lookup name = some child ∧
        node'.entries.lookup name = some child' ∧ child.Reordered child' := by
  cases h with
  | file permission content => exact .inl ⟨rfl, rfl⟩
  | link target => exact .inl ⟨rfl, rfl⟩
  | directory permission entries entries' hnames hchildren =>
    cases hfound : entries.lookup name with
    | none =>
      have hname := lookup_eq_none_iff.mp hfound
      exact .inl ⟨hfound, lookup_eq_none_iff.mpr fun hmem => hname (hnames.mem_iff.mpr hmem)⟩
    | some child =>
      cases hfound' : entries'.lookup name with
      | none =>
        have hname : name ∈ entries.map (·.1) := List.mem_map_of_mem (mem_of_lookup hfound)
        exact absurd (hnames.mem_iff.mp hname) (lookup_eq_none_iff.mp hfound')
      | some child' =>
        exact .inr ⟨child, child', hfound, hfound',
          hchildren name child child' (mem_of_lookup hfound) (mem_of_lookup hfound')⟩

/-- Two entries of one name in a well-formed directory are the same. -/
theorem eq_of_mem {permission : Permission} {entries : List (Bytes × Node)} {name : Bytes}
    {child child' : Node} (hwf : (Node.directory permission entries).WellFormed)
    (h : (name, child) ∈ entries) (h' : (name, child') ∈ entries) : child = child' :=
  Option.some.inj ((lookup_of_mem hwf.nodup h).symm.trans (lookup_of_mem hwf.nodup h'))

theorem Node.Reordered.refl (h : node.WellFormed) : node.Reordered node := by
  induction h with
  | file permission content => exact .file permission content
  | link target => exact .link target
  | directory permission entries hnodup hnames hnodes ih =>
    refine .directory permission entries entries (.refl _) fun name child child' hchild hchild' => ?_
    obtain rfl := eq_of_mem (.directory permission entries hnodup hnames hnodes) hchild hchild'
    exact ih _ hchild

end Entries

/-! ## Places -/

/-- Places that were reached by the same names. -/
inductive Place.Reordered : Place → Place → Prop where
  | root {node node' : Node} : node.Reordered node' → Reordered ⟨node, []⟩ ⟨node', []⟩
  | enter {p p' : Place} {child child' : Node} (name : Bytes) : Reordered p p' →
      child.Reordered child' → Reordered (p.enter name child) (p'.enter name child')

namespace Place.Reordered

variable {p p' : Place}

theorem node (h : p.Reordered p') : p.node.Reordered p'.node := by
  cases h with
  | root hnode => exact hnode
  | enter name h hchild => exact hchild

theorem up (h : p.Reordered p') : p.up.Reordered p'.up := by
  cases h with
  | root hnode => exact .root hnode
  | enter name h hchild => exact h

theorem top (h : p.Reordered p') : p.root.Reordered p'.root := by
  induction h with
  | root hnode => exact .root hnode
  | enter name h hchild ih => rwa [Place.root_enter, Place.root_enter]

end Place.Reordered

namespace FileTree

variable {t t' : FileTree} {p p' : Place}

/-! ## Look-ups -/

/-- Steps to places that were reached by the same names, or to the same link. -/
inductive Met.Reordered : Met → Met → Prop where
  | place {q q' : Place} : q.Reordered q' → Reordered (.place q) (.place q')
  | link (name : Bytes) (target : Path) : Reordered (.link name target) (.link name target)

theorem meet_reordered (how : Lookup) (h : p.Reordered p') (step : Path.Step) :
    SameAnswer Met.Reordered (meet how p step) (meet how p' step) := by
  have hnode := h.node
  unfold meet
  generalize hn : p.node = node at hnode
  generalize hn' : p'.node = node' at hnode
  cases hnode with
  | file permission content => exact .error .notADirectory
  | link target => exact .error .notADirectory
  | directory permission entries entries' hnames hchildren =>
    have hlookup := Node.Reordered.lookup (.directory permission entries entries' hnames hchildren)
    dsimp only [Node.entries] at hlookup
    cases step with
    | directory => exact .ok (.place h)
    | here =>
      dsimp only
      split
      · exact .error .permissionDenied
      · exact .ok (.place h)
    | up =>
      dsimp only
      split
      · exact .error .permissionDenied
      · exact .ok (.place h.up)
    | name name =>
      dsimp only
      split
      · exact .error .permissionDenied
      · split
        · exact .error .nameTooLong
        · obtain ⟨hnone, hnone'⟩ | ⟨child, child', hfound, hfound', hchild⟩ := hlookup name
          · rw [hnone, hnone']
            exact .error .noSuchEntry
          · rw [hfound, hfound']
            have hentered := h.enter name hchild
            cases hchild with
            | link target => exact .ok (.link name target)
            | file _ content => exact .ok (.place hentered)
            | directory _ inside inside' _ _ => exact .ok (.place hentered)

theorem walkSteps_reordered {how : Lookup}
    {onLink onLink' : Place → Path → List Path.Step → Except IoError Place}
    (hon : ∀ p p' target rest, p.Reordered p' →
      SameAnswer Place.Reordered (onLink p target rest) (onLink' p' target rest))
    (steps : List Path.Step) (h : p.Reordered p') :
    SameAnswer Place.Reordered (walkSteps how onLink p steps) (walkSteps how onLink' p' steps) := by
  induction steps generalizing p p' with
  | nil => exact .ok h
  | cons step rest ih =>
    unfold walkSteps
    obtain ⟨e, he, he'⟩ | ⟨met, met', hmet, hmet', hsame⟩ := (meet_reordered how h step).outcomes
    · rw [he, he']
      exact .error e
    · rw [hmet, hmet']
      cases hsame with
      | place hq => exact ih hq
      | link name target =>
        dsimp only
        split
        · exact .ok (.enter name h (.link target))
        · exact hon p p' target rest h

theorem walk_reordered (how : Lookup) (links : Nat) (steps : List Path.Step) (h : p.Reordered p') :
    SameAnswer Place.Reordered (walk how links p steps) (walk how links p' steps) := by
  induction links generalizing p p' steps with
  | zero => exact walkSteps_reordered (fun _ _ _ _ _ => .error .tooManyLinks) steps h
  | succ links ih =>
    refine walkSteps_reordered (fun p p' target rest hp => ?_) steps h
    split
    · exact ih _ hp.top
    · exact ih _ hp

namespace Reordered

theorem here (h : t.Reordered t') : t.here.Reordered t'.here := by
  unfold FileTree.here
  rw [← h.workingDirectory]
  have hroot : Place.Reordered ⟨t.root, []⟩ ⟨t'.root, []⟩ := .root h.root
  generalize (⟨t.root, []⟩ : Place) = p at hroot
  generalize (⟨t'.root, []⟩ : Place) = p' at hroot
  induction t.workingDirectory generalizing p p' with
  | nil => exact hroot
  | cons name names ih =>
    refine ih _ _ ?_
    dsimp only
    obtain ⟨hnone, hnone'⟩ | ⟨child, child', hfound, hfound', hchild⟩ := hroot.node.lookup name
    · rw [hnone, hnone']
      exact hroot
    · rw [hfound, hfound']
      exact .enter name hroot hchild

/-- A path leads to the same place, or nowhere for the same reason. -/
theorem locate (h : t.Reordered t') (how : Lookup) (path : Path) :
    SameAnswer Place.Reordered (t.locate how path) (t'.locate how path) := by
  rw [locate_eq, locate_eq]
  cases refusal? path with
  | some e => exact .error e
  | none =>
    refine walk_reordered how maxLinks path.steps ?_
    unfold beginning
    split
    · exact .root h.root
    · exact h.here

/-! ## Questions -/

theorem target (h : t.Reordered t') (path : Path) :
    SameAnswer Node.Reordered (t.target path) (t'.target path) :=
  (h.locate _ path).bind fun _ _ hplace => .ok hplace.node

theorem entry (h : t.Reordered t') (path : Path) :
    SameAnswer Node.Reordered (t.entry path) (t'.entry path) :=
  (h.locate _ path).bind fun _ _ hplace => .ok hplace.node

/-- A directory has the same names in both trees. -/
theorem list (h : t.Reordered t') (path : Path) :
    SameAnswer (fun entries entries' => (entries.map (·.1)).Perm (entries'.map (·.1)))
      (t.list path) (t'.list path) := by
  refine (h.target path).bind fun node node' hnode => ?_
  cases hnode with
  | file permission content => exact .error .notADirectory
  | link target => exact .error .notADirectory
  | directory permission entries entries' hnames _ =>
    dsimp only
    split
    · exact .ok hnames
    · exact .error .permissionDenied

theorem isDirectory_eq (h : t.Reordered t') (path : Path) :
    t.isDirectory path = t'.isDirectory path := by
  unfold FileTree.isDirectory
  obtain ⟨e, he, he'⟩ | ⟨node, node', hn, hn', hnode⟩ := (h.target path).outcomes
  · rw [he, he']
  · rw [hn, hn']
    cases hnode <;> rfl

end Reordered

end FileTree

end CommentDensity
