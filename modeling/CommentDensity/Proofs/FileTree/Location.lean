import CommentDensity.Proofs.FileTree.WellFormed

/-!
# CommentDensity.Proofs.FileTree.Location

Where things are in a tree.

A location is the list of names that lead from the root to a node, through
directories and no links (`Node.at?`).  A place that a look-up comes to is at
its location (`Place.Within.at?_location`), and putting another node there
changes nothing elsewhere (`Place.Within.covers_rebuilt`).

One tree covers another if all that is in the other is in it too, at the
same location (`Node.Covers`): files and links as they are, directories with
the same permission.
-/

namespace CommentDensity

namespace Node

variable {node other : Node} {name : Bytes} {names : List Bytes}

/-! ## Locations -/

/-- What is found by going from entry to entry along names. -/
def at? : Node → List Bytes → Option Node
  | node, [] => some node
  | node, name :: names => (node.entries.lookup name).bind fun child => at? child names

theorem at?_cons (node : Node) (name : Bytes) (names : List Bytes) :
    node.at? (name :: names) = (node.entries.lookup name).bind (·.at? names) := rfl

theorem at?_append (node : Node) (names more : List Bytes) :
    node.at? (names ++ more) = (node.at? names).bind (·.at? more) := by
  induction names generalizing node with
  | nil => rfl
  | cons name names ih =>
    rw [List.cons_append, at?_cons, at?_cons]
    cases node.entries.lookup name with
    | none => rfl
    | some child => exact ih child

theorem at?_concat (node : Node) (names : List Bytes) (name : Bytes) :
    node.at? (names ++ [name]) = (node.at? names).bind (·.entries.lookup name) := by
  rw [at?_append]
  refine congrArg _ (funext fun found => ?_)
  rw [at?_cons]
  cases found.entries.lookup name <;> rfl

theorem eq_directory_of_lookup {child : Node} (h : node.entries.lookup name = some child) :
    ∃ permission entries, node = .directory permission entries := by
  cases node with
  | directory permission entries => exact ⟨permission, entries, rfl⟩
  | file permission content => cases h
  | link target => cases h

/-! ## What one tree has of another -/

/-- Nodes that differ at most in what is in them. -/
inductive Like : Node → Node → Prop where
  | file (permission : Permission) (content : ByteArray) :
      Like (.file permission content) (.file permission content)
  | link (target : Path) : Like (.link target) (.link target)
  | directory (permission : Permission) (entries entries' : List (Bytes × Node)) :
      Like (.directory permission entries) (.directory permission entries')

theorem Like.refl (node : Node) : node.Like node := by
  cases node with
  | file permission content => exact .file permission content
  | link target => exact .link target
  | directory permission entries => exact .directory permission entries entries

/-- All that is in the other node is in this one, at the same location. -/
def Covers (node other : Node) : Prop :=
  ∀ names there, other.at? names = some there → ∃ here, node.at? names = some here ∧ here.Like there

theorem Covers.refl (node : Node) : node.Covers node := fun _ there h => ⟨there, h, .refl there⟩

/-- A directory covers another of its permission if its entries cover those
of the other. -/
theorem covers_directory {permission : Permission} {entries entries' : List (Bytes × Node)}
    (h : ∀ name there, entries'.lookup name = some there →
      ∃ here, entries.lookup name = some here ∧ here.Covers there) :
    (Node.directory permission entries).Covers (.directory permission entries') := by
  intro names there hthere
  cases names with
  | nil =>
    cases hthere
    exact ⟨_, rfl, .directory permission entries entries'⟩
  | cons name names =>
    obtain ⟨inside, hinside, hthere⟩ := Option.bind_eq_some_iff.mp hthere
    obtain ⟨here, hhere, hcovers⟩ := h name inside hinside
    obtain ⟨found, hfound, hlike⟩ := hcovers names there hthere
    refine ⟨found, ?_, hlike⟩
    rw [at?_cons]
    show (entries.lookup name).bind _ = _
    rw [hhere]
    exact hfound

theorem lookup_setEntry_of_ne {name name' : Bytes} (h : name' ≠ name) (node : Node)
    (es : List (Bytes × Node)) : (setEntry name node es).lookup name' = es.lookup name' := by
  have hne : (name' == name) = false := by simpa using h
  induction es with
  | nil => simp [setEntry, List.lookup_cons, hne]
  | cons e es ih =>
    obtain ⟨n, old⟩ := e
    unfold setEntry
    split
    · next hn => simp [List.lookup_cons, hn, hne]
    · rw [List.lookup_cons, List.lookup_cons, ih]

/-- A directory covers what it is with an entry in the place of one that
covers it. -/
theorem Covers.insert {child child' : Node} (hfound : node.entries.lookup name = some child)
    (h : child.Covers child') : node.Covers (node.insert name child') := by
  obtain ⟨permission, entries, rfl⟩ := eq_directory_of_lookup hfound
  refine covers_directory fun name' there hthere => ?_
  by_cases hname : name' = name
  · subst hname
    rw [lookup_setEntry] at hthere
    cases hthere
    exact ⟨child, hfound, h⟩
  · rw [lookup_setEntry_of_ne hname] at hthere
    exact ⟨there, hthere, .refl there⟩

theorem lookup_entries_insert {child child' : Node} (hfound : node.entries.lookup name = some child) :
    (node.insert name child').entries.lookup name = some child' := by
  obtain ⟨permission, entries, rfl⟩ := eq_directory_of_lookup hfound
  exact lookup_setEntry name child' entries

end Node

namespace Place

variable {root : Node} {p : Place} {name : Bytes} {child : Node}

/-! ## Places in a tree -/

/-- The names that lead from the root to a place. -/
def location (p : Place) : List Bytes := (p.above.map (·.1)).reverse

/-- The place has its node, and the directories above it, from this tree. -/
inductive Within (root : Node) : Place → Prop where
  | root : Within root ⟨root, []⟩
  | enter {p : Place} {name : Bytes} {child : Node} : Within root p →
      p.node.entries.lookup name = some child → Within root (p.enter name child)

@[simp] theorem location_enter (p : Place) (name : Bytes) (child : Node) :
    (p.enter name child).location = p.location ++ [name] := by
  simp [location, Place.enter]

theorem root_enter (p : Place) (name : Bytes) (child : Node) :
    (p.enter name child).root = p.root := by
  obtain ⟨node, above⟩ := p
  cases above with
  | nil => rfl
  | cons e above => simp [Place.root, Place.enter, List.getLast?_cons]

theorem location_up (p : Place) : p.up.location = p.location.dropLast := by
  obtain ⟨node, above⟩ := p
  cases above with
  | nil => rfl
  | cons e above => simp [up, location]

namespace Within

theorem up (h : p.Within root) : p.up.Within root := by
  cases h with
  | root => exact .root
  | enter h hfound => exact h

theorem root_eq (h : p.Within root) : p.root = ⟨root, []⟩ := by
  induction h with
  | root => rfl
  | enter h hfound ih => rw [root_enter, ih]

/-- A place is at its location. -/
theorem at?_location (h : p.Within root) : root.at? p.location = some p.node := by
  induction h with
  | root => rfl
  | enter h hfound ih =>
    rw [location_enter, Node.at?_concat, ih]
    exact hfound

/-- Another node, put at the place, is there. -/
theorem at?_rebuilt (h : p.Within root) (node : Node) :
    (rebuilt { p with node := node }).at? p.location = some node := by
  induction h generalizing node with
  | root => rfl
  | @enter p name child h hfound ih =>
    have hrebuilt : rebuilt { p.enter name child with node := node } =
        rebuilt { p with node := p.node.insert name node } := rfl
    rw [hrebuilt, location_enter, Node.at?_concat, ih]
    exact Node.lookup_entries_insert hfound

/-- The tree covers what it is with another node at the place that is
covered by the one there. -/
theorem covers_rebuilt (h : p.Within root) {node : Node} (hcovers : p.node.Covers node) :
    root.Covers (rebuilt { p with node := node }) := by
  induction h generalizing node with
  | root => exact hcovers
  | @enter p name child h hfound ih => exact ih (.insert hfound hcovers)

end Within

end Place

end CommentDensity
