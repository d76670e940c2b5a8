import CommentDensity.Proofs.FileTree.Descent
import CommentDensity.Proofs.FileTree.Location

/-!
# CommentDensity.Proofs.FileTree.Trail

What a look-up comes to, and the same look-up in a tree that has less.

The trail of a look-up are the locations it comes to, the links it follows
and the place where it begins among them (`FileTree.trail`).  In a tree that
is covered by the first, the look-up ends as it does there, or it fails for
want of something on its trail (`locate_retraces`).  So what is found in the
smaller tree is also found in the larger one, and conversely if all of the
trail is in both (`target_like_of_kept`).
-/

namespace CommentDensity.FileTree

variable {root root' : Node} {p p' q : Place} {t t' : FileTree} {path : Path}

/-! ## The same place in two trees -/

/-- Places of the same location in two trees. -/
structure Twins (root root' : Node) (p p' : Place) : Prop where
  within : p.Within root
  within' : p'.Within root'
  location_eq : p'.location = p.location

theorem twins_root (root root' : Node) : Twins root root' ⟨root, []⟩ ⟨root', []⟩ :=
  ⟨.root, .root, rfl⟩

namespace Twins

theorem up (h : Twins root root' p p') : Twins root root' p.up p'.up :=
  ⟨h.within.up, h.within'.up, by rw [Place.location_up, Place.location_up, h.location_eq]⟩

theorem top (h : Twins root root' p p') : Twins root root' p.root p'.root := by
  rw [h.within.root_eq, h.within'.root_eq]
  exact twins_root root root'

theorem enter (h : Twins root root' p p') {name : Bytes} {child child' : Node}
    (hfound : p.node.entries.lookup name = some child)
    (hfound' : p'.node.entries.lookup name = some child') :
    Twins root root' (p.enter name child) (p'.enter name child') :=
  ⟨h.within.enter hfound, h.within'.enter hfound', by
    rw [Place.location_enter, Place.location_enter, h.location_eq]⟩

theorem like (hcovers : root.Covers root') (h : Twins root root' p p') : p.node.Like p'.node := by
  obtain ⟨here, hhere, hlike⟩ := hcovers _ _ (h.location_eq ▸ h.within'.at?_location)
  rw [h.within.at?_location] at hhere
  cases hhere
  exact hlike

/-- An entry is in neither directory, or in both, or its location is missing
in the smaller tree. -/
theorem lookup_cases (hcovers : root.Covers root') (h : Twins root root' p p') (name : Bytes) :
    (p.node.entries.lookup name = none ∧ p'.node.entries.lookup name = none) ∨
      (∃ child child', p.node.entries.lookup name = some child ∧
        p'.node.entries.lookup name = some child' ∧ child.Like child') ∨
      ∃ child, p.node.entries.lookup name = some child ∧
        p'.node.entries.lookup name = none ∧ root'.at? (p.location ++ [name]) = none := by
  have hat : root.at? (p.location ++ [name]) = p.node.entries.lookup name := by
    rw [Node.at?_concat, h.within.at?_location, Option.bind_some]
  have hat' : root'.at? (p.location ++ [name]) = p'.node.entries.lookup name := by
    rw [Node.at?_concat, ← h.location_eq, h.within'.at?_location, Option.bind_some]
  cases hfound' : p'.node.entries.lookup name with
  | some child' =>
    obtain ⟨child, hchild, hlike⟩ := hcovers _ _ (hat'.trans hfound')
    exact .inr (.inl ⟨child, child', hat ▸ hchild, rfl, hlike⟩)
  | none =>
    cases hfound : p.node.entries.lookup name with
    | none => exact .inl ⟨rfl, rfl⟩
    | some child => exact .inr (.inr ⟨child, rfl, rfl, hat'.trans hfound'⟩)

end Twins

/-! ## Trails -/

/-- Where a step from `p` leads to. -/
def Met.location (p : Place) : Met → List Bytes
  | .place q => q.location
  | .link name _ => p.location ++ [name]

/-- The locations that steps come to, up to the first link, which `onLink`
then takes with the steps that are left. -/
def trailSteps (onLink : Place → Path → List Path.Step → List (List Bytes)) :
    Place → List Path.Step → List (List Bytes)
  | _, [] => []
  | p, step :: rest =>
    match meet ⟨true, false⟩ p step with
    | .error _ => []
    | .ok (.place q) => q.location :: trailSteps onLink q rest
    | .ok (.link name target) => (p.location ++ [name]) :: onLink p target rest

/-- The locations that a look-up comes to. -/
def trailFrom : (links : Nat) → Place → List Path.Step → List (List Bytes)
  | 0 => trailSteps fun _ _ _ => []
  | links + 1 => trailSteps fun p target rest =>
    trailFrom links (if target.isAbsolute then p.root else p) (target.steps ++ rest)

/-- The locations that the look-up of a path comes to, that where it begins
included. -/
def trail (t : FileTree) (path : Path) : List (List Bytes) :=
  (t.beginning path).location :: trailFrom maxLinks (t.beginning path) path.steps

/-- Two look-ups end alike, or the second fails and something on the trail of
the first is missing. -/
def Retraces (root root' : Node) (trail : List (List Bytes)) (r r' : Except IoError Place) : Prop :=
  (∃ e, r = .error e ∧ r' = .error e) ∨
    (∃ q q', r = .ok q ∧ r' = .ok q' ∧ Twins root root' q q') ∨
    ((∃ e, r' = .error e) ∧ ∃ names ∈ trail, root'.at? names = none)

theorem Retraces.cons {trail : List (List Bytes)} {r r' : Except IoError Place}
    (h : Retraces root root' trail r r') (names : List Bytes) :
    Retraces root root' (names :: trail) r r' := by
  obtain h | h | ⟨hr, missing, hmem, hnone⟩ := h
  · exact .inl h
  · exact .inr (.inl h)
  · exact .inr (.inr ⟨hr, missing, List.mem_cons_of_mem _ hmem, hnone⟩)

/-- How one step from each of two places compares: they fail alike, lead to
the same place, or meet the same link; or what the first one leads to is
missing in the second tree. -/
def StepsAlike (root root' : Node) (p p' : Place) (r r' : Except IoError Met) : Prop :=
  (∃ e, r = .error e ∧ r' = .error e) ∨
    (∃ q q', r = .ok (.place q) ∧ r' = .ok (.place q') ∧ Twins root root' q q') ∨
    (∃ name target, r = .ok (.link name target) ∧ r' = .ok (.link name target) ∧
      Twins root root' (p.enter name (.link target)) (p'.enter name (.link target))) ∨
    ∃ met e, r = .ok met ∧ r' = .error e ∧ root'.at? (met.location p) = none

/-- The step to an entry, from directories that can be searched. -/
theorem Twins.entry_alike (hcovers : root.Covers root') (h : Twins root root' p p') (name : Bytes) :
    StepsAlike root root' p p'
      (match p.node.entries.lookup name with
        | none => .error .noSuchEntry
        | some (.link target) => .ok (.link name target)
        | some child => .ok (.place (p.enter name child)))
      (match p'.node.entries.lookup name with
        | none => .error .noSuchEntry
        | some (.link target) => .ok (.link name target)
        | some child => .ok (.place (p'.enter name child))) := by
  obtain ⟨hfound, hfound'⟩ | ⟨child, child', hfound, hfound', hlike⟩ |
    ⟨child, hfound, hfound', hmissing⟩ := h.lookup_cases hcovers name
  · rw [hfound, hfound']
    exact .inl ⟨.noSuchEntry, rfl, rfl⟩
  · have htwins := h.enter hfound hfound'
    rw [hfound, hfound']
    cases hlike with
    | file permission content => exact .inr (.inl ⟨_, _, rfl, rfl, htwins⟩)
    | directory permission inside inside' => exact .inr (.inl ⟨_, _, rfl, rfl, htwins⟩)
    | link target => exact .inr (.inr (.inl ⟨name, target, rfl, rfl, htwins⟩))
  · rw [hfound, hfound']
    rw [← Place.location_enter p name child] at hmissing
    cases child with
    | file permission content => exact .inr (.inr (.inr ⟨_, _, rfl, rfl, hmissing⟩))
    | directory permission inside => exact .inr (.inr (.inr ⟨_, _, rfl, rfl, hmissing⟩))
    | link target =>
      rw [Place.location_enter] at hmissing
      exact .inr (.inr (.inr ⟨.link name target, _, rfl, rfl, hmissing⟩))

/-- One step in both trees. -/
theorem meet_alike (hcovers : root.Covers root') (h : Twins root root' p p') (followLast : Bool)
    (step : Path.Step) :
    StepsAlike root root' p p' (meet ⟨followLast, false⟩ p step) (meet ⟨followLast, false⟩ p' step) := by
  generalize hn : p.node = node
  generalize hn' : p'.node = node'
  have hlike : node.Like node' := hn ▸ hn' ▸ h.like hcovers
  cases hlike with
  | file permission content =>
    exact .inl ⟨.notADirectory, by simp [meet, hn], by simp [meet, hn']⟩
  | link target => exact .inl ⟨.notADirectory, by simp [meet, hn], by simp [meet, hn']⟩
  | directory permission entries entries' =>
    cases step with
    | directory => exact .inr (.inl ⟨p, p', by simp [meet, hn], by simp [meet, hn'], h⟩)
    | here =>
      cases hsearch : permission.search with
      | false =>
        exact .inl ⟨.permissionDenied, by simp [meet, hn, hsearch], by simp [meet, hn', hsearch]⟩
      | true =>
        exact .inr (.inl ⟨p, p', by simp [meet, hn, hsearch], by simp [meet, hn', hsearch], h⟩)
    | up =>
      cases hsearch : permission.search with
      | false =>
        exact .inl ⟨.permissionDenied, by simp [meet, hn, hsearch], by simp [meet, hn', hsearch]⟩
      | true =>
        exact .inr (.inl ⟨p.up, p'.up, by simp [meet, hn, hsearch], by simp [meet, hn', hsearch],
          h.up⟩)
    | name name =>
      have hentry := h.entry_alike hcovers name
      rw [meet_name_eq hn rfl, meet_name_eq hn' rfl]
      rw [hn, hn'] at hentry
      cases nameRefusal? permission name with
      | some e => exact .inl ⟨e, rfl, rfl⟩
      | none => exact hentry

/-! ## Look-ups -/

/-- Steps up to a link that has to be followed. -/
theorem walkSteps_retraces (hcovers : root.Covers root') {followLast : Bool}
    {onLink : Place → Path → List Path.Step → Except IoError Place}
    {onTrail : Place → Path → List Path.Step → List (List Bytes)}
    (hon : ∀ p p' target rest, Twins root root' p p' →
      Retraces root root' (onTrail p target rest) (onLink p target rest) (onLink p' target rest))
    (steps : List Path.Step) (h : Twins root root' p p') :
    Retraces root root' (trailSteps onTrail p steps)
      (walkSteps ⟨followLast, false⟩ onLink p steps)
      (walkSteps ⟨followLast, false⟩ onLink p' steps) := by
  induction steps generalizing p p' with
  | nil => exact .inr (.inl ⟨p, p', rfl, rfl, h⟩)
  | cons step rest ih =>
    have hsame : meet ⟨true, false⟩ p step = meet ⟨followLast, false⟩ p step := rfl
    rw [trailSteps, walkSteps, walkSteps, hsame]
    obtain ⟨e, he, he'⟩ | ⟨q, q', hq, hq', htwins⟩ | ⟨name, target, hlink, hlink', htwins⟩ |
      ⟨met, e, hmet, he, hmissing⟩ := meet_alike hcovers h followLast step
    · rw [he, he']
      exact .inl ⟨e, rfl, rfl⟩
    · rw [hq, hq']
      exact (ih htwins).cons _
    · rw [hlink, hlink']
      dsimp only
      split
      · exact .inr (.inl ⟨_, _, rfl, rfl, htwins⟩)
      · exact (hon p p' target rest h).cons _
    · rw [hmet, he]
      refine .inr (.inr ⟨⟨e, rfl⟩, met.location p, ?_, hmissing⟩)
      cases met <;> exact List.mem_cons_self

theorem walk_retraces (hcovers : root.Covers root') (followLast : Bool) (links : Nat)
    (steps : List Path.Step) (h : Twins root root' p p') :
    Retraces root root' (trailFrom links p steps) (walk ⟨followLast, false⟩ links p steps)
      (walk ⟨followLast, false⟩ links p' steps) := by
  induction links generalizing p p' steps with
  | zero =>
    exact walkSteps_retraces hcovers (fun _ _ _ _ _ => .inl ⟨.tooManyLinks, rfl, rfl⟩) steps h
  | succ links ih =>
    refine walkSteps_retraces hcovers (fun p p' target rest htwins => ?_) steps h
    split
    · exact ih _ htwins.top
    · exact ih _ htwins

/-! ## Where look-ups begin -/

/-- The entry `name`, if there is one. -/
def enterEntry (p : Place) (name : Bytes) : Place :=
  match p.node.entries.lookup name with
  | some child => p.enter name child
  | none => p

theorem here_eq (t : FileTree) : t.here = t.workingDirectory.foldl enterEntry ⟨t.root, []⟩ := rfl

theorem location_isPrefix_foldl (names : List Bytes) (p : Place) :
    p.location <+: (names.foldl enterEntry p).location := by
  induction names generalizing p with
  | nil => exact List.prefix_rfl
  | cons name names ih =>
    refine List.IsPrefix.trans ?_ (ih (enterEntry p name))
    unfold enterEntry
    split
    · rw [Place.location_enter]
      exact List.prefix_append ..
    · exact List.prefix_rfl

theorem foldl_enterEntry_twins (hcovers : root.Covers root') (names : List Bytes)
    (h : Twins root root' p p')
    (hthere : root'.at? (names.foldl enterEntry p).location ≠ none) :
    Twins root root' (names.foldl enterEntry p) (names.foldl enterEntry p') := by
  induction names generalizing p p' with
  | nil => exact h
  | cons name names ih =>
    refine ih ?_ hthere
    unfold enterEntry
    obtain ⟨hfound, hfound'⟩ | ⟨child, child', hfound, hfound', _⟩ |
      ⟨child, hfound, hfound', hmissing⟩ := h.lookup_cases hcovers name
    · rw [hfound, hfound']
      exact h
    · rw [hfound, hfound']
      exact h.enter hfound hfound'
    · -- all that is further down is missing as well
      have hentered : enterEntry p name = p.enter name child := by rw [enterEntry, hfound]
      obtain ⟨more, hmore⟩ := location_isPrefix_foldl names (enterEntry p name)
      rw [hentered, Place.location_enter] at hmore
      refine absurd ?_ hthere
      rw [List.foldl_cons, hentered, ← hmore, Node.at?_append, hmissing]
      rfl

theorem beginning_twins (hcovers : t.root.Covers t'.root)
    (hdirectory : t'.workingDirectory = t.workingDirectory) (path : Path)
    (hthere : t'.root.at? (t.beginning path).location ≠ none) :
    Twins t.root t'.root (t.beginning path) (t'.beginning path) := by
  unfold beginning at hthere ⊢
  split
  · exact twins_root t.root t'.root
  · next habsolute =>
    rw [if_neg habsolute, here_eq] at hthere
    rw [here_eq, here_eq, hdirectory]
    exact foldl_enterEntry_twins hcovers _ (twins_root t.root t'.root) hthere

/-! ## Paths -/

theorem locate_retraces (hcovers : t.root.Covers t'.root)
    (hdirectory : t'.workingDirectory = t.workingDirectory) (followLast : Bool) (path : Path)
    (hthere : t'.root.at? (t.beginning path).location ≠ none) :
    Retraces t.root t'.root (t.trail path) (t.locate ⟨followLast, false⟩ path)
      (t'.locate ⟨followLast, false⟩ path) := by
  have htwins := beginning_twins hcovers hdirectory path hthere
  rw [locate_eq, locate_eq]
  cases refusal? path with
  | some e => exact .inl ⟨e, rfl, rfl⟩
  | none => exact (walk_retraces hcovers followLast maxLinks path.steps htwins).cons _

theorem within_foldl_enterEntry (names : List Bytes) (h : p.Within root) :
    (names.foldl enterEntry p).Within root := by
  induction names generalizing p with
  | nil => exact h
  | cons name names ih =>
    refine ih ?_
    unfold enterEntry
    split
    · next hfound => exact h.enter hfound
    · exact h

theorem within_beginning (t : FileTree) (path : Path) : (t.beginning path).Within t.root := by
  unfold beginning
  split
  · exact .root
  · rw [here_eq]
    exact within_foldl_enterEntry _ .root

/-- A look-up ends in the tree. -/
theorem within_of_locate {followLast : Bool} (h : t.locate ⟨followLast, false⟩ path = .ok q) :
    q.Within t.root := by
  have hthere : t.root.at? (t.beginning path).location ≠ none := by
    rw [(within_beginning t path).at?_location]
    exact Option.some_ne_none _
  -- it retraces itself
  obtain ⟨e, he, _⟩ | ⟨r, _, hr, _, htwins⟩ | ⟨⟨e, he⟩, _⟩ :=
    locate_retraces (.refl t.root) rfl followLast path hthere
  · rw [h] at he
    cases he
  · rw [h] at hr
    cases hr
    exact htwins.within
  · rw [h] at he
    cases he

/-! ## What is kept -/

/-- All that the look-up of a path comes to is in the other tree, if the path
leads anywhere. -/
def KeptIn (t t' : FileTree) (path : Path) : Prop :=
  ∀ node, t.target path = .ok node → ∀ names ∈ t.trail path, (t'.root.at? names).isSome = true

/-- The path leads to the same in both trees, but for what is in it, or
nowhere in both. -/
def LeadsAlike (t t' : FileTree) (path : Path) : Prop :=
  (∃ node node', t.target path = .ok node ∧ t'.target path = .ok node' ∧ node.Like node') ∨
    ∃ e e', t.target path = .error e ∧ t'.target path = .error e'

section Kept

variable (hcovers : t.root.Covers t'.root) (hdirectory : t'.workingDirectory = t.workingDirectory)
include hcovers hdirectory

theorem KeptIn.locate (hkept : t.KeptIn t' path) {node : Node} (htarget : t.target path = .ok node)
    (followLast : Bool) :
    (∃ e, t.locate ⟨followLast, false⟩ path = .error e ∧
      t'.locate ⟨followLast, false⟩ path = .error e) ∨
    ∃ q q', t.locate ⟨followLast, false⟩ path = .ok q ∧
      t'.locate ⟨followLast, false⟩ path = .ok q' ∧ Twins t.root t'.root q q' := by
  have hall := hkept node htarget
  have hthere : t'.root.at? (t.beginning path).location ≠ none :=
    Option.isSome_iff_ne_none.mp (hall _ List.mem_cons_self)
  obtain h | h | ⟨_, names, hmem, hnone⟩ :=
    locate_retraces hcovers hdirectory followLast path hthere
  · exact .inl h
  · exact .inr h
  · have hsome := hall names hmem
    rw [hnone] at hsome
    cases hsome

/-- What is kept leads to the same place. -/
theorem KeptIn.locate_of_target (hkept : t.KeptIn t' path) {node : Node}
    (htarget : t.target path = .ok node) :
    ∃ q q', t.locate ⟨true, false⟩ path = .ok q ∧ t'.locate ⟨true, false⟩ path = .ok q' ∧
      Twins t.root t'.root q q' := by
  obtain ⟨q, hq, _⟩ := target_eq_ok.mp htarget
  obtain ⟨e, he, _⟩ | h := hkept.locate hcovers hdirectory htarget true
  · rw [hq] at he
    cases he
  · exact h

/-- What is kept also names the same. -/
theorem KeptIn.entry (hkept : t.KeptIn t' path) {node : Node} (htarget : t.target path = .ok node) :
    ∃ named named', t.entry path = .ok named ∧ t'.entry path = .ok named' ∧ named.Like named' := by
  obtain ⟨named, hentry⟩ := entry_of_target htarget
  obtain ⟨q, hq, _⟩ := entry_eq_ok.mp hentry
  obtain ⟨e, he, _⟩ | ⟨r, r', hr, hr', htwins⟩ := hkept.locate hcovers hdirectory htarget false
  · rw [hq] at he
    cases he
  · exact ⟨r.node, r'.node, entry_eq_ok.mpr ⟨r, hr, rfl⟩, entry_eq_ok.mpr ⟨r', hr', rfl⟩,
      htwins.like hcovers⟩

/-- What is kept leads to the same; what leads nowhere leads nowhere in a
tree that has less. -/
theorem KeptIn.leadsAlike (hkept : t.KeptIn t' path)
    (hthere : t'.root.at? (t.beginning path).location ≠ none) : t.LeadsAlike t' path := by
  cases htarget : t.target path with
  | ok node =>
    obtain ⟨q, q', hq, hq', htwins⟩ := hkept.locate_of_target hcovers hdirectory htarget
    exact .inl ⟨q.node, q'.node, htarget ▸ target_eq_ok.mpr ⟨q, hq, rfl⟩,
      target_eq_ok.mpr ⟨q', hq', rfl⟩, htwins.like hcovers⟩
  | error e =>
    cases htarget' : t'.target path with
    | error e' => exact .inr ⟨e, e', htarget, htarget'⟩
    | ok node' =>
      obtain ⟨q', hq', _⟩ := target_eq_ok.mp htarget'
      obtain ⟨_, _, he⟩ | ⟨r, _, hr, _⟩ | ⟨⟨_, he⟩, _⟩ :=
        locate_retraces hcovers hdirectory true path hthere
      · rw [hq'] at he
        cases he
      · rw [target_eq_ok.mpr ⟨r, hr, rfl⟩] at htarget
        cases htarget
      · rw [hq'] at he
        cases he

end Kept

theorem Alike.leadsAlike {node node' : Node} (h : t.Alike t' path node node')
    (hlike : node.Like node') : t.LeadsAlike t' path := by
  obtain ⟨hnode, hnode'⟩ | ⟨e, he, he'⟩ := h.target
  · exact .inl ⟨node, node', hnode, hnode', hlike⟩
  · exact .inr ⟨e, e, he, he'⟩

theorem LeadsAlike.isDirectory_eq (h : t.LeadsAlike t' path) :
    t.isDirectory path = t'.isDirectory path := by
  unfold isDirectory
  obtain ⟨node, node', hnode, hnode', hlike⟩ | ⟨e, e', he, he'⟩ := h
  · rw [hnode, hnode']
    cases hlike <;> rfl
  · rw [he, he']

/-- The same text can be read, or none. -/
theorem LeadsAlike.readText (h : t.LeadsAlike t' path) :
    t.readText path = t'.readText path ∨
      ∃ e e', t.readText path = .error e ∧ t'.readText path = .error e' := by
  unfold FileTree.readText
  obtain ⟨node, node', hnode, hnode', hlike⟩ | ⟨e, e', he, he'⟩ := h
  · rw [hnode, hnode']
    cases hlike <;> exact .inl rfl
  · rw [he, he']
    exact .inr ⟨e, e', rfl, rfl⟩

end CommentDensity.FileTree
