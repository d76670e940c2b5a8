import CommentDensity.Proofs.FileTree.Lookup

/-!
# CommentDensity.Proofs.FileTree.Descent

Looking up what is below a directory, in one tree and in two.

A path is looked up along its parts.  If they lead to a place, all further
steps are taken from there (`Arrives`); if not, no further step mends it
(`Stuck`).  A step to an entry that is no link depends on nothing but the
permission of the directory and the length of the name (`Arrives.join`,
`Arrives.join_stuck`).

So two trees in which a path leads to directories of the same permission
agree on the look-ups of their common entries, the failures included
(`Aligned.join`, `Aligned.target`).
-/

namespace CommentDensity.FileTree

variable {t t' : FileTree} {path : Path} {name : Bytes} {p q : Place} {e : IoError}

/-! ## Where a path leads -/

/-- Where the look-up of a path begins. -/
def beginning (t : FileTree) (path : Path) : Place :=
  if path.isAbsolute then ⟨t.root, []⟩ else t.here

/-- Why a path is not even looked up. -/
def refusal? (path : Path) : Option IoError :=
  if path.bytes.contains 0 then some .nulInPath
  else if path.bytes.isEmpty then some .noSuchEntry
  else if maxPath < path.bytes.length then some .nameTooLong
  else none

theorem locate_eq (t : FileTree) (how : Lookup) (path : Path) :
    t.locate how path =
      match refusal? path with
      | some e => .error e
      | none => walk how maxLinks (t.beginning path) path.steps := by
  unfold locate refusal? beginning
  split
  · rfl
  · split
    · rfl
    · split <;> rfl

/-- The parts of the path lead to `q`: further steps are taken from there. -/
def Arrives (t : FileTree) (path : Path) (q : Place) : Prop :=
  ∃ left, ∀ more, walk ⟨true, false⟩ maxLinks (t.beginning path)
    (path.parts.map Path.Step.ofPart ++ more) = walk ⟨true, false⟩ left q more

/-- The parts of the path lead nowhere, and neither do further steps. -/
def Stuck (t : FileTree) (path : Path) (e : IoError) : Prop :=
  ∀ more, walk ⟨true, false⟩ maxLinks (t.beginning path)
    (path.parts.map Path.Step.ofPart ++ more) = .error e

theorem arrives_of_locate (h : t.locate ⟨true, false⟩ path = .ok q) : t.Arrives path q := by
  obtain ⟨left, hleft⟩ := walk_parts (locate_eq_ok.mp h).2
  exact ⟨left, fun more => hleft true more (.inl rfl)⟩

theorem beginning_join (hname : name.IsEntryName) :
    t.beginning (path.join name) = t.beginning path := by
  rw [beginning, beginning, Path.isAbsolute_join path hname]

/-- The steps of an entry's path, and then others. -/
theorem steps_join_append (hname : name.IsEntryName) (more : List Path.Step) :
    (path.join name).parts.map Path.Step.ofPart ++ more =
      path.parts.map Path.Step.ofPart ++ .name name :: more := by
  rw [Path.parts_join path hname, List.map_append, List.map_singleton,
    Path.ofPart_entryName hname, List.append_assoc, List.singleton_append]

theorem Stuck.join (h : t.Stuck path e) (hname : name.IsEntryName) : t.Stuck (path.join name) e :=
  fun more => by rw [beginning_join hname, steps_join_append hname, h]

/-! ## Steps to entries -/

/-- Whether names can be looked up in a directory, and this name at all. -/
def nameRefusal? (permission : Permission) (name : Bytes) : Option IoError :=
  if permission.search = false then some .permissionDenied
  else if maxName < name.length then some .nameTooLong
  else none

theorem meet_name_eq {how : Lookup} {permission : Permission} {entries : List (Bytes × Node)}
    (hnode : p.node = .directory permission entries) (hprivileged : how.privileged = false)
    (name : Bytes) :
    meet how p (.name name) =
      match nameRefusal? permission name with
      | some e => .error e
      | none =>
        match entries.lookup name with
        | none => .error .noSuchEntry
        | some (.link target) => .ok (.link name target)
        | some child => .ok (.place (p.enter name child)) := by
  unfold meet nameRefusal?
  rw [hnode, hprivileged]
  cases hsearch : permission.search with
  | false => simp [hsearch]
  | true =>
    by_cases hlong : maxName < name.length
    · simp [hsearch, hlong]
    · cases hfound : entries.lookup name with
      | none => simp [hsearch, hlong, hfound]
      | some child => cases child <;> simp [hsearch, hlong, hfound]

/-- An entry that is no link is arrived at through its directory. -/
theorem Arrives.join {permission : Permission} {entries : List (Bytes × Node)} {child : Node}
    (h : t.Arrives path p) (hname : name.IsEntryName)
    (hnode : p.node = .directory permission entries) (hallowed : nameRefusal? permission name = none)
    (hfound : entries.lookup name = some child) (hlink : child.isLink = false) :
    t.Arrives (path.join name) (p.enter name child) := by
  obtain ⟨left, hleft⟩ := h
  have hmeet : meet ⟨true, false⟩ p (.name name) = .ok (.place (p.enter name child)) := by
    rw [meet_name_eq hnode rfl, hallowed, hfound]
    cases child with
    | link target => simp [Node.isLink] at hlink
    | file filePermission content => rfl
    | directory childPermission inside => rfl
  refine ⟨left, fun more => ?_⟩
  rw [beginning_join hname, steps_join_append hname, hleft]
  cases left <;> simp only [walk, walkSteps, hmeet]

/-- No entry is arrived at whose name cannot be looked up. -/
theorem Arrives.join_stuck {permission : Permission} {entries : List (Bytes × Node)}
    (h : t.Arrives path p) (hname : name.IsEntryName)
    (hnode : p.node = .directory permission entries)
    (hrefused : nameRefusal? permission name = some e) : t.Stuck (path.join name) e := by
  obtain ⟨left, hleft⟩ := h
  have hmeet : meet ⟨true, false⟩ p (.name name) = .error e := by
    rw [meet_name_eq hnode rfl, hrefused]
  intro more
  rw [beginning_join hname, steps_join_append hname, hleft]
  cases left <;> simp only [walk, walkSteps, hmeet]

/-! ## What an entry's path leads to -/

theorem locate_join_eq (hname : name.IsEntryName) :
    t.locate ⟨true, false⟩ (path.join name) =
      match refusal? (path.join name) with
      | some e => .error e
      | none => walk ⟨true, false⟩ maxLinks (t.beginning (path.join name))
          ((path.join name).parts.map Path.Step.ofPart ++ []) := by
  have hsteps : (path.join name).steps = (path.join name).parts.map Path.Step.ofPart ++ [] := by
    rw [Path.steps, if_neg fun hs => Path.getLast?_join_ne_slash path hname hs.2]
  rw [locate_eq, hsteps]

theorem Arrives.target_join (h : t.Arrives (path.join name) q) (hname : name.IsEntryName) :
    t.target (path.join name) =
      match refusal? (path.join name) with
      | some e => .error e
      | none => .ok q.node := by
  obtain ⟨left, hleft⟩ := h
  rw [target, locate_join_eq hname, hleft, walk_nil]
  cases refusal? (path.join name) <;> rfl

theorem Stuck.target_join (h : t.Stuck (path.join name) e) (hname : name.IsEntryName) :
    t.target (path.join name) = .error ((refusal? (path.join name)).getD e) := by
  rw [target, locate_join_eq hname, h]
  cases refusal? (path.join name) <;> rfl

/-! ## Two trees -/

/-- The parts of the path lead to `node` in one tree and to `node'` in the
other, or nowhere in both, and for the same reason. -/
def Aligned (t t' : FileTree) (path : Path) (node node' : Node) : Prop :=
  (∃ q q', t.Arrives path q ∧ t'.Arrives path q' ∧ q.node = node ∧ q'.node = node') ∨
    ∃ e, t.Stuck path e ∧ t'.Stuck path e

variable {node node' child child' : Node} {permission : Permission}
  {entries entries' : List (Bytes × Node)}

theorem aligned_of_target (h : t.target path = .ok node) (h' : t'.target path = .ok node') :
    Aligned t t' path node node' := by
  obtain ⟨q, hq, hnode⟩ := target_eq_ok.mp h
  obtain ⟨q', hq', hnode'⟩ := target_eq_ok.mp h'
  exact .inl ⟨q, q', arrives_of_locate hq, arrives_of_locate hq', hnode, hnode'⟩

/-- Entries of the same name are looked up alike in directories of the same
permission. -/
theorem Aligned.join
    (h : Aligned t t' path (.directory permission entries) (.directory permission entries'))
    (hname : name.IsEntryName) (hfound : entries.lookup name = some child)
    (hfound' : entries'.lookup name = some child') (hlink : child.isLink = false)
    (hlink' : child'.isLink = false) : Aligned t t' (path.join name) child child' := by
  obtain ⟨q, q', hq, hq', hnode, hnode'⟩ | ⟨e, he, he'⟩ := h
  · cases hrefusal : nameRefusal? permission name with
    | some e => exact .inr ⟨e, hq.join_stuck hname hnode hrefusal, hq'.join_stuck hname hnode' hrefusal⟩
    | none =>
      exact .inl ⟨_, _, hq.join hname hnode hrefusal hfound hlink,
        hq'.join hname hnode' hrefusal hfound' hlink', rfl, rfl⟩
  · exact .inr ⟨e, he.join hname, he'.join hname⟩

/-- The path of an entry leads to the nodes that its parts lead to, or fails
in both trees alike. -/
theorem Aligned.target_join (h : Aligned t t' (path.join name) node node')
    (hname : name.IsEntryName) :
    (t.target (path.join name) = .ok node ∧ t'.target (path.join name) = .ok node') ∨
      ∃ e, t.target (path.join name) = .error e ∧ t'.target (path.join name) = .error e := by
  obtain ⟨q, q', hq, hq', rfl, rfl⟩ | ⟨e, he, he'⟩ := h
  · rw [hq.target_join hname, hq'.target_join hname]
    cases refusal? (path.join name) with
    | some e => exact .inr ⟨e, rfl, rfl⟩
    | none => exact .inl ⟨rfl, rfl⟩
  · exact .inr ⟨_, he.target_join hname, he'.target_join hname⟩

/-- The path leads to `node` in one tree and to `node'` in the other, or
fails in both alike, and so does what goes on from it. -/
structure Alike (t t' : FileTree) (path : Path) (node node' : Node) : Prop where
  aligned : Aligned t t' path node node'
  target : (t.target path = .ok node ∧ t'.target path = .ok node') ∨
    ∃ e, t.target path = .error e ∧ t'.target path = .error e

theorem alike_of_target (h : t.target path = .ok node) (h' : t'.target path = .ok node') :
    Alike t t' path node node' :=
  ⟨aligned_of_target h h', .inl ⟨h, h'⟩⟩

theorem Alike.join
    (h : Alike t t' path (.directory permission entries) (.directory permission entries'))
    (hname : name.IsEntryName) (hfound : entries.lookup name = some child)
    (hfound' : entries'.lookup name = some child') (hlink : child.isLink = false)
    (hlink' : child'.isLink = false) : Alike t t' (path.join name) child child' := by
  have haligned := h.aligned.join hname hfound hfound' hlink hlink'
  exact ⟨haligned, haligned.target_join hname⟩

/-- Directories of the same permission can both be listed, or neither. -/
theorem Alike.list
    (h : Alike t t' path (.directory permission entries) (.directory permission entries')) :
    (t.list path = .ok entries ∧ t'.list path = .ok entries') ∨
      ∃ e, t.list path = .error e ∧ t'.list path = .error e := by
  obtain ⟨hnode, hnode'⟩ | ⟨e, he, he'⟩ := h.target
  · rw [list_of_target hnode, list_of_target hnode']
    cases permission.read with
    | true => exact .inl ⟨rfl, rfl⟩
    | false => exact .inr ⟨.permissionDenied, rfl, rfl⟩
  · rw [list_of_target_error he, list_of_target_error he']
    exact .inr ⟨e, rfl, rfl⟩

end CommentDensity.FileTree
