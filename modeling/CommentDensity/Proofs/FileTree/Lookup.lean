import CommentDensity.Proofs.FileTree.WellFormed
import CommentDensity.Proofs.Text.Split

/-!
# CommentDensity.Proofs.FileTree.Lookup

Looking up what is in a directory.

The path of an entry is looked up like the path of its directory, and then
by one step more (`walk_append`, `steps_join`).  So a path that leads to a
directory and one of its entries' names lead to that entry, unless the
look-up fails (`target_join`): a directory that is met in a listing is the
one that its path leads to (`target_of_list_join`).  Where the entry is no link,
it makes no difference whether the last link is followed (`entry_join`); the
path to a link's name names the link (`entry_join_of_link`).
-/

namespace CommentDensity

/-! ## The steps of an entry's path -/

namespace Path

variable {p : Path} {name : Bytes}

theorem head?_ne_slash (h : name.IsEntryName) : name.head? ≠ some slash :=
  fun hs => h.slash_notMem (List.mem_of_mem_head? hs)

theorem bytes_join (h : name.IsEntryName) :
    (p.join name).bytes =
      if p.bytes = [] ∨ p.bytes.getLast? = some slash then p.bytes ++ name
      else p.bytes ++ slash :: name := by
  rw [join, if_neg (head?_ne_slash h)]
  split <;> rfl

theorem parts_join (p : Path) (h : name.IsEntryName) : (p.join name).parts = p.parts ++ [name] := by
  have hname : (split slash name).filter (· ≠ []) = [name] := by
    simp [split_of_notMem h.slash_notMem, h.ne_nil]
  rw [parts, parts, bytes_join h]
  split
  · next hb =>
    obtain hb | hb := hb
    · rw [hb, List.nil_append, hname]
      rfl
    · -- a slash at the end only adds an empty part
      obtain ⟨front, hfront⟩ := List.getLast?_eq_some_iff.mp hb
      rw [hfront, List.append_assoc, List.singleton_append, split_append_cons, split_append_cons,
        List.filter_append, List.filter_append, hname]
      simp
  · rw [split_append_cons, List.filter_append, hname]

theorem getLast?_join_ne_slash (p : Path) (h : name.IsEntryName) :
    (p.join name).bytes.getLast? ≠ some slash := by
  have hlast : name.getLast? ≠ some slash := fun hs => h.slash_notMem (List.mem_of_getLast? hs)
  obtain ⟨c, hc⟩ : ∃ c, name.getLast? = some c :=
    Option.isSome_iff_exists.mp (by simpa using h.ne_nil)
  rw [bytes_join h]
  split
  · rw [List.getLast?_append, hc, Option.some_or, ← hc]
    exact hlast
  · rw [List.getLast?_append, List.getLast?_cons, hc, Option.getD_some, Option.some_or, ← hc]
    exact hlast

theorem ofPart_entryName (h : name.IsEntryName) : Step.ofPart name = .name name := by
  rw [Step.ofPart, if_neg h.ne_dot, if_neg h.ne_dotdot]

/-- The path of an entry takes one step more than that of its directory, a
slash at whose end no longer matters. -/
theorem steps_join (p : Path) (h : name.IsEntryName) :
    (p.join name).steps = p.parts.map Step.ofPart ++ [.name name] := by
  rw [steps, parts_join p h, if_neg fun hs => getLast?_join_ne_slash p h hs.2, List.map_append,
    List.map_singleton, ofPart_entryName h, List.append_nil]

theorem isAbsolute_join (p : Path) (h : name.IsEntryName) :
    (p.join name).isAbsolute = p.isAbsolute := by
  have hname := head?_ne_slash h
  rw [isAbsolute, isAbsolute, bytes_join h]
  cases hb : p.bytes with
  | nil => simpa using hname
  | cons b bs => split <;> rfl

end Path

/-! ## Single steps -/

namespace FileTree

variable {how : Lookup} {p q : Place}

theorem meet_directory (how : Lookup) (p : Place) :
    meet how p .directory = .ok (.place p) ∨ meet how p .directory = .error .notADirectory := by
  unfold meet
  cases p.node with
  | directory permission entries => exact .inl rfl
  | file permission content => exact .inr rfl
  | link target => exact .inr rfl

/-- The step to an entry that is no link leads to that entry or fails. -/
theorem meet_name {permission : Permission} {entries : List (Bytes × Node)} {name : Bytes}
    {child : Node} (hnode : p.node = .directory permission entries)
    (hfound : entries.lookup name = some child) (hlink : child.isLink = false) :
    meet how p (.name name) = .ok (.place (p.enter name child)) ∨
      ∃ e, meet how p (.name name) = .error e := by
  unfold meet
  rw [hnode]
  dsimp only
  split
  · exact .inr ⟨_, rfl⟩
  · rw [hfound]
    split
    · exact .inr ⟨_, rfl⟩
    · cases child with
      | link target => simp [Node.isLink] at hlink
      | file filePermission content => exact .inl rfl
      | directory childPermission inside => exact .inl rfl

/-- The step to a link meets the link or fails. -/
theorem meet_name_link {permission : Permission} {entries : List (Bytes × Node)} {name : Bytes}
    {link : Path} (hnode : p.node = .directory permission entries)
    (hfound : entries.lookup name = some (.link link)) :
    meet how p (.name name) = .ok (.link name link) ∨ ∃ e, meet how p (.name name) = .error e := by
  unfold meet
  rw [hnode]
  dsimp only
  split
  · exact .inr ⟨_, rfl⟩
  · rw [hfound]
    split
    · exact .inr ⟨_, rfl⟩
    · exact .inl rfl

/-! ## Look-ups, one step more -/

/-- Up to a link that has to be followed, more steps are taken from where
the first ones lead.  A link that more steps come behind has to be followed,
whether or not one at the last step would be. -/
theorem walkSteps_append (privileged : Bool) (p : Place) (steps : List Path.Step) :
    (∃ q, ∀ followLast onLink more, followLast = true ∨ more ≠ [] →
      walkSteps ⟨followLast, privileged⟩ onLink p (steps ++ more) =
        walkSteps ⟨followLast, privileged⟩ onLink q more) ∨
      (∃ e, ∀ followLast onLink more, followLast = true ∨ more ≠ [] →
        walkSteps ⟨followLast, privileged⟩ onLink p (steps ++ more) = .error e) ∨
      ∃ q target rest, ∀ followLast onLink more, followLast = true ∨ more ≠ [] →
        walkSteps ⟨followLast, privileged⟩ onLink p (steps ++ more) =
          onLink q target (rest ++ more) := by
  induction steps generalizing p with
  | nil => exact .inl ⟨p, fun _ _ more _ => rfl⟩
  | cons step steps ih =>
    have hsame : ∀ followLast,
        meet ⟨followLast, privileged⟩ p step = meet ⟨true, privileged⟩ p step := fun _ => rfl
    simp only [List.cons_append, walkSteps, hsame]
    cases meet ⟨true, privileged⟩ p step with
    | error e => exact .inr (.inl ⟨e, fun _ _ _ _ => rfl⟩)
    | ok met =>
      cases met with
      | place q => exact ih q
      | link name target =>
        refine .inr (.inr ⟨p, target, steps, fun followLast onLink more hmore => ?_⟩)
        have hfollow : ((steps ++ more).isEmpty && !followLast) = false := by
          obtain rfl | hne := hmore
          · simp
          · simp [hne]
        simp only [hfollow, Bool.false_eq_true, if_false]

/-- More steps are taken from where the first ones lead, with the links that
are left then. -/
theorem walk_append (privileged : Bool) (links : Nat) (p : Place) (steps : List Path.Step) :
    (∃ left q, ∀ followLast more, followLast = true ∨ more ≠ [] →
      walk ⟨followLast, privileged⟩ links p (steps ++ more) =
        walk ⟨followLast, privileged⟩ left q more) ∨
      ∃ e, ∀ followLast more, followLast = true ∨ more ≠ [] →
        walk ⟨followLast, privileged⟩ links p (steps ++ more) = .error e := by
  induction links generalizing p steps with
  | zero =>
    obtain ⟨q, hq⟩ | ⟨e, he⟩ | ⟨q, target, rest, hq⟩ := walkSteps_append privileged p steps
    · exact .inl ⟨0, q, fun followLast more hmore => hq followLast _ more hmore⟩
    · exact .inr ⟨e, fun followLast more hmore => he followLast _ more hmore⟩
    · exact .inr ⟨.tooManyLinks, fun followLast more hmore => hq followLast _ more hmore⟩
  | succ links ih =>
    obtain ⟨q, hq⟩ | ⟨e, he⟩ | ⟨q, target, rest, hq⟩ := walkSteps_append privileged p steps
    · exact .inl ⟨links + 1, q, fun followLast more hmore => hq followLast _ more hmore⟩
    · exact .inr ⟨e, fun followLast more hmore => he followLast _ more hmore⟩
    · -- the steps of the target come before those that are left
      have hq : ∀ followLast more, followLast = true ∨ more ≠ [] →
          walk ⟨followLast, privileged⟩ (links + 1) p (steps ++ more) =
            walk ⟨followLast, privileged⟩ links (if target.isAbsolute then q.root else q)
              (target.steps ++ rest ++ more) := by
        intro followLast more hmore
        rw [List.append_assoc]
        exact hq followLast _ more hmore
      obtain ⟨left, q', hq'⟩ | ⟨e, he⟩ :=
        ih (if target.isAbsolute then q.root else q) (target.steps ++ rest)
      · exact .inl ⟨left, q', fun followLast more hmore =>
          (hq followLast more hmore).trans (hq' followLast more hmore)⟩
      · exact .inr ⟨e, fun followLast more hmore =>
          (hq followLast more hmore).trans (he followLast more hmore)⟩

theorem walk_nil (how : Lookup) (links : Nat) (p : Place) : walk how links p [] = .ok p := by
  cases links <;> rfl

/-- A single step that meets no link is the whole look-up. -/
theorem meet_of_walk_singleton {links : Nat} {step : Path.Step}
    (hmeet : ∀ name target, meet how p step ≠ .ok (.link name target))
    (h : walk how links p [step] = .ok q) : meet how p step = .ok (.place q) := by
  cases links <;>
    (simp only [walk, walkSteps] at h
     split at h
     · cases h
     · next hq => cases h; exact hq
     · next hq => exact absurd hq (hmeet _ _))

/-- A slash at the end leads nowhere else. -/
theorem eq_of_walk_directory {links : Nat} (h : walk how links p [.directory] = .ok q) : q = p := by
  have hdir := meet_directory how p
  have hmeet := meet_of_walk_singleton (by rcases hdir with h | h <;> simp [h]) h
  obtain hdir | hdir := hdir
  · rw [hdir] at hmeet
    cases hmeet
    rfl
  · rw [hdir] at hmeet
    cases hmeet

/-! ## Look-ups of paths -/

variable {t : FileTree} {path : Path} {name : Bytes}

/-- A path that can be looked up at all is looked up along its steps. -/
theorem locate_eq_ok :
    t.locate how path = .ok q ↔
      (0 ∉ path.bytes ∧ path.bytes ≠ [] ∧ path.bytes.length ≤ maxPath) ∧
        walk how maxLinks (if path.isAbsolute then ⟨t.root, []⟩ else t.here) path.steps =
          .ok q := by
  simp only [locate, List.contains_iff_mem, List.isEmpty_iff]
  split
  · next h => simp [h]
  · next h =>
    split
    · next h' => simp [h']
    · next h' =>
      split
      · next h'' => simp [Nat.not_le.mpr h'']
      · next h'' => simp [h, h', Nat.not_lt.mp h'']

/-- Where a path leads, its parts lead, a slash at its end left out. -/
theorem walk_parts {privileged : Bool} {links : Nat}
    (h : walk ⟨true, privileged⟩ links p path.steps = .ok q) :
    ∃ left, ∀ followLast more, followLast = true ∨ more ≠ [] →
      walk ⟨followLast, privileged⟩ links p (path.parts.map Path.Step.ofPart ++ more) =
        walk ⟨followLast, privileged⟩ left q more := by
  rw [Path.steps] at h
  obtain ⟨left, r, hr⟩ | ⟨e, he⟩ :=
    walk_append privileged links p (path.parts.map Path.Step.ofPart)
  · have hrest := (hr true _ (.inl rfl)).symm.trans h
    have hqr : q = r := by
      split at hrest
      · exact eq_of_walk_directory hrest
      · rw [walk_nil] at hrest
        cases hrest
        rfl
    exact ⟨left, hqr ▸ hr⟩
  · cases (he true _ (.inl rfl)).symm.trans h

/-- The entry `name` of a directory is looked up from where the path of the
directory leads, if the longer path can be looked up at all; this is so
whether or not the entry would be followed if it is a link. -/
theorem locate_join {privileged : Bool} (hname : name.IsEntryName)
    (h : t.locate ⟨true, privileged⟩ path = .ok q) :
    (∃ left, ∀ followLast, t.locate ⟨followLast, privileged⟩ (path.join name) =
      walk ⟨followLast, privileged⟩ left q [.name name]) ∨
      ∃ e, ∀ followLast, t.locate ⟨followLast, privileged⟩ (path.join name) = .error e := by
  obtain ⟨left, hleft⟩ := walk_parts (locate_eq_ok.mp h).2
  have hlast := fun followLast => hleft followLast [.name name] (.inr (by simp))
  simp only [locate, Path.isAbsolute_join path hname, Path.steps_join path hname, hlast]
  split
  · exact .inr ⟨_, fun _ => rfl⟩
  · split
    · exact .inr ⟨_, fun _ => rfl⟩
    · split
      · exact .inr ⟨_, fun _ => rfl⟩
      · exact .inl ⟨left, fun _ => rfl⟩

theorem target_eq_ok {node : Node} :
    t.target path = .ok node ↔ ∃ q, t.locate ⟨true, false⟩ path = .ok q ∧ q.node = node := by
  unfold target
  cases t.locate ⟨true, false⟩ path with
  | error e => simp [bind, Except.bind]
  | ok q => simp [bind, Except.bind, pure, Except.pure]

theorem entry_eq_ok {node : Node} :
    t.entry path = .ok node ↔ ∃ q, t.locate ⟨false, false⟩ path = .ok q ∧ q.node = node := by
  unfold entry
  cases t.locate ⟨false, false⟩ path with
  | error e => simp [bind, Except.bind]
  | ok q => simp [bind, Except.bind, pure, Except.pure]

/-- A path that leads to a directory, and the name of an entry that is no
link, lead to that entry, unless the look-up fails. -/
theorem target_join {permission : Permission} {entries : List (Bytes × Node)} {child node : Node}
    (hdir : t.target path = .ok (.directory permission entries)) (hname : name.IsEntryName)
    (hfound : entries.lookup name = some child) (hlink : child.isLink = false)
    (h : t.target (path.join name) = .ok node) : node = child := by
  obtain ⟨q, hq, hnode⟩ := target_eq_ok.mp hdir
  obtain ⟨r, hr, rfl⟩ := target_eq_ok.mp h
  obtain ⟨left, hleft⟩ | ⟨e, he⟩ := locate_join hname hq
  · have hname : meet ⟨true, false⟩ q (.name name) = .ok (.place (q.enter name child)) ∨
        ∃ e, meet ⟨true, false⟩ q (.name name) = .error e := meet_name hnode hfound hlink
    rw [hleft] at hr
    have hmeet := meet_of_walk_singleton (by rcases hname with h | ⟨e, h⟩ <;> simp [h]) hr
    obtain hname | ⟨e, hname⟩ := hname
    · rw [hname] at hmeet
      cases hmeet
      rfl
    · rw [hname] at hmeet
      cases hmeet
  · rw [he] at hr
    cases hr

/-- Such a path also names what it leads to. -/
theorem entry_join {permission : Permission} {entries : List (Bytes × Node)} {child : Node}
    (hdir : t.target path = .ok (.directory permission entries)) (hname : name.IsEntryName)
    (hfound : entries.lookup name = some child) (hlink : child.isLink = false) :
    t.entry (path.join name) = t.target (path.join name) := by
  obtain ⟨q, hq, hnode⟩ := target_eq_ok.mp hdir
  obtain ⟨left, hleft⟩ | ⟨e, he⟩ := locate_join hname hq
  · have hstep : ∀ followLast, walk ⟨followLast, false⟩ left q [.name name] =
        walk ⟨true, false⟩ left q [.name name] := by
      intro followLast
      have hsame : meet ⟨followLast, false⟩ q (.name name) =
          meet ⟨true, false⟩ q (.name name) := rfl
      obtain hmeet | ⟨e, hmeet⟩ :
          meet ⟨true, false⟩ q (.name name) = .ok (.place (q.enter name child)) ∨
            ∃ e, meet ⟨true, false⟩ q (.name name) = .error e := meet_name hnode hfound hlink
      · cases left <;> simp only [walk, walkSteps, hsame, hmeet]
      · cases left <;> simp only [walk, walkSteps, hsame, hmeet]
    rw [entry, target, hleft, hleft, hstep]
  · rw [entry, target, he, he]

/-- A path to the name of a link names the link, unless the look-up fails. -/
theorem entry_join_of_link {permission : Permission} {entries : List (Bytes × Node)} {link : Path}
    {node : Node} (hdir : t.target path = .ok (.directory permission entries))
    (hname : name.IsEntryName) (hfound : entries.lookup name = some (.link link))
    (h : t.entry (path.join name) = .ok node) : node = .link link := by
  obtain ⟨q, hq, hnode⟩ := target_eq_ok.mp hdir
  obtain ⟨r, hr, rfl⟩ := entry_eq_ok.mp h
  obtain ⟨left, hleft⟩ | ⟨e, he⟩ := locate_join hname hq
  · rw [hleft] at hr
    -- the look-up ends at the link, whatever links are left
    obtain hmeet | ⟨e, hmeet⟩ :
        meet ⟨false, false⟩ q (.name name) = .ok (.link name link) ∨
          ∃ e, meet ⟨false, false⟩ q (.name name) = .error e := meet_name_link hnode hfound
    · cases left <;>
        (simp only [walk, walkSteps, hmeet, List.isEmpty_nil, Bool.not_false, Bool.and_self,
           if_true, Except.ok.injEq] at hr
         rw [← hr]
         rfl)
    · cases left <;>
        (simp only [walk, walkSteps, hmeet] at hr
         cases hr)
  · rw [he] at hr
    cases hr

/-! ## Links at the last step -/

/-- Where the last link need not be followed and none is met there, following
it makes no difference. -/
theorem walkSteps_followLast {privileged : Bool}
    {onLink onLink' : Place → Path → List Path.Step → Except IoError Place}
    (hon : ∀ p target rest q, onLink p target rest = .ok q → q.node.isLink = false →
      onLink' p target rest = .ok q)
    (steps : List Path.Step) (h : walkSteps ⟨false, privileged⟩ onLink p steps = .ok q)
    (hlink : q.node.isLink = false) : walkSteps ⟨true, privileged⟩ onLink' p steps = .ok q := by
  induction steps generalizing p with
  | nil => exact h
  | cons step steps ih =>
    have hsame : meet ⟨true, privileged⟩ p step = meet ⟨false, privileged⟩ p step := rfl
    simp only [walkSteps] at h
    rw [walkSteps, hsame]
    split at h
    · cases h
    · exact ih h
    · split at h
      · cases h
        simp [Place.enter, Node.isLink] at hlink
      · simpa using hon _ _ _ _ h hlink

theorem walk_followLast {privileged : Bool} (links : Nat) (steps : List Path.Step)
    (h : walk ⟨false, privileged⟩ links p steps = .ok q) (hlink : q.node.isLink = false) :
    walk ⟨true, privileged⟩ links p steps = .ok q := by
  induction links generalizing p steps q with
  | zero => exact walkSteps_followLast (fun _ _ _ _ h => by cases h) steps h hlink
  | succ links ih => exact walkSteps_followLast (fun _ _ _ _ h hl => ih _ h hl) steps h hlink

/-- A path that names no link leads to what it names. -/
theorem target_of_entry {node : Node} (h : t.entry path = .ok node) (hlink : node.isLink = false) :
    t.target path = .ok node := by
  obtain ⟨q, hq, rfl⟩ := entry_eq_ok.mp h
  obtain ⟨hpath, hwalk⟩ := locate_eq_ok.mp hq
  exact target_eq_ok.mpr ⟨q, locate_eq_ok.mpr ⟨hpath, walk_followLast _ _ hwalk hlink⟩, rfl⟩

/-- Without following the last link a look-up goes as far. -/
theorem walkSteps_stopAtLink {privileged : Bool}
    {onLink onLink' : Place → Path → List Path.Step → Except IoError Place}
    (hon : ∀ p target rest q, onLink' p target rest = .ok q → ∃ r, onLink p target rest = .ok r)
    (steps : List Path.Step) (h : walkSteps ⟨true, privileged⟩ onLink' p steps = .ok q) :
    ∃ r, walkSteps ⟨false, privileged⟩ onLink p steps = .ok r := by
  induction steps generalizing p with
  | nil => exact ⟨p, rfl⟩
  | cons step steps ih =>
    have hsame : meet ⟨false, privileged⟩ p step = meet ⟨true, privileged⟩ p step := rfl
    simp only [walkSteps] at h
    rw [walkSteps, hsame]
    split at h
    · cases h
    · exact ih h
    · simp only [Bool.not_true, Bool.and_false, Bool.false_eq_true, if_false] at h
      split
      · exact ⟨_, rfl⟩
      · exact hon _ _ _ _ h

theorem walk_stopAtLink {privileged : Bool} (links : Nat) (steps : List Path.Step)
    (h : walk ⟨true, privileged⟩ links p steps = .ok q) :
    ∃ r, walk ⟨false, privileged⟩ links p steps = .ok r := by
  induction links generalizing p steps q with
  | zero => exact walkSteps_stopAtLink (fun _ _ _ _ h => by cases h) steps h
  | succ links ih => exact walkSteps_stopAtLink (fun _ _ _ _ h => ih _ h) steps h

/-- A path that leads somewhere names something. -/
theorem entry_of_target {node : Node} (h : t.target path = .ok node) :
    ∃ named, t.entry path = .ok named := by
  obtain ⟨q, hq, rfl⟩ := target_eq_ok.mp h
  obtain ⟨hpath, hwalk⟩ := locate_eq_ok.mp hq
  obtain ⟨r, hr⟩ := walk_stopAtLink _ _ hwalk
  exact ⟨r.node, entry_eq_ok.mpr ⟨r, locate_eq_ok.mpr ⟨hpath, hr⟩, rfl⟩⟩

/-! ## Listings -/

/-- A directory that is led to can be listed if it can be read. -/
theorem list_of_target {permission : Permission} {entries : List (Bytes × Node)}
    (h : t.target path = .ok (.directory permission entries)) :
    t.list path = if permission.read = true then .ok entries else .error .permissionDenied := by
  unfold list
  rw [h]
  rfl

theorem list_of_target_error {e : IoError} (h : t.target path = .error e) :
    t.list path = .error e := by
  unfold list
  rw [h]
  rfl

theorem list_eq_ok {entries : List (Bytes × Node)} :
    t.list path = .ok entries ↔
      ∃ permission, t.target path = .ok (.directory permission entries) ∧
        permission.read = true := by
  unfold list
  cases t.target path with
  | error e => simp [bind, Except.bind]
  | ok node =>
    cases node with
    | file permission content => simp [bind, Except.bind, throw, throwThe, MonadExceptOf.throw]
    | link target => simp [bind, Except.bind, throw, throwThe, MonadExceptOf.throw]
    | directory permission inside =>
      cases hread : permission.read with
      | false => simp [bind, Except.bind, throw, throwThe, MonadExceptOf.throw, hread]
      | true =>
        simp only [bind, Except.bind, pure, Except.pure, hread, if_true, Except.ok.injEq,
          Node.directory.injEq]
        constructor
        · rintro rfl
          exact ⟨permission, ⟨rfl, rfl⟩, hread⟩
        · rintro ⟨_, ⟨_, rfl⟩, _⟩
          rfl

theorem list_eq_of_target {permission : Permission} {entries listed : List (Bytes × Node)}
    (hlist : t.list path = .ok listed)
    (htarget : t.target path = .ok (.directory permission entries)) : listed = entries := by
  obtain ⟨_, hlisted, _⟩ := list_eq_ok.mp hlist
  rw [htarget] at hlisted
  cases hlisted
  rfl

/-- A listing has names of entries, and none twice. -/
theorem WellFormed.list (ht : t.WellFormed) {entries : List (Bytes × Node)}
    (h : t.list path = .ok entries) :
    (entries.map (·.1)).Nodup ∧ ∀ e ∈ entries, e.1.IsEntryName := by
  obtain ⟨permission, htarget, _⟩ := list_eq_ok.mp h
  have hwf := ht.target htarget
  exact ⟨hwf.nodup, fun e he => hwf.isEntryName he⟩

/-- A directory that is met in a listing and can be listed itself is the one
that its path leads to. -/
theorem target_of_list_join (ht : t.WellFormed) {entries inside listed : List (Bytes × Node)}
    {permission : Permission} (hlist : t.list path = .ok entries)
    (hmem : (name, .directory permission inside) ∈ entries)
    (h : t.list (path.join name) = .ok listed) :
    t.target (path.join name) = .ok (.directory permission inside) := by
  obtain ⟨_, hdir, _⟩ := list_eq_ok.mp hlist
  obtain ⟨listedPermission, htarget, _⟩ := list_eq_ok.mp h
  have hwf := ht.target hdir
  have hnode := target_join hdir (hwf.isEntryName hmem) (lookup_of_mem hwf.nodup hmem) rfl htarget
  rw [htarget, hnode]

end FileTree

end CommentDensity
