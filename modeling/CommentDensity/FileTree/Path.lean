import CommentDensity.Bytes
import CommentDensity.Text.Split

/-!
# CommentDensity.FileTree.Path

Paths, as they are given: byte strings, kept and shown without any
normalization.

* `join` puts a name behind a path.
* `lastName?` is the name that a path is shown by: its last part, with `.`
  and trailing slashes left out.
* `steps` is what looking the path up does, part by part.
-/

namespace CommentDensity

/-- A path. -/
structure Path where
  bytes : Bytes
  deriving DecidableEq, Repr, Inhabited

namespace Path

/-- The byte between the parts of a path. -/
def slash : UInt8 := 47

/-- The byte that hidden names begin with. -/
def dot : UInt8 := 46

/-- The path a text spells. -/
def ofString (s : String) : Path := ⟨Bytes.ofString s⟩

/-- The path as text. -/
def display (p : Path) : String := p.bytes.lossy

/-- Whether the path starts at the root. -/
def isAbsolute (p : Path) : Bool := p.bytes.head? == some slash

/-- The path of `name` in the directory `p`.  There is one slash between
them at least; a name that is itself absolute stands alone. -/
def join (p : Path) (name : Bytes) : Path :=
  if name.head? = some slash then ⟨name⟩
  else if p.bytes = [] ∨ p.bytes.getLast? = some slash then ⟨p.bytes ++ name⟩
  else ⟨p.bytes ++ slash :: name⟩

/-- The parts between slashes that are not empty. -/
def parts (p : Path) : List Bytes := (split slash p.bytes).filter (· ≠ [])

/-- The last part that is not `.`, unless it is `..` or there is none. -/
def lastName? (p : Path) : Option Bytes :=
  match (p.parts.filter (· ≠ [dot])).getLast? with
  | some name => if name = [dot, dot] then none else some name
  | none => none

/-- The name a directory is shown by: its last name, or the whole path. -/
def shownName (p : Path) : Bytes := p.lastName?.getD p.bytes

/-! ## Looking a path up -/

/-- One step of looking a path up. -/
inductive Step where
  /-- To the entry of this name. -/
  | name (n : Bytes)
  /-- To the directory itself, for `.`. -/
  | here
  /-- To the directory above, for `..`. -/
  | up
  /-- Nowhere, but what is reached has to be a directory: a trailing slash. -/
  | directory
  deriving DecidableEq, Repr

/-- The step for one part. -/
def Step.ofPart (part : Bytes) : Step :=
  if part = [dot] then .here else if part = [dot, dot] then .up else .name part

/-- The steps of looking the path up. -/
def steps (p : Path) : List Step :=
  p.parts.map Step.ofPart ++
    if p.parts ≠ [] ∧ p.bytes.getLast? = some slash then [.directory] else []

end Path

namespace Bytes

/-- Whether a name is hidden: it begins with a dot. -/
def isHidden (name : Bytes) : Bool := name.head? == some Path.dot

/-- What an entry can be called. -/
structure IsEntryName (name : Bytes) : Prop where
  ne_nil : name ≠ []
  slash_notMem : Path.slash ∉ name
  ne_dot : name ≠ [Path.dot]
  ne_dotdot : name ≠ [Path.dot, Path.dot]

instance (name : Bytes) : Decidable name.IsEntryName :=
  decidable_of_iff
    (name ≠ [] ∧ Path.slash ∉ name ∧ name ≠ [Path.dot] ∧ name ≠ [Path.dot, Path.dot])
    ⟨fun ⟨h₁, h₂, h₃, h₄⟩ => ⟨h₁, h₂, h₃, h₄⟩, fun ⟨h₁, h₂, h₃, h₄⟩ => ⟨h₁, h₂, h₃, h₄⟩⟩

end Bytes

end CommentDensity
