import CommentDensity.Command.Option
import CommentDensity.Comment.Style
import CommentDensity.FileTree.Path

/-!
# CommentDensity.Command.Arguments

What a command line asks for.

A line is read word by word.  An option's value follows it as the next word
or is attached to it: `-d V`, `-dV`, `-d=V`, `--directory V`,
`--directory=V`.  A word that is not attached is a value only where one is
wanted and the word does not look like an option; a single dash does not.
There are no other words, and behind `--` there are none at all.

A value that is not attached is *settled* — checked and stored — when the
next known option or the end of the line is reached, and an attached one at
once.  So of two faults the one that is met first in this order counts: an
unknown word ends the reading before a value in front of it is looked at.
-/

namespace CommentDensity.Command

/-- What a command line asks for. -/
structure Arguments where
  directory : Path
  extension : Option String
  exclude : String
  style : Style
  label : Option String
  config : Option Path
  sumDirectories : Bool
  skipHidden : Bool
  tree : Bool
  deriving DecidableEq, Repr

/-- Why a command line gives no arguments. -/
inductive Refusal where
  /-- The value of an option is missing. -/
  | missingValue (s : Setting)
  /-- A path is empty. -/
  | emptyPath (s : Setting)
  /-- A value should be text but is not UTF-8. -/
  | notUtf8 (s : Setting)
  /-- An option is given twice. -/
  | repeated (f : Flag)
  /-- A value is attached to an option that takes none. -/
  | unexpectedValue (f : Flag)
  /-- A word is neither an option nor wanted as a value. -/
  | unknown (word : Bytes)
  /-- The options are to be explained. -/
  | help
  /-- The version is to be told. -/
  | version
  deriving DecidableEq, Repr

namespace Arguments

/-- What an empty command line asks for. -/
def initial : Arguments where
  directory := .ofString "."
  extension := none
  exclude := ""
  style := default
  label := none
  config := none
  sumDirectories := false
  skipHidden := false
  tree := false

/-- The text of a value. -/
def textOf (s : Setting) (value : Bytes) : Except Refusal String :=
  match value.text? with
  | some text => .ok text
  | none => .error (.notUtf8 s)

/-- The path of a value. -/
def pathOf (s : Setting) (value : Bytes) : Except Refusal Path :=
  if value = [] then .error (.emptyPath s) else .ok ⟨value⟩

/-- Stores the value of an option. -/
def set (a : Arguments) (s : Setting) (value : Bytes) : Except Refusal Arguments :=
  match s with
  | .directory => (pathOf s value).map fun p => { a with directory := p }
  | .config => (pathOf s value).map fun p => { a with config := some p }
  | .extension => (textOf s value).map fun t => { a with extension := some t }
  | .exclude => (textOf s value).map fun t => { a with exclude := t }
  | .style => (textOf s value).map fun t => { a with style := .ofSelector t }
  | .label => (textOf s value).map fun t => { a with label := some t }

/-- Turns a switch on. -/
def turnOn (a : Arguments) : Switch → Arguments
  | .sumDirectories => { a with sumDirectories := true }
  | .skipHidden => { a with skipHidden := true }
  | .tree => { a with tree := true }

end Arguments

/-! ## Words -/

/-- The byte that options begin with. -/
def dash : UInt8 := 45

/-- The byte in front of an attached value. -/
def equals : UInt8 := 61

/-- What a word looks like. -/
inductive Word where
  /-- Two dashes and a name, perhaps with a value. -/
  | long (name : Bytes) (value : Option Bytes)
  /-- A dash and a letter, with what follows it. -/
  | short (letter : UInt8) (rest : Bytes)
  /-- No option. -/
  | plain
  deriving DecidableEq, Repr

/-- What a word looks like; `--` alone is the long form of an empty name. -/
def Word.ofBytes : Bytes → Word
  | [] => .plain
  | [_] => .plain
  | a :: b :: rest =>
    if a ≠ dash then .plain
    else if b = dash then
      let (name, value) := rest.span (· ≠ equals)
      .long name (if value = [] then none else some value.tail)
    else .short b rest

/-- The value that is attached to a letter, with or without `=`. -/
def attached? (rest : Bytes) : Option Bytes :=
  match rest with
  | [] => none
  | b :: bs => if b = equals then some bs else some (b :: bs)

/-! ## Reading a line -/

/-- A line that is being read. -/
structure Reading where
  /-- What it asks for so far. -/
  given : Arguments
  /-- The options that are settled. -/
  seen : List Flag
  /-- The option that is not settled yet, with its value if it has come. -/
  pending : Option (Setting × Option Bytes)
  deriving DecidableEq, Repr

namespace Reading

/-- The beginning of a line. -/
def start : Reading := ⟨.initial, [], none⟩

/-- Notes that an option has been given. -/
def note (r : Reading) (f : Flag) : Except Refusal Reading :=
  if r.seen.contains f then .error (.repeated f) else .ok { r with seen := f :: r.seen }

/-- Settles the option that is pending. -/
def settle (r : Reading) : Except Refusal Reading :=
  match r.pending with
  | none => .ok r
  | some (s, none) => .error (.missingValue s)
  | some (s, some value) => do
    let r ← r.note (.setting s)
    return { r with given := ← r.given.set s value, pending := none }

/-- Reads an option. -/
def flag (r : Reading) (f : Flag) (value : Option Bytes) : Except Refusal Reading :=
  match f, value with
  | .setting s, none => do return { ← r.settle with pending := some (s, none) }
  | .setting s, some v => do settle { ← r.settle with pending := some (s, some v) }
  | f, some _ => .error (.unexpectedValue f)
  | .switch s, none => do
    let r ← (← r.settle).note f
    return { r with given := r.given.turnOn s }
  | .help, none => do
    let _ ← r.settle
    .error .help
  | .version, none => do
    let _ ← r.settle
    .error .version

/-- Reads a word. -/
def word (r : Reading) (w : Bytes) : Except Refusal Reading :=
  match Word.ofBytes w with
  | .long name value =>
    match Flag.ofLong? name with
    | some f => r.flag f value
    | none => .error (.unknown w)
  | .short letter rest =>
    match Flag.ofShort? letter with
    | some (.setting s) => r.flag (.setting s) (attached? rest)
    | some f => r.flag f none
    | none => .error (.unknown w)
  | .plain =>
    match r.pending with
    | some (s, none) => .ok { r with pending := some (s, some w) }
    | _ => .error (.unknown w)

/-- Reads the words up to the end of the line. -/
def words : Reading → List Bytes → Except Refusal Reading
  | r, [] => r.settle
  | r, w :: ws =>
    if w = [dash, dash] then
      match ws with
      | [] => r.settle
      | extra :: _ => .error (.unknown extra)
    else do (← r.word w).words ws

end Reading

/-- The arguments that the words of a command line give. -/
def Arguments.parse (words : List Bytes) : Except Refusal Arguments := do
  return (← Reading.start.words words).given

end CommentDensity.Command
