import CommentDensity.Bytes

/-!
# CommentDensity.Command.Option

The options of the command line and how they are spelled.

| | long | short |
|---|---|---|
| where to look | `--directory` | `-d` |
| what to count | `--extension` | `-e` |
| what not to count | `--exclude` | `-x` |
| which comments | `--style` | `-s` |
| name of the summary | `--label` | `-l` |
| job file | `--config` | `-c` |
| sum the files of a directory | `--sum-dirs` | |
| leave out hidden names | `--skip-hidden` | |
| show the files | `--tree` | |
| explain the options | `--help` | `-h` |
| tell the version | `--version` | `-V` |

The first six take a value.
-/

namespace CommentDensity.Command

/-- An option that takes a value. -/
inductive Setting where
  | directory
  | extension
  | exclude
  | style
  | label
  | config
  deriving DecidableEq, Repr

/-- An option that is on or off. -/
inductive Switch where
  | sumDirectories
  | skipHidden
  | tree
  deriving DecidableEq, Repr

/-- An option. -/
inductive Flag where
  | setting (s : Setting)
  | switch (s : Switch)
  | help
  | version
  deriving DecidableEq, Repr

namespace Flag

/-- All options. -/
def all : List Flag :=
  [.setting .directory, .setting .extension, .setting .exclude, .setting .style,
    .setting .label, .setting .config, .switch .sumDirectories, .switch .skipHidden,
    .switch .tree, .help, .version]

/-- The name behind two dashes. -/
def long : Flag → String
  | .setting .directory => "directory"
  | .setting .extension => "extension"
  | .setting .exclude => "exclude"
  | .setting .style => "style"
  | .setting .label => "label"
  | .setting .config => "config"
  | .switch .sumDirectories => "sum-dirs"
  | .switch .skipHidden => "skip-hidden"
  | .switch .tree => "tree"
  | .help => "help"
  | .version => "version"

/-- The letter behind one dash. -/
def short : Flag → Option Char
  | .setting .directory => some 'd'
  | .setting .extension => some 'e'
  | .setting .exclude => some 'x'
  | .setting .style => some 's'
  | .setting .label => some 'l'
  | .setting .config => some 'c'
  | .switch _ => none
  | .help => some 'h'
  | .version => some 'V'

/-- The option of a name. -/
def ofLong? (name : Bytes) : Option Flag := all.find? fun f => Bytes.ofString f.long == name

/-- The option of a letter. -/
def ofShort? (letter : UInt8) : Option Flag :=
  all.find? fun f => f.short.any fun c => c.toUInt8 == letter

/-- The list is complete. -/
theorem mem_all (f : Flag) : f ∈ all := by
  cases f with
  | setting s => cases s <;> decide
  | switch s => cases s <;> decide
  | help => decide
  | version => decide

/-- No two options share a name. -/
@[simp] theorem ofLong?_long (f : Flag) : ofLong? (Bytes.ofString f.long) = some f := by
  cases f with
  | setting s => cases s <;> decide +kernel
  | switch s => cases s <;> decide +kernel
  | help => decide +kernel
  | version => decide +kernel

end Flag

end CommentDensity.Command
