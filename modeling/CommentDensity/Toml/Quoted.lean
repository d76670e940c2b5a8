import CommentDensity.Toml.Space

/-!
# CommentDensity.Toml.Quoted

Quoted strings, in their four forms.

| | one line | several lines |
|---|---|---|
| with escapes | `"…"` | `"""…"""` |
| as it stands | `'…'` | `'''…'''` |

A string of several lines leaves out a line end right behind its opening
quotes, and up to two more quotes may stand in front of its closing ones.
With escapes, a backslash at the end of a line takes away the line end and
all blank space up to the next other character.

A reader of the inside of a string takes one character at a time; `Mode` is
where it stands between two of them.  `quote` writes a string in the first
form.
-/

namespace CommentDensity.Toml

/-! ## Escapes -/

/-- The number that a hexadecimal digit stands for, in either case. -/
def hexDigit? (c : Char) : Option Nat :=
  if '0' ≤ c ∧ c ≤ '9' then some (c.toNat - '0'.toNat)
  else if 'a' ≤ c ∧ c ≤ 'f' then some (c.toNat - 'a'.toNat + 10)
  else if 'A' ≤ c ∧ c ≤ 'F' then some (c.toNat - 'A'.toNat + 10)
  else none

/-- The character with a number, unless it is a surrogate or too large. -/
def character? (n : Nat) : Option Char := if n.isValidChar then some (Char.ofNat n) else none

/-- What a backslash and a letter stand for. -/
inductive Escape where
  | character (c : Char)
  /-- The character whose number follows in so many digits. -/
  | number (digits : Nat)
  deriving DecidableEq, Repr

/-- The escapes. -/
def escape? : Char → Option Escape
  | '"' => some (.character '"')
  | '\\' => some (.character '\\')
  | 'b' => some (.character '\x08')
  | 't' => some (.character '\t')
  | 'n' => some (.character '\n')
  | 'f' => some (.character '\x0c')
  | 'r' => some (.character '\r')
  | 'e' => some (.character '\x1b')
  | 'x' => some (.number 2)
  | 'u' => some (.number 4)
  | 'U' => some (.number 8)
  | _ => none

/-! ## Reading -/

/-- How a string is quoted. -/
structure Form where
  /-- Whether a backslash escapes; then the quotes are double. -/
  escapes : Bool
  /-- Whether the string may span several lines; then the quotes are three. -/
  multiline : Bool
  deriving DecidableEq, Repr

/-- The character that quotes. -/
def Form.quote (form : Form) : Char := if form.escapes then '"' else '\''

/-- Where a reader stands inside a string. -/
inductive Mode where
  /-- Between characters. -/
  | plain
  /-- Behind a backslash. -/
  | escaped
  /-- In the number of a character: the value so far and the digits owed. -/
  | number (value owed : Nat)
  /-- In the space that a backslash takes away, behind its line end or
  still in front of it. -/
  | folded (behind : Bool)
  deriving DecidableEq, Repr

/-- What one character does. -/
inductive Move where
  /-- The reader goes on; the character may add one to the string. -/
  | on (added : Option Char) (mode : Mode)
  /-- The string ends, with so many quotes in front of the closing ones. -/
  | close (quotes : Nat) (rest : List Char)
  deriving DecidableEq, Repr

/-- Whether `c`, in front of `rest`, is a line end or the first half of one. -/
def endsLine (c : Char) (rest : List Char) : Bool :=
  c == '\n' || (c == '\r' && rest.head? == some '\n')

/-- A quote that the string may end with. -/
def Form.quoteMove (form : Form) (rest : List Char) : Move :=
  if !form.multiline then .close 0 rest
  else
    let more := (rest.takeWhile (· == form.quote)).length
    if more < 2 then .on form.quote .plain
    else .close (min (more - 2) 2) (rest.drop (2 + min (more - 2) 2))

/-- A character between characters. -/
def Form.plainMove (form : Form) (c : Char) (rest : List Char) : Option Move :=
  if c = form.quote then some (form.quoteMove rest)
  else if c = '\\' ∧ form.escapes then some (.on none .escaped)
  else if isPlain c ∨ (form.multiline ∧ endsLine c rest) then some (.on c .plain)
  else none

/-- One character inside a string. -/
def Form.move (form : Form) (c : Char) (rest : List Char) : Mode → Option Move
  | .plain => form.plainMove c rest
  | .escaped =>
    match escape? c with
    | some (.character e) => some (.on e .plain)
    | some (.number digits) => some (.on none (.number 0 digits))
    | none =>
      if !form.multiline then none
      else if isBlank c then some (.on none (.folded false))
      else if endsLine c rest then some (.on none (.folded (c == '\n')))
      else none
  | .number value owed => do
    let value := value * 16 + (← hexDigit? c)
    if owed ≤ 1 then return .on (← character? value) .plain
    else return .on none (.number value (owed - 1))
  | .folded behind =>
    if endsLine c rest then some (.on none (.folded (behind || c == '\n')))
    else if isBlank c then some (.on none (.folded behind))
    else if behind then form.plainMove c rest
    else none

/-- The rest of a string; `before` has the characters read, the last first. -/
def Form.rest (form : Form) : Mode → (before : List Char) → Reader String
  | _, _, [] => none
  | mode, before, c :: r =>
    match form.move c r mode with
    | none => none
    | some (.on added mode) => form.rest mode (added.toList ++ before) r
    | some (.close quotes r) =>
      some (String.ofList (before.reverse ++ List.replicate quotes form.quote), r)

/-- The text without a line end in front. -/
def trimLineEnd : List Char → List Char
  | '\n' :: r => r
  | '\r' :: '\n' :: r => r
  | cs => cs

/-- A string of one line. -/
def lineString? : Reader String
  | '"' :: r => Form.rest ⟨true, false⟩ .plain [] r
  | '\'' :: r => Form.rest ⟨false, false⟩ .plain [] r
  | _ => none

/-- A string of any form. -/
def string? : Reader String
  | '"' :: '"' :: '"' :: r => Form.rest ⟨true, true⟩ .plain [] (trimLineEnd r)
  | '\'' :: '\'' :: '\'' :: r => Form.rest ⟨false, true⟩ .plain [] (trimLineEnd r)
  | cs => lineString? cs

/-! ## Writing -/

/-- A character as it is written in double quotes. -/
def escaped (c : Char) : List Char :=
  if c = '"' then ['\\', '"']
  else if c = '\\' then ['\\', '\\']
  else if ' ' ≤ c ∧ c ≠ '\x7f' then [c]
  else ['\\', 'u', '0', '0', (c.toNat / 16).digitChar, (c.toNat % 16).digitChar]

/-- A string in double quotes, on one line. -/
def quote (s : String) : List Char := '"' :: s.toList.flatMap escaped ++ ['"']

/-! ## Lemmas -/

theorem hexDigit?_digitChar {d : Nat} (h : d < 16) : hexDigit? d.digitChar = some d := by
  have : ∀ d < 16, hexDigit? d.digitChar = some d := by decide
  exact this d h

theorem character?_toNat (c : Char) : character? c.toNat = some c := by
  have h : c.toNat.isValidChar := c.valid
  simp [character?, h, Char.ofNat_toNat]

/-- A plain character is taken into the string. -/
theorem rest_plain (form : Form) {c : Char} (hq : c ≠ form.quote) (hb : c ≠ '\\')
    (hp : isPlain c = true) (before r : List Char) :
    form.rest .plain before (c :: r) = form.rest .plain (c :: before) r := by
  have h : form.move c r .plain = some (.on c .plain) := by
    simp only [Form.move, Form.plainMove, if_neg hq, hb, false_and, if_false, hp, true_or, if_true]
  simp only [Form.rest, h, Option.toList_some, List.singleton_append]

/-- A backslash and a letter are taken for a character. -/
theorem rest_escape {c e : Char} (h : escape? c = some (.character e)) (before r : List Char) :
    Form.rest ⟨true, false⟩ .plain before ('\\' :: c :: r)
      = Form.rest ⟨true, false⟩ .plain (e :: before) r := by
  have h1 : Form.move ⟨true, false⟩ '\\' (c :: r) .plain = some (.on none .escaped) := rfl
  have h2 : Form.move ⟨true, false⟩ c r .escaped = some (.on e .plain) := by
    simp only [Form.move, h]
  simp only [Form.rest, h1, h2, Option.toList_none, Option.toList_some, List.nil_append,
    List.singleton_append]

/-- A digit of a number that goes on. -/
theorem rest_digit (form : Form) {c : Char} {d : Nat} (h : hexDigit? c = some d)
    (value owed : Nat) (before r : List Char) :
    form.rest (.number value (owed + 2)) before (c :: r)
      = form.rest (.number (value * 16 + d) (owed + 1)) before r := by
  have h1 : form.move c r (.number value (owed + 2))
      = some (.on none (.number (value * 16 + d) (owed + 1))) := by
    simp [Form.move, h]
  simp only [Form.rest, h1, Option.toList_none, List.nil_append]

/-- The last digit of a number. -/
theorem rest_lastDigit (form : Form) {c e : Char} {d value : Nat} (h : hexDigit? c = some d)
    (he : character? (value * 16 + d) = some e) (before r : List Char) :
    form.rest (.number value 1) before (c :: r) = form.rest .plain (e :: before) r := by
  have h1 : form.move c r (.number value 1) = some (.on e .plain) := by
    simp [Form.move, h, he]
  simp only [Form.rest, h1, Option.toList_some, List.singleton_append]

end CommentDensity.Toml
