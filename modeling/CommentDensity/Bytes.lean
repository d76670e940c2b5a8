/-!
# CommentDensity.Bytes

Byte strings.  File and directory names are byte strings that need not be
text, so names and paths are compared and cut as bytes, and become text
only where they are shown.

`lossy` is how a byte string is shown: every well-formed UTF-8 sequence is
its character, and every *maximal ill-formed front* — the longest run of
bytes that starts a sequence and cannot be continued — becomes one
`U+FFFD`.  The decoder is a machine with one step per byte, so that the
text of a concatenation is a run over the first part and then the second.
-/

namespace CommentDensity

/-- A byte string: a name, a path, or the text of an argument. -/
abbrev Bytes := List UInt8

namespace Bytes

/-- The UTF-8 bytes of a text. -/
def ofString (s : String) : Bytes := s.toUTF8.data.toList

/-- The text that a byte string spells, if it is well-formed UTF-8. -/
def text? (bs : Bytes) : Option String := String.fromUTF8? ⟨bs.toArray⟩

/-! ## Showing byte strings -/

/-- Where the decoder stands between two bytes: between characters, or
inside one, with the bits read so far, the number of bytes still owed and
the range the next byte must lie in. -/
inductive Decoder where
  | between
  | inside (bits owed : Nat) (low high : UInt8)
  deriving DecidableEq, Repr

/-- What stands for bytes that spell no character. -/
def replacement : Char := '\uFFFD'

/-- The first byte of a character.  The ranges for the second byte leave
out longer spellings than needed, surrogates, and numbers past the last
character. -/
def Decoder.first (b : UInt8) : List Char × Decoder :=
  if b < 0x80 then ([Char.ofNat b.toNat], .between)
  else if 0xC2 ≤ b && b ≤ 0xDF then ([], .inside (b.toNat - 0xC0) 1 0x80 0xBF)
  else if b == 0xE0 then ([], .inside 0 2 0xA0 0xBF)
  else if b == 0xED then ([], .inside 0xD 2 0x80 0x9F)
  else if 0xE1 ≤ b && b ≤ 0xEF then ([], .inside (b.toNat - 0xE0) 2 0x80 0xBF)
  else if b == 0xF0 then ([], .inside 0 3 0x90 0xBF)
  else if 0xF1 ≤ b && b ≤ 0xF3 then ([], .inside (b.toNat - 0xF0) 3 0x80 0xBF)
  else if b == 0xF4 then ([], .inside 4 3 0x80 0x8F)
  else ([replacement], .between)

/-- One byte: the characters it completes, and where the decoder stands
after it.  A byte that cannot continue the open character closes it as
ill-formed and is then read as a first byte. -/
def Decoder.step : Decoder → UInt8 → List Char × Decoder
  | .between, b => first b
  | .inside bits owed low high, b =>
    if low ≤ b && b ≤ high then
      let bits := bits * 64 + (b.toNat - 0x80)
      if owed ≤ 1 then ([Char.ofNat bits], .between)
      else ([], .inside bits (owed - 1) 0x80 0xBF)
    else
      let (cs, d) := first b
      (replacement :: cs, d)

/-- The characters at the end of a byte string: a character that is still
open is ill-formed. -/
def Decoder.finish : Decoder → List Char
  | .between => []
  | .inside .. => [replacement]

/-- The characters of a byte string that the decoder reads behind those in
`before`, the last of them first. -/
def Decoder.run : Decoder → (before : List Char) → Bytes → List Char
  | d, before, [] => before.reverse ++ d.finish
  | d, before, b :: bs =>
    let (cs, d) := d.step b
    d.run (cs.reverse ++ before) bs

/-- A byte string as it is shown. -/
def lossy (bs : Bytes) : String := String.ofList (Decoder.between.run [] bs)

@[simp] theorem lossy_nil : lossy [] = "" := rfl

end Bytes

end CommentDensity
