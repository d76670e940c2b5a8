import CommentDensity.Failure
import CommentDensity.Report.Line

/-!
# CommentDensity.Report.Sink

Where a report goes.

A `Sink` takes bytes, without limit or up to a capacity.  A line that does
not fit is written as far as it fits, and that is a failure.  `Report α` is
a computation that writes lines on its way to an `α` or a failure; nothing
is written after a failure.
-/

namespace CommentDensity

/-- What takes a report: the bytes it still has room for, if they are
limited, and what it has taken, the last first. -/
structure Sink where
  room : Option Nat
  taken : List Bytes
  deriving DecidableEq, Repr

namespace Sink

/-- A sink that takes everything. -/
def unlimited : Sink := ⟨none, []⟩

/-- A sink that takes `capacity` bytes. -/
def limited (capacity : Nat) : Sink := ⟨some capacity, []⟩

/-- The bytes taken, in order. -/
def bytes (s : Sink) : Bytes := s.taken.reverse.flatten

/-- Takes bytes as far as there is room, and says whether all had room. -/
def write (s : Sink) (bs : Bytes) : Bool × Sink :=
  match s.room with
  | none => (true, { s with taken := bs :: s.taken })
  | some room =>
    if bs.length ≤ room then (true, ⟨some (room - bs.length), bs :: s.taken⟩)
    else (false, ⟨some 0, bs.take room :: s.taken⟩)

@[simp] theorem bytes_unlimited : unlimited.bytes = [] := rfl

@[simp] theorem bytes_limited (n : Nat) : (limited n).bytes = [] := rfl

/-- What is written comes behind what was there, as far as there is room. -/
theorem bytes_write (s : Sink) (bs : Bytes) :
    (s.write bs).2.bytes = s.bytes ++ match s.room with
      | none => bs
      | some room => bs.take room := by
  unfold write
  split
  · simp [bytes]
  · split
    · next h => simp [bytes, List.take_of_length_le h]
    · simp [bytes]

end Sink

/-- A computation that writes a report and may fail. -/
abbrev Report (α : Type) := ExceptT Failure (StateM Sink) α

namespace Report

/-- Writes a line. -/
def line (l : Line) : Report Unit := fun sink =>
  let (done, sink) := sink.write l.bytes
  (if done then .ok () else .error .output, sink)

/-- Goes on with a result, or fails. -/
def ofExcept (r : Except Failure α) : Report α := ExceptT.mk (pure r)

/-- Goes on with the result of an operation on files; its failure is told as
`failure` says. -/
def require (failure : IoError → Failure) (r : Except IoError α) : Report α :=
  ofExcept (r.mapError failure)

/-- Tells every failure as part of a larger attempt. -/
def within (attempt : Failure → Failure) (r : Report α) : Report α :=
  ExceptT.mk do return (← r.run).mapError attempt

/-- The outcome and the bytes written, when the report goes to `sink`. -/
def writeTo (r : Report α) (sink : Sink) : Except Failure α × Bytes :=
  let (outcome, sink) := r sink
  (outcome, sink.bytes)

end Report

end CommentDensity
