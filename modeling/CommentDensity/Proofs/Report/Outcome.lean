import CommentDensity.Report.Sink

/-!
# CommentDensity.Proofs.Report.Outcome

How a report that succeeds came about.

A report is a function from the sink before it to the outcome and the sink
after it.  `bind_eq_ok` takes a report that succeeds apart: its first part
succeeded, and the second part succeeded on the sink that the first one
left.
-/

namespace CommentDensity.Report

variable {α β : Type} {sink sink' : Sink}

/-- Reports one after another: the second is not reached behind a failure. -/
theorem bind_apply (r : Report α) (f : α → Report β) (sink : Sink) :
    (r >>= f) sink =
      match r sink with
      | (.ok a, sink) => f a sink
      | (.error e, sink) => (.error e, sink) := by
  show (ExceptT.bindCont f (r sink).1) (r sink).2 = _
  rcases r sink with ⟨_ | _, _⟩ <;> rfl

theorem ofExcept_ok (a : α) : ofExcept (.ok a) = pure a := rfl

theorem within_apply (attempt : Failure → Failure) (r : Report α) (sink : Sink) :
    r.within attempt sink = ((r sink).1.mapError attempt, (r sink).2) := rfl

/-- A success is told as it is. -/
theorem within_eq_ok {attempt : Failure → Failure} {r : Report α} {a : α} :
    r.within attempt sink = (.ok a, sink') ↔ r sink = (.ok a, sink') := by
  rw [within_apply]
  obtain ⟨outcome, after⟩ := r sink
  cases outcome with
  | error e => constructor <;> rintro ⟨⟩
  | ok b => rfl

theorem line_apply (l : Line) (sink : Sink) :
    line l sink =
      (if (sink.write l.bytes).1 then .ok () else .error .output, (sink.write l.bytes).2) := rfl

/-- A line without limit on the sink. -/
theorem line_unlimited (l : Line) (taken : List Bytes) :
    line l ⟨none, taken⟩ = (.ok (), ⟨none, l.bytes :: taken⟩) := rfl

theorem line_of_fits {l : Line} {room : Nat} (taken : List Bytes) (h : l.bytes.length ≤ room) :
    line l ⟨some room, taken⟩ = (.ok (), ⟨some (room - l.bytes.length), l.bytes :: taken⟩) := by
  simp [line, Sink.write, h]

theorem line_of_over {l : Line} {room : Nat} (taken : List Bytes) (h : room < l.bytes.length) :
    line l ⟨some room, taken⟩ = (.error .output, ⟨some 0, l.bytes.take room :: taken⟩) := by
  simp [line, Sink.write, Nat.not_le.mpr h]

/-- A line that was written stands behind what the sink had. -/
theorem bytes_of_line_eq_ok {l : Line} (h : line l sink = (.ok (), sink')) :
    sink'.bytes = sink.bytes ++ l.bytes := by
  rw [line_apply] at h
  obtain ⟨hdone, rfl⟩ := Prod.mk.inj h
  rw [Sink.bytes_write]
  cases hroom : sink.room with
  | none => rfl
  | some room =>
    by_cases hfits : l.bytes.length ≤ room
    · simp [List.take_of_length_le hfits]
    · simp [Sink.write, hroom, hfits] at hdone

theorem bind_eq_ok {r : Report α} {f : α → Report β} {b : β} :
    (r >>= f) sink = (.ok b, sink') ↔
      ∃ a between, r sink = (.ok a, between) ∧ f a between = (.ok b, sink') := by
  rw [bind_apply]
  constructor
  · intro h
    rcases hr : r sink with ⟨e | a, between⟩
    · rw [hr] at h
      cases h
    · rw [hr] at h
      exact ⟨a, between, rfl, h⟩
  · rintro ⟨a, between, hr, hf⟩
    rw [hr]
    exact hf

/-- What is required is had, and nothing is written for it. -/
theorem require_eq_ok {failure : IoError → Failure} {r : Except IoError α} {a : α} :
    require failure r sink = (.ok a, sink') ↔ r = .ok a ∧ sink' = sink := by
  cases r with
  | error e =>
    constructor
    · rintro ⟨⟩
    · rintro ⟨⟨⟩, _⟩
  | ok b =>
    constructor
    · rintro ⟨⟩
      exact ⟨rfl, rfl⟩
    · rintro ⟨⟨⟩, rfl⟩
      rfl

/-- What takes several operations is required in one. -/
theorem require_bind (failure : IoError → Failure) (r : Except IoError α)
    (f : α → Except IoError β) :
    require failure (r >>= f) = (do require failure (f (← require failure r))) := by
  cases r <;> rfl

/-- Nothing follows what could not be had. -/
theorem require_error_bind (failure : IoError → Failure) (e : IoError) (f : α → Report β) :
    require failure (.error e) >>= f = ofExcept (.error (failure e)) := rfl

theorem require_pure (failure : IoError → Failure) (a : α) :
    require failure (pure a) = pure a := rfl

/-- A report succeeds with what it has written. -/
theorem writeTo_eq_ok {r : Report α} {a : α} {out : Bytes} :
    r.writeTo sink = (.ok a, out) ↔ ∃ after, r sink = (.ok a, after) ∧ after.bytes = out := by
  unfold writeTo
  obtain ⟨outcome, after⟩ := r sink
  constructor
  · intro h
    obtain ⟨rfl, rfl⟩ := Prod.mk.inj h
    exact ⟨after, rfl, rfl⟩
  · rintro ⟨_, h, rfl⟩
    obtain ⟨rfl, rfl⟩ := Prod.mk.inj h
    rfl

end CommentDensity.Report
