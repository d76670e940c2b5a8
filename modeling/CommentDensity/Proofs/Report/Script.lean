import CommentDensity.Proofs.Report.Outcome

/-!
# CommentDensity.Proofs.Report.Script

Reports whose lines are settled before the first one is written.

A `Script` holds lines, each with the failure that is told if it does not
fit, and the outcome behind the last one.  A report is *scripted* if playing
a script is all that it does.  What is built from scripted reports is
scripted, so what a sink does to a report need only be said of scripts:

* `Script.play_unlimited` — a sink without limit takes all lines, and the
  outcome is that of the script;
* `Scripted.isCut` — a sink of limited room does the same if the lines fit.
  Otherwise it takes the bytes it has room for, the outcome is a failure of
  the output, and no line is begun behind the one that did not fit.
-/

namespace CommentDensity

/-- Lines to be written, each with the failure that is told if it does not
fit, and what is had behind the last one. -/
structure Script (α : Type) where
  lines : List (Line × Failure)
  outcome : Except Failure α

namespace Script

variable {α β : Type}

/-- Writes lines in order, up to the first that does not fit. -/
def tell : List (Line × Failure) → Report Unit
  | [] => pure ()
  | (line, failure) :: rest => do
    (Report.line line).within fun _ => failure
    tell rest

/-- Does what the script says. -/
def play (p : Script α) : Report α := do
  tell p.lines
  Report.ofExcept p.outcome

/-- The bytes of each line. -/
def writes (lines : List (Line × Failure)) : List Bytes := lines.map fun l => l.1.bytes

/-- The script with every failure told as part of a larger attempt. -/
def within (attempt : Failure → Failure) (p : Script α) : Script α :=
  ⟨p.lines.map fun l => (l.1, attempt l.2), p.outcome.mapError attempt⟩

@[simp] theorem writes_nil : writes [] = [] := rfl

@[simp] theorem writes_cons (l : Line × Failure) (lines : List (Line × Failure)) :
    writes (l :: lines) = l.1.bytes :: writes lines := rfl

@[simp] theorem writes_append (lines more : List (Line × Failure)) :
    writes (lines ++ more) = writes lines ++ writes more := List.map_append

/-! ## Scripts one after another -/

theorem tell_append (lines more : List (Line × Failure)) :
    tell (lines ++ more) = (do tell lines; tell more) := by
  induction lines with
  | nil => simp [tell]
  | cons l lines ih => simp [tell, ih]

/-- A script that ends in a failure is all that is played. -/
theorem play_error_bind (lines : List (Line × Failure)) (e : Failure) (f : α → Report β) :
    play ⟨lines, .error e⟩ >>= f = play ⟨lines, .error e⟩ := by
  have hend : Report.ofExcept (.error e) >>= f = Report.ofExcept (.error e) := rfl
  simp [play, hend]

/-- What follows a script is told its value. -/
theorem play_ok_bind (lines : List (Line × Failure)) (a : α) (f : α → Report β) :
    play ⟨lines, .ok a⟩ >>= f = (do tell lines; f a) := by
  simp [play, Report.ofExcept_ok]

theorem tell_play (lines : List (Line × Failure)) (p : Script α) :
    (do tell lines; p.play) = play ⟨lines ++ p.lines, p.outcome⟩ := by
  simp [play, tell_append]

theorem play_ok_bind_pure (lines : List (Line × Failure)) (a : α) (g : α → β) :
    (do return g (← play ⟨lines, .ok a⟩)) = play ⟨lines, .ok (g a)⟩ := by
  simp [play, Report.ofExcept_ok]

/-- A line on its own fails as what it is: output. -/
theorem within_line (l : Line) :
    (Report.line l).within (fun _ => .output) = Report.line l := by
  funext sink
  rw [Report.within_apply, Report.line_apply]
  cases (sink.write l.bytes).1 <;> rfl

/-- Lines written in a loop. -/
theorem foldlM_line {γ : Type} (cs : List γ) (f : γ → Line) :
    cs.foldlM (fun _ c => Report.line (f c)) ⟨⟩ = tell (cs.map fun c => (f c, .output)) := by
  induction cs with
  | nil => rfl
  | cons c cs ih =>
    rw [List.foldlM_cons, List.map_cons, tell, within_line]
    exact bind_congr fun _ => ih

theorem within_tell (attempt : Failure → Failure) (lines : List (Line × Failure)) :
    tell (lines.map fun l => (l.1, attempt l.2)) = (tell lines).within attempt := by
  induction lines with
  | nil => rfl
  | cons l lines ih =>
    funext sink
    rw [List.map_cons, tell, tell, ih, Report.within_apply, Report.bind_apply, Report.bind_apply,
      Report.within_apply, Report.within_apply]
    rcases Report.line l.1 sink with ⟨_ | _, after⟩ <;> rfl

theorem play_within (attempt : Failure → Failure) (p : Script α) :
    (p.within attempt).play = p.play.within attempt := by
  funext sink
  rw [play, within, within_tell, Report.within_apply, play, Report.bind_apply, Report.bind_apply,
    Report.within_apply]
  rcases tell p.lines sink with ⟨_ | _, after⟩ <;> rfl

/-! ## What a sink does to a script -/

theorem tell_unlimited (lines : List (Line × Failure)) (taken : List Bytes) :
    tell lines ⟨none, taken⟩ = (.ok (), ⟨none, (writes lines).reverse ++ taken⟩) := by
  induction lines generalizing taken with
  | nil => rfl
  | cons l lines ih =>
    rw [tell, Report.bind_apply, Report.within_apply, Report.line_unlimited]
    exact (ih (l.1.bytes :: taken)).trans (by simp)

/-- A sink without limit takes all lines. -/
theorem play_unlimited (p : Script α) :
    p.play .unlimited = (p.outcome, ⟨none, (writes p.lines).reverse⟩) := by
  rw [play, Report.bind_apply, Sink.unlimited, tell_unlimited, List.append_nil]
  rfl

theorem writeTo_play_unlimited (p : Script α) :
    p.play.writeTo .unlimited = (p.outcome, (writes p.lines).flatten) := by
  rw [Report.writeTo, play_unlimited]
  simp [Sink.bytes]

/-- Lines that were written to the end stand behind what the sink had. -/
theorem bytes_of_tell_eq_ok (lines : List (Line × Failure)) {sink after : Sink}
    (h : tell lines sink = (.ok (), after)) :
    after.bytes = sink.bytes ++ (writes lines).flatten := by
  induction lines generalizing sink with
  | nil => cases h; simp
  | cons l lines ih =>
    obtain ⟨_, between, hline, hrest⟩ := Report.bind_eq_ok.mp h
    have hwritten : between.bytes = sink.bytes ++ l.1.bytes :=
      Report.bytes_of_line_eq_ok (Report.within_eq_ok.mp hline)
    rw [ih hrest, hwritten, writes_cons, List.flatten_cons, List.append_assoc]

/-- A script that succeeds on any sink has its own outcome, and all of its
lines are written. -/
theorem play_eq_ok {p : Script α} {a : α} {sink after : Sink} (h : p.play sink = (.ok a, after)) :
    p.outcome = .ok a ∧ after.bytes = sink.bytes ++ (writes p.lines).flatten := by
  obtain ⟨_, between, htell, hend⟩ := Report.bind_eq_ok.mp h
  cases houtcome : p.outcome with
  | error e => rw [houtcome] at hend; cases hend
  | ok b =>
    rw [houtcome] at hend
    cases hend
    exact ⟨rfl, bytes_of_tell_eq_ok p.lines htell⟩

theorem tell_of_fits (lines : List (Line × Failure)) {room : Nat} (taken : List Bytes)
    (h : (writes lines).flatten.length ≤ room) :
    tell lines ⟨some room, taken⟩ =
      (.ok (), ⟨some (room - (writes lines).flatten.length), (writes lines).reverse ++ taken⟩) := by
  induction lines generalizing room taken with
  | nil => rfl
  | cons l lines ih =>
    rw [writes_cons, List.flatten_cons, List.length_append] at h ⊢
    rw [tell, Report.bind_apply, Report.within_apply, Report.line_of_fits taken (by omega)]
    refine (ih (l.1.bytes :: taken) (by omega)).trans ?_
    rw [Nat.sub_sub]
    simp

/-- The first line that does not fit is written as far as it fits, and ends
the report. -/
theorem tell_of_over (before : List (Line × Failure)) (l : Line × Failure)
    (after : List (Line × Failure)) {room : Nat} (taken : List Bytes)
    (hfits : (writes before).flatten.length ≤ room)
    (hover : room < (writes before).flatten.length + l.1.bytes.length) :
    tell (before ++ l :: after) ⟨some room, taken⟩ =
      (.error l.2, ⟨some 0, l.1.bytes.take (room - (writes before).flatten.length) ::
        (writes before).reverse ++ taken⟩) := by
  have hline : room - (writes before).flatten.length < l.1.bytes.length := by omega
  rw [tell_append, Report.bind_apply, tell_of_fits before taken hfits]
  dsimp only
  rw [tell, Report.bind_apply, Report.within_apply, Report.line_of_over _ hline]
  rfl

theorem play_of_fits (p : Script α) {limit : Nat} (h : (writes p.lines).flatten.length ≤ limit) :
    p.play (.limited limit) = (p.outcome,
      ⟨some (limit - (writes p.lines).flatten.length), (writes p.lines).reverse⟩) := by
  rw [play, Report.bind_apply, Sink.limited, tell_of_fits p.lines [] h, List.append_nil]
  rfl

theorem play_of_over {p : Script α} {before after : List (Line × Failure)} {l : Line × Failure}
    (hlines : p.lines = before ++ l :: after) {limit : Nat}
    (hfits : (writes before).flatten.length ≤ limit)
    (hover : limit < (writes before).flatten.length + l.1.bytes.length) :
    p.play (.limited limit) = (.error l.2, ⟨some 0,
      l.1.bytes.take (limit - (writes before).flatten.length) :: (writes before).reverse⟩) := by
  rw [play, Report.bind_apply, Sink.limited, hlines, tell_of_over before l after [] hfits hover,
    List.append_nil]

/-- Lines that are too long together go over the limit inside one of them. -/
theorem exists_over (lines : List (Line × Failure)) {limit : Nat}
    (h : limit < (writes lines).flatten.length) :
    ∃ before l after, lines = before ++ l :: after ∧ (writes before).flatten.length ≤ limit ∧
      limit < (writes before).flatten.length + l.1.bytes.length := by
  induction lines generalizing limit with
  | nil => simp at h
  | cons l lines ih =>
    rw [writes_cons, List.flatten_cons, List.length_append] at h
    by_cases hfirst : limit < l.1.bytes.length
    · exact ⟨[], l, lines, rfl, Nat.zero_le _, by simpa using hfirst⟩
    · have hrest : limit - l.1.bytes.length < (writes lines).flatten.length := by omega
      obtain ⟨before, crossing, after, rfl, hfits, hover⟩ := ih hrest
      refine ⟨l :: before, crossing, after, rfl, ?_, ?_⟩
      · rw [writes_cons, List.flatten_cons, List.length_append]
        omega
      · rw [writes_cons, List.flatten_cons, List.length_append]
        omega

end Script

namespace Report

variable {α β γ : Type} {r : Report α} {full : Failure → Prop}

/-! ## Reports that are scripts -/

/-- The report plays a script, in which all failures of lines are `full`. -/
def Scripted (full : Failure → Prop) (r : Report α) : Prop :=
  ∃ p : Script α, r = p.play ∧ ∀ l ∈ p.lines, full l.2

theorem scripted_ofExcept (outcome : Except Failure α) : Scripted full (ofExcept outcome) :=
  ⟨⟨[], outcome⟩, rfl, fun l hl => by cases hl⟩

theorem scripted_require (failure : IoError → Failure) (found : Except IoError α) :
    Scripted full (require failure found) :=
  scripted_ofExcept _

theorem scripted_pure (a : α) : Scripted full (pure a) := scripted_ofExcept (.ok a)

theorem scripted_line (l : Line) (h : full .output) : Scripted full (line l) := by
  refine ⟨⟨[(l, .output)], .ok ()⟩, ?_, fun m hm => ?_⟩
  · simp [Script.play, Script.tell, Script.within_line, ofExcept_ok]
  · rw [List.mem_singleton.mp hm]
    exact h

theorem Scripted.bind {f : α → Report β} (hr : Scripted full r) (hf : ∀ a, Scripted full (f a)) :
    Scripted full (r >>= f) := by
  obtain ⟨⟨lines, outcome⟩, rfl, hp⟩ := hr
  cases outcome with
  | error e => exact ⟨⟨lines, .error e⟩, Script.play_error_bind lines e f, hp⟩
  | ok a =>
    obtain ⟨q, hq, hfull⟩ := hf a
    refine ⟨⟨lines ++ q.lines, q.outcome⟩, ?_, fun l hl => ?_⟩
    · rw [Script.play_ok_bind, hq, Script.tell_play]
    obtain hl | hl := List.mem_append.mp hl
    · exact hp l hl
    · exact hfull l hl

theorem Scripted.within {attempt : Failure → Failure} {full' : Failure → Prop}
    (hr : Scripted full r) (h : ∀ failure, full failure → full' (attempt failure)) :
    Scripted full' (r.within attempt) := by
  obtain ⟨p, rfl, hp⟩ := hr
  refine ⟨p.within attempt, (p.play_within attempt).symm, fun l hl => ?_⟩
  obtain ⟨m, hm, rfl⟩ := List.mem_map.mp hl
  exact h _ (hp m hm)

theorem scripted_mapM {f : γ → Report β} (cs : List γ) (hf : ∀ c, Scripted full (f c)) :
    Scripted full (cs.mapM f) := by
  induction cs with
  | nil => exact scripted_pure []
  | cons c cs ih =>
    rw [List.mapM_cons]
    exact (hf c).bind fun b => ih.bind fun bs => scripted_pure (b :: bs)

theorem scripted_forM {f : γ → Report Unit} (cs : List γ) (hf : ∀ c, Scripted full (f c)) :
    Scripted full (cs.forM f) := by
  induction cs with
  | nil => exact scripted_pure ()
  | cons c cs ih =>
    exact (hf c).bind fun _ => ih

/-! ## Sinks of limited room -/

/-- A sink that takes `limit` bytes cuts the report, and that is all it does.
It takes the first bytes of what an unlimited one takes.  If that is all of
them, the outcome is the same.  If not, the outcome is a failure, which is
`full`, and the line inside which the limit lies is the last one begun. -/
structure IsCut (full : Failure → Prop) (r : Report α) (limit : Nat) : Prop where
  bytes_eq : (r.writeTo (.limited limit)).2 = (r.writeTo .unlimited).2.take limit
  of_fits : (r.writeTo .unlimited).2.length ≤ limit →
    (r.writeTo (.limited limit)).1 = (r.writeTo .unlimited).1
  of_over : limit < (r.writeTo .unlimited).2.length →
    ∃ failure, (r.writeTo (.limited limit)).1 = .error failure ∧ failure.kind = .io ∧ full failure
  last_begun : limit < (r.writeTo .unlimited).2.length →
    ∃ before last after, (r .unlimited).2.taken.reverse = before ++ last :: after ∧
      before.flatten.length ≤ limit ∧ limit < before.flatten.length + last.length ∧
      (r (.limited limit)).2.taken.reverse =
        before ++ [last.take (limit - before.flatten.length)]

theorem Scripted.isCut (hr : Scripted full r) (hkind : ∀ failure, full failure → failure.kind = .io)
    (limit : Nat) : IsCut full r limit := by
  obtain ⟨p, rfl, hp⟩ := hr
  have hall : (p.play.writeTo .unlimited).1 = p.outcome ∧
      (p.play.writeTo .unlimited).2 = (Script.writes p.lines).flatten := by
    rw [p.writeTo_play_unlimited]
    exact ⟨rfl, rfl⟩
  by_cases hfits : (Script.writes p.lines).flatten.length ≤ limit
  · have hplay := p.play_of_fits hfits
    constructor
    · rw [hall.2, List.take_of_length_le hfits, writeTo, hplay]
      simp [Sink.bytes]
    · intro _
      rw [hall.1, writeTo, hplay]
    · intro hover
      rw [hall.2] at hover
      omega
    · intro hover
      rw [hall.2] at hover
      omega
  · obtain ⟨before, l, after, hlines, hbefore, hover⟩ :=
      Script.exists_over p.lines (Nat.not_le.mp hfits)
    have hplay := Script.play_of_over hlines hbefore hover
    have hmem : l ∈ p.lines := by simp [hlines]
    constructor
    · -- the bytes in front of the limit are those of the lines that fit and a piece of the next
      rw [hall.2, writeTo, hplay, hlines, Script.writes_append, Script.writes_cons,
        List.flatten_append, List.flatten_cons, List.take_append, List.take_of_length_le hbefore,
        List.take_append_of_le_length (by omega)]
      simp [Sink.bytes]
    · intro hle
      rw [hall.2] at hle
      exact absurd hle hfits
    · intro _
      rw [writeTo, hplay]
      exact ⟨l.2, rfl, hkind _ (hp l hmem), hp l hmem⟩
    · intro _
      refine ⟨Script.writes before, l.1.bytes, Script.writes after, ?_, hbefore, hover, ?_⟩
      · rw [p.play_unlimited, List.reverse_reverse, hlines, Script.writes_append,
          Script.writes_cons]
      · rw [hplay, List.reverse_cons, List.reverse_reverse]

end Report

end CommentDensity
