import CommentDensity.Command.Run
import CommentDensity.Proofs.Survey.Itinerary

/-!
# CommentDensity.Proofs.Command.Capacity

What is left of a report when the output is full.

Every report of the library is scripted: a directory's, a walk's, a scan's,
and that of a whole run (`scripted_reportDirectory`, `scripted_traverse`,
`scripted_scan`, `scripted_run`).  So a sink of limited room cuts the bytes
that an unlimited one takes, wherever its limit lies, and changes nothing
else (`every_report_isCut`).
-/

namespace CommentDensity

variable {full : Failure → Prop}

theorem FileTree.scripted_reportDirectory (t : FileTree) (style : Style) (aggregation : Aggregation)
    (directory : Path) (files : List Bytes) (h : full .output) :
    (t.reportDirectory style aggregation directory files).Scripted full := by
  unfold reportDirectory
  split
  · exact (Report.scripted_line _ h).bind fun _ => Report.scripted_pure _
  · exact Report.scripted_pure _

namespace Survey

theorem scripted_perform (s : Survey) (t : FileTree) (v : Visit) (h : full .output) :
    (s.perform t v).Scripted full := by
  refine ⟨s.visitScript t v, perform_eq_play v, fun l hl => ?_⟩
  unfold visitScript at hl
  split at hl
  · obtain ⟨_, _, rfl⟩ := List.mem_map.mp hl
    exact h
  · cases hl

theorem scripted_traverse (s : Survey) (t : FileTree) (start : Path) (h : full .output) :
    (s.traverse t start).Scripted full := by
  rw [traverse_eq_mapM]
  exact (Report.scripted_require _ _).bind fun vs =>
    Report.scripted_mapM vs fun v => s.scripted_perform t v h

theorem scripted_scan (s : Survey) (t : FileTree) (start : Path) (h : full .output) :
    (s.scan t start).Scripted full :=
  (s.scripted_traverse t start h).bind fun _ => Report.scripted_pure _

end Survey

namespace Command

/-- A plan is that of some job file, but for its jobs. -/
theorem Arguments.plan_eq_ok {a : Arguments} {t : FileTree} {plan : Plan}
    (h : a.plan t = .ok plan) : ∃ file, plan = { Plan.ofJobFile a file with jobs := plan.jobs } := by
  rw [Arguments.plan] at h
  split at h
  · cases h
    exact ⟨_, rfl⟩
  · next path _ _ =>
    cases hload : JobFile.load t path with
    | error e => rw [hload] at h; cases h
    | ok file => rw [hload] at h; cases h; exact ⟨file, rfl⟩
  · cases h
    exact ⟨_, rfl⟩

/-- A plan stays with the directory of the command line. -/
theorem Arguments.directory_plan {a : Arguments} {t : FileTree} {plan : Plan}
    (h : a.plan t = .ok plan) : plan.directory = a.directory := by
  obtain ⟨file, hplan⟩ := plan_eq_ok h
  rw [hplan]
  rfl

/-- Whether a tree is shown, the command line alone says. -/
theorem Arguments.showTree_plan {a : Arguments} {t : FileTree} {plan : Plan}
    (h : a.plan t = .ok plan) : plan.showTree = a.tree := by
  obtain ⟨file, hplan⟩ := plan_eq_ok h
  rw [hplan]
  rfl

theorem Plan.scripted_runJob (plan : Plan) (t : FileTree) (job : Job) (hsummary : full .output)
    (hscan : full (.scan plan.directory .output)) : (plan.runJob t job).Scripted full := by
  have hfound : ((plan.survey job).scan t plan.directory).Scripted (· = .output) :=
    (plan.survey job).scripted_scan t plan.directory rfl
  refine (hfound.within ?_).bind fun found => Report.scripted_line _ hsummary
  rintro _ rfl
  exact hscan

/-- A full output is told as it is met: in a directory's lines as part of
the scan, and in a summary on its own. -/
theorem Arguments.scripted_run (a : Arguments) (t : FileTree) (hsummary : full .output)
    (hscan : full (.scan a.directory .output)) : (a.run t).Scripted full := by
  unfold run
  cases hplan : a.plan t with
  | error e => exact Report.scripted_ofExcept (.error e)
  | ok plan =>
    rw [← directory_plan hplan] at hscan
    exact Report.scripted_forM plan.jobs fun job => plan.scripted_runJob t job hsummary hscan

/-- A sink that takes `limit` bytes cuts what an unlimited one takes, and that
is all it does: to a whole run, to the report of a single directory, to a
walk, and to a scan.  The outcome is then a failure of the output. -/
theorem every_report_isCut (t : FileTree) (limit : Nat) :
    (∀ a : Arguments,
      (a.run t).IsCut (fun f => f = .output ∨ f = .scan a.directory .output) limit) ∧
    (∀ style aggregation directory files,
      (t.reportDirectory style aggregation directory files).IsCut (· = .output) limit) ∧
    (∀ (s : Survey) (start : Path), (s.traverse t start).IsCut (· = .output) limit) ∧
    (∀ (s : Survey) (start : Path), (s.scan t start).IsCut (· = .output) limit) := by
  have hkind : ∀ failure : Failure, failure = .output → failure.kind = .io := by
    rintro _ rfl
    rfl
  refine ⟨fun a => ?_, fun style aggregation directory files => ?_, fun s start => ?_,
    fun s start => ?_⟩
  · refine (a.scripted_run t (.inl rfl) (.inr rfl)).isCut ?_ limit
    rintro _ (rfl | rfl)
    · rfl
    · rfl
  · have hreport : (t.reportDirectory style aggregation directory files).Scripted (· = .output) :=
      t.scripted_reportDirectory style aggregation directory files rfl
    exact hreport.isCut hkind limit
  · have hwalk : (s.traverse t start).Scripted (· = .output) := s.scripted_traverse t start rfl
    exact hwalk.isCut hkind limit
  · have hscan : (s.scan t start).Scripted (· = .output) := s.scripted_scan t start rfl
    exact hscan.isCut hkind limit

end Command

end CommentDensity
