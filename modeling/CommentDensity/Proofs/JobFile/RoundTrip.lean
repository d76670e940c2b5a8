import CommentDensity.JobFile.Basic
import CommentDensity.Proofs.Toml.Tables
import Mathlib.Data.List.Forall2

/-!
# CommentDensity.Proofs.JobFile.RoundTrip

Job files that were written are read back.

A job is written down as a table with its label, its extension, its excluded
names and the selector of its style, in any order; what goes without saying
may be left out (`JobRecord.WrittenAs`).  The two options of a job file are
written in front of the jobs in the same way.  Reading the text gives the
options and the jobs that were written, in order, unless one of the jobs has no
extension; then it gives nothing (`parse_written`).
-/

namespace CommentDensity

open Toml

namespace JobFile

/-! ## Tables -/

/-- The entries for the parts that are there. -/
def entriesOf (parts : List (String × Option Value)) : Entries :=
  parts.filterMap fun part => part.2.map fun v => (part.1, v)

/-- A part with the value `v`, which may be left out if it goes without
saying. -/
inductive Stated (v : Value) (unsaid : Prop) : Option Value → Prop where
  | given : Stated v unsaid (some v)
  | leftOut : unsaid → Stated v unsaid none

/-- A stated part means the value that was written, `d` standing for what goes
without saying. -/
theorem optional_stated {α : Type} {v : Value} {unsaid : Prop} {part : Option Value}
    {decode : Value → Option α} {a d : α} (h : Stated v unsaid part) (hv : decode v = some a)
    (hd : unsaid → d = a) : ∃ o, optional part decode = some o ∧ o.getD d = a := by
  cases h with
  | given => exact ⟨some a, by rw [optional, hv]; rfl, rfl⟩
  | leftOut hunsaid => exact ⟨none, rfl, hd hunsaid⟩

theorem entriesOf_cons (key : String) (v : Option Value) (parts : List (String × Option Value)) :
    entriesOf ((key, v) :: parts) =
      match v with
      | some v => (key, v) :: entriesOf parts
      | none => entriesOf parts := by
  cases v <;> rfl

theorem entriesOf_append (parts more : List (String × Option Value)) :
    entriesOf (parts ++ more) = entriesOf parts ++ entriesOf more := List.filterMap_append

theorem mem_of_mem_entriesOf {parts : List (String × Option Value)} {e : String × Value}
    (h : e ∈ entriesOf parts) : (e.1, some e.2) ∈ parts := by
  obtain ⟨⟨key, v⟩, hpart, hv⟩ := List.mem_filterMap.mp h
  obtain ⟨v, rfl, rfl⟩ := Option.map_eq_some_iff.mp hv
  exact hpart

theorem keys_entriesOf (parts : List (String × Option Value)) :
    ((entriesOf parts).map (·.1)).Sublist (parts.map (·.1)) := by
  induction parts with
  | nil => exact .slnil
  | cons part parts ih =>
    obtain ⟨key, v⟩ := part
    rw [entriesOf_cons]
    cases v with
    | none => exact .cons _ ih
    | some v => exact .cons_cons _ ih

theorem lookup_entriesOf {parts : List (String × Option Value)} (h : (parts.map (·.1)).Nodup)
    (key : String) : (entriesOf parts).lookup key = (parts.lookup key).join := by
  induction parts with
  | nil => rfl
  | cons part parts ih =>
    obtain ⟨name, v⟩ := part
    rw [List.map_cons, List.nodup_cons] at h
    rw [entriesOf_cons, List.lookup_cons]
    by_cases hname : key = name
    · subst hname
      have hmissing : (entriesOf parts).lookup key = none :=
        lookup_eq_none_iff.mpr fun hmem => h.1 ((keys_entriesOf parts).subset hmem)
      cases v <;> simp [hmissing]
    · have hne : (key == name) = false := by simpa using hname
      cases v <;> simp [hne, ih h.2, List.lookup_cons]

section Entries

variable {parts : List (String × Option Value)} {es : Entries}

theorem nodup_keys (h : es.Perm (entriesOf parts)) (hparts : (parts.map (·.1)).Nodup) :
    (es.map (·.1)).Nodup :=
  (h.map _).nodup_iff.mpr (hparts.sublist (keys_entriesOf parts))

theorem lookup_written (h : es.Perm (entriesOf parts)) (hparts : (parts.map (·.1)).Nodup)
    (key : String) : es.lookup key = (parts.lookup key).join := by
  rw [lookup_perm h (nodup_keys h hparts), lookup_entriesOf hparts]

/-- There are no other keys. -/
theorem othersFit_written (h : es.Perm (entriesOf parts)) {keys : List String}
    (hkeys : ∀ key ∈ parts.map (·.1), key ∈ keys) : othersFit keys es = true := by
  have hnone : (es.filter fun e => !keys.contains e.1) = [] := by
    rw [List.filter_eq_nil_iff]
    intro e he
    have hkey := (keys_entriesOf parts).subset ((h.map (·.1)).mem_iff.mp (List.mem_map_of_mem he))
    simpa using hkeys _ hkey
  rw [othersFit, hnone]
  rfl

end Entries

/-! ## Jobs -/

/-- A job as it is written down: the extension may be missing, and any text
may select the style. -/
structure JobRecord where
  label : Option String
  extension : Option String
  exclude : List String
  selector : String

/-- The parts of a job. -/
def JobRecord.parts (job : JobRecord) (exclude style : Option Value) :
    List (String × Option Value) :=
  [("label", job.label.map .string), ("extension", job.extension.map .string),
    ("exclude", exclude), ("style", style)]

/-- The tables that a job is written as.  No excluded names and the selector
`fsharp` may be left out. -/
inductive JobRecord.WrittenAs (job : JobRecord) (es : Entries) : Prop where
  | mk {exclude style : Option Value} :
      Stated (.ofStrings job.exclude) (job.exclude = []) exclude →
      Stated (.string job.selector) (job.selector = "fsharp") style →
      es.Perm (entriesOf (job.parts exclude style)) → WrittenAs job es

theorem JobRecord.WrittenAs.nodup {job : JobRecord} {es : Entries} (h : job.WrittenAs es) :
    (es.map (·.1)).Nodup := by
  obtain @⟨exclude, style, _, _, hperm⟩ := h
  exact nodup_keys hperm (by simp [JobRecord.parts])

/-- The job that is meant, with this extension. -/
def JobRecord.jobWith (job : JobRecord) (extension : String) : Job :=
  ⟨job.label, extension, job.exclude, Style.ofSelector job.selector⟩

/-- The job that is meant, if it has an extension. -/
def JobRecord.job? (job : JobRecord) : Option Job := job.extension.map job.jobWith

theorem strings?_ofStrings (ss : List String) : strings? (.ofStrings ss) = some ss := by
  have hmap : (ss.map Value.string).mapM Value.string? = some ss := by
    induction ss with
    | nil => rfl
    | cons s ss ih => simp [ih, Value.string?]
  simp [strings?, Value.ofStrings, Value.items?, hmap]

theorem optional_string (o : Option String) : optional (o.map .string) Value.string? = some o := by
  cases o <;> rfl

/-- The style of the selector that was written, or left out. -/
theorem getD_ofSelector (o : Option String) :
    (o.map Style.ofSelector).getD default = Style.ofSelector (o.getD "fsharp") := by
  cases o <;> rfl

/-- A job is read from its table, in whatever order and with whatever left out. -/
theorem jobOfEntries?_written {job : JobRecord} {es : Entries} (h : job.WrittenAs es) :
    jobOfEntries? es = job.job? := by
  obtain @⟨exclude, style, hexclude, hstyle, hperm⟩ := h
  have hkeys : ((job.parts exclude style).map (·.1)).Nodup := by simp [JobRecord.parts]
  have hlookup := lookup_written hperm hkeys
  have hfits : othersFit ["label", "extension", "exclude", "style"] es = true :=
    othersFit_written hperm (by simp [JobRecord.parts])
  have hlabel : es.lookup "label" = job.label.map .string := hlookup "label"
  have hextension : es.lookup "extension" = job.extension.map .string := hlookup "extension"
  have hexclude' : es.lookup "exclude" = exclude := hlookup "exclude"
  have hstyle' : es.lookup "style" = style := hlookup "style"
  obtain ⟨excluded, hexcluded, hnames⟩ :=
    optional_stated hexclude (strings?_ofStrings job.exclude) fun h => h.symm
  obtain ⟨selector, hselector, hselected⟩ :=
    optional_stated hstyle (rfl : Value.string? _ = some job.selector) fun h => h.symm
  rw [jobOfEntries?, hfits, hlabel, hextension, hexclude', hstyle', JobRecord.job?, jobOfParts?,
    optional_string, hexcluded, hselector]
  cases job.extension with
  | none => rfl
  | some extension =>
    simp only [Option.map_some, Option.bind_eq_bind, Option.bind_some, Value.string?,
      getD_ofSelector, JobRecord.jobWith, hselected, hnames]
    rfl

/-! ## Job files -/

/-- The options of a job file. -/
def optionParts (sumDirectories skipHidden : Option Value) : List (String × Option Value) :=
  [("sum_dirs", sumDirectories), ("skip_hidden", skipHidden)]

/-- The entries that the options are written as.  An option that is off may be
left out. -/
inductive OptionsWrittenAs (sumDirectories skipHidden : Bool) (es : Entries) : Prop where
  | mk {sum skip : Option Value} :
      Stated (.boolean sumDirectories) (sumDirectories = false) sum →
      Stated (.boolean skipHidden) (skipHidden = false) skip →
      es.Perm (entriesOf (optionParts sum skip)) → OptionsWrittenAs sumDirectories skipHidden es

/-- The texts that a job file is written as: a line for each option, then for
each job a header and a line for each of its entries. -/
inductive WrittenAs (sumDirectories skipHidden : Bool) (jobs : List JobRecord) (text : String) :
    Prop where
  | mk {es : Entries} {rows : List Entries} : OptionsWrittenAs sumDirectories skipHidden es →
      List.Forall₂ JobRecord.WrittenAs jobs rows →
      WrittenLines (es.map Statement.ofEntry ++ Statement.ofRows "jobs" rows) text.toList →
      WrittenAs sumDirectories skipHidden jobs text

theorem OptionsWrittenAs.nodup {sumDirectories skipHidden : Bool} {es : Entries}
    (h : OptionsWrittenAs sumDirectories skipHidden es) : (es.map (·.1)).Nodup := by
  obtain @⟨sum, skip, _, _, hperm⟩ := h
  exact nodup_keys hperm (by simp [optionParts])

theorem OptionsWrittenAs.jobs_notMem {sumDirectories skipHidden : Bool} {es : Entries}
    (h : OptionsWrittenAs sumDirectories skipHidden es) : "jobs" ∉ es.map (·.1) := by
  obtain @⟨sum, skip, _, _, hperm⟩ := h
  rw [(hperm.map _).mem_iff]
  intro hmem
  have hkey := (keys_entriesOf _).subset hmem
  simp [optionParts] at hkey

theorem nodup_rows {jobs : List JobRecord} {rows : List Entries}
    (h : List.Forall₂ JobRecord.WrittenAs jobs rows) : ∀ row ∈ rows, (row.map (·.1)).Nodup := by
  induction h with
  | nil => simp
  | cons hjob _ ih => exact List.forall_mem_cons.mpr ⟨hjob.nodup, ih⟩

/-! ## Writing -/

/-- An entry that can be written on a line. -/
def Writable (e : String × Value) : Prop := ∃ line, (Statement.ofEntry e).Written line

theorem writable_string {key : String} (hkey : BareKey key) (s : String) :
    Writable (key, .string s) := ⟨_, .assign hkey (.string (quotes_quote s))⟩

theorem writable_strings {key : String} (hkey : BareKey key) (ss : List String) :
    Writable (key, .ofStrings ss) := by
  obtain ⟨text, htext⟩ := exists_quotesAll ss
  exact ⟨_, .assign hkey (.strings htext)⟩

theorem writable_boolean {key : String} (hkey : BareKey key) (b : Bool) :
    Writable (key, .boolean b) := by
  cases b with
  | true => exact ⟨_, .assign hkey .true⟩
  | false => exact ⟨_, .assign hkey .false⟩

theorem OptionsWrittenAs.writable {sumDirectories skipHidden : Bool} {es : Entries}
    (h : OptionsWrittenAs sumDirectories skipHidden es) : ∀ e ∈ es, Writable e := by
  obtain @⟨sum, skip, hsum, hskip, hperm⟩ := h
  rintro ⟨key, v⟩ he
  have hpart := mem_of_mem_entriesOf (hperm.mem_iff.mp he)
  simp only [optionParts, List.mem_cons, Prod.mk.injEq, List.not_mem_nil, or_false] at hpart
  obtain ⟨rfl, rfl⟩ | ⟨rfl, rfl⟩ := hpart
  · cases hsum
    exact writable_boolean (by decide) _
  · cases hskip
    exact writable_boolean (by decide) _

theorem JobRecord.WrittenAs.writable {job : JobRecord} {es : Entries} (h : job.WrittenAs es) :
    ∀ e ∈ es, Writable e := by
  obtain @⟨exclude, style, hexclude, hstyle, hperm⟩ := h
  rintro ⟨key, v⟩ he
  have hpart := mem_of_mem_entriesOf (hperm.mem_iff.mp he)
  simp only [JobRecord.parts, List.mem_cons, Prod.mk.injEq, List.not_mem_nil, or_false] at hpart
  obtain ⟨rfl, hv⟩ | ⟨rfl, hv⟩ | ⟨rfl, rfl⟩ | ⟨rfl, rfl⟩ := hpart
  · obtain ⟨label, _, rfl⟩ := Option.map_eq_some_iff.mp hv.symm
    exact writable_string (by decide) label
  · obtain ⟨extension, _, rfl⟩ := Option.map_eq_some_iff.mp hv.symm
    exact writable_string (by decide) extension
  · cases hexclude
    exact writable_strings (by decide) _
  · cases hstyle
    exact writable_string (by decide) _

/-- Whatever order is chosen and whatever is left out, there is such a text. -/
theorem exists_lines {sumDirectories skipHidden : Bool} {jobs : List JobRecord} {es : Entries}
    {rows : List Entries} (hes : OptionsWrittenAs sumDirectories skipHidden es)
    (hrows : List.Forall₂ JobRecord.WrittenAs jobs rows) :
    ∃ text, WrittenLines (es.map Statement.ofEntry ++ Statement.ofRows "jobs" rows) text := by
  have hwritable : ∀ row ∈ rows, ∀ e ∈ row, Writable e := by
    induction hrows with
    | nil => simp
    | cons hjob _ ih => exact List.forall_mem_cons.mpr ⟨hjob.writable, ih⟩
  refine exists_writtenLines fun st hst => ?_
  obtain hst | hst := List.mem_append.mp hst
  · obtain ⟨e, he, rfl⟩ := List.mem_map.mp hst
    exact hes.writable e he
  · obtain ⟨row, hrow, hst⟩ := List.mem_flatMap.mp hst
    obtain rfl | hst := List.mem_cons.mp hst
    · exact ⟨_, .row (by decide)⟩
    · obtain ⟨e, he, rfl⟩ := List.mem_map.mp hst
      exact hwritable row hrow e he

theorem exists_writtenAs (sumDirectories skipHidden : Bool) (jobs : List JobRecord) :
    ∃ text, WrittenAs sumDirectories skipHidden jobs text := by
  have hoptions : OptionsWrittenAs sumDirectories skipHidden
      (entriesOf (optionParts (some (.boolean sumDirectories)) (some (.boolean skipHidden)))) :=
    .mk .given .given (.refl _)
  have hjobs : List.Forall₂ JobRecord.WrittenAs jobs (jobs.map fun job =>
      entriesOf (job.parts (some (.ofStrings job.exclude)) (some (.string job.selector)))) := by
    rw [List.forall₂_map_right_iff, List.forall₂_same]
    exact fun job _ => .mk .given .given (.refl _)
  obtain ⟨text, htext⟩ := exists_lines hoptions hjobs
  exact ⟨String.ofList text, .mk hoptions hjobs (by rwa [String.toList_ofList])⟩

/-! ## Reading -/

theorem mapM_jobOfEntries?_written {jobs : List JobRecord} {rows : List Entries}
    (h : List.Forall₂ JobRecord.WrittenAs jobs rows) :
    rows.mapM jobOfEntries? = jobs.mapM JobRecord.job? := by
  induction h with
  | nil => rfl
  | cons hjob _ ih => rw [List.mapM_cons, List.mapM_cons, jobOfEntries?_written hjob, ih]

/-- The part of a job file that its rows are. -/
def rowsPart (rows : List Entries) : Option Value := if rows = [] then none else some (.rows rows)

theorem withRows_eq (key : String) (rows : List Entries) (es : Entries) :
    es.withRows key rows = es ++ entriesOf [(key, rowsPart rows)] := by
  unfold Entries.withRows rowsPart
  split
  · exact (List.append_nil es).symm
  · rfl

/-- The jobs are those of the rows. -/
theorem optional_rowsPart {rows : List Entries} {jobs : List Job}
    (h : rows.mapM jobOfEntries? = some jobs) :
    ∃ o, optional (rowsPart rows) jobsOfValue? = some o ∧ o.getD [] = jobs := by
  unfold rowsPart
  split
  · next hrows =>
    rw [hrows] at h
    cases h
    exact ⟨none, rfl, rfl⟩
  · exact ⟨some jobs, by rw [optional, jobsOfValue?, h]; rfl, rfl⟩

theorem optional_rowsPart_of_none {rows : List Entries} (h : rows.mapM jobOfEntries? = none) :
    optional (rowsPart rows) jobsOfValue? = none := by
  unfold rowsPart
  split
  · next hrows =>
    rw [hrows] at h
    cases h
  · rw [optional, jobsOfValue?, h]
    rfl

theorem ofEntries?_written {sumDirectories skipHidden : Bool} {es : Entries}
    (h : OptionsWrittenAs sumDirectories skipHidden es) (rows : List Entries) :
    ofEntries? (es.withRows "jobs" rows) =
      (rows.mapM jobOfEntries?).map fun jobs => ⟨sumDirectories, skipHidden, jobs⟩ := by
  obtain @⟨sum, skip, hsum, hskip, hperm⟩ := h
  have hwhole : (es.withRows "jobs" rows).Perm
      (entriesOf (optionParts sum skip ++ [("jobs", rowsPart rows)])) := by
    rw [withRows_eq, entriesOf_append]
    exact hperm.append_right _
  have hkeys : ((optionParts sum skip ++ [("jobs", rowsPart rows)]).map (·.1)).Nodup := by
    simp [optionParts]
  have hlookup := lookup_written hwhole hkeys
  have hfits : othersFit ["sum_dirs", "skip_hidden", "jobs"] (es.withRows "jobs" rows) = true :=
    othersFit_written hwhole (by simp [optionParts])
  have hsum' : (es.withRows "jobs" rows).lookup "sum_dirs" = sum := hlookup "sum_dirs"
  have hskip' : (es.withRows "jobs" rows).lookup "skip_hidden" = skip := hlookup "skip_hidden"
  have hjobs' : (es.withRows "jobs" rows).lookup "jobs" = rowsPart rows := hlookup "jobs"
  obtain ⟨sumSaid, hsumSaid, hsumMeant⟩ :=
    optional_stated hsum (rfl : Value.boolean? _ = some sumDirectories) Eq.symm
  obtain ⟨skipSaid, hskipSaid, hskipMeant⟩ :=
    optional_stated hskip (rfl : Value.boolean? _ = some skipHidden) Eq.symm
  rw [ofEntries?, hfits, hsum', hskip', hjobs', hsumSaid, hskipSaid]
  cases hrows : rows.mapM jobOfEntries? with
  | none =>
    rw [optional_rowsPart_of_none hrows]
    rfl
  | some jobs =>
    obtain ⟨found, hfound, hmeant⟩ := optional_rowsPart hrows
    rw [hfound, ← hmeant, ← hsumMeant, ← hskipMeant]
    rfl

/-- What is read back from a job file that was written. -/
theorem ofText?_written {sumDirectories skipHidden : Bool} {jobs : List JobRecord} {text : String}
    (h : WrittenAs sumDirectories skipHidden jobs text) :
    ofText? text =
      (jobs.mapM JobRecord.job?).map fun found => ⟨sumDirectories, skipHidden, found⟩ := by
  obtain @⟨es, rows, hes, hrows, hlines⟩ := h
  have hread := read?_written hes.nodup hes.jobs_notMem (nodup_rows hrows) hlines
  rw [ofText?, hread, Option.bind_eq_bind, Option.bind_some, ofEntries?_written hes,
    mapM_jobOfEntries?_written hrows]

/-- What is read for a job. -/
structure JobRecord.ReadAs (job : JobRecord) (found : Job) : Prop where
  label : found.label = job.label
  extension : job.extension = some found.extension
  exclude : found.exclude = job.exclude
  style : found.style = if job.selector = "fsharp" then .fsharp else .csharp

theorem mapM_job?_of_extensions {jobs : List JobRecord} (h : ∀ job ∈ jobs, job.extension ≠ none) :
    ∃ found, jobs.mapM JobRecord.job? = some found ∧ List.Forall₂ JobRecord.ReadAs jobs found := by
  induction jobs with
  | nil => exact ⟨[], rfl, .nil⟩
  | cons job jobs ih =>
    obtain ⟨found, hfound, hread⟩ := ih fun j hj => h j (List.mem_cons_of_mem _ hj)
    obtain ⟨extension, hextension⟩ := Option.ne_none_iff_exists'.mp (h job List.mem_cons_self)
    refine ⟨job.jobWith extension :: found, ?_, .cons ⟨rfl, hextension, rfl, rfl⟩ hread⟩
    rw [List.mapM_cons, JobRecord.job?, hextension, hfound]
    rfl

theorem mapM_job?_of_missing {jobs : List JobRecord} (h : ∃ job ∈ jobs, job.extension = none) :
    jobs.mapM JobRecord.job? = none := by
  obtain ⟨job, hjob, hextension⟩ := h
  obtain ⟨front, rest, rfl⟩ := List.append_of_mem hjob
  have hnone : job.job? = none := by rw [JobRecord.job?, hextension]; rfl
  rw [List.mapM_append, List.mapM_cons, hnone]
  cases front.mapM JobRecord.job? <;> rfl

/-- Any options and jobs can be written down, and what is read from a text
that they are written as are these options and these jobs, in their order: the
style of a job is F# for the selector `fsharp` and C# for every other one.  If
one of the jobs has no extension, wherever it stands, the text is no job
file. -/
theorem parse_written (sumDirectories skipHidden : Bool) (jobs : List JobRecord) :
    (∃ text, WrittenAs sumDirectories skipHidden jobs text) ∧
    ∀ text, WrittenAs sumDirectories skipHidden jobs text →
      ((∀ job ∈ jobs, job.extension ≠ none) →
        ∃ found, parse text = .ok ⟨sumDirectories, skipHidden, found⟩ ∧
          List.Forall₂ JobRecord.ReadAs jobs found) ∧
      ((∃ job ∈ jobs, job.extension = none) → parse text = .error .jobText) := by
  refine ⟨exists_writtenAs sumDirectories skipHidden jobs, fun text htext => ⟨?_, ?_⟩⟩
  · intro hextensions
    obtain ⟨found, hfound, hread⟩ := mapM_job?_of_extensions hextensions
    exact ⟨found, by rw [parse, ofText?_written htext, hfound]; rfl, hread⟩
  · intro hmissing
    rw [parse, ofText?_written htext, mapM_job?_of_missing hmissing]
    rfl

/-- A job whose extension stands in front of its label, in which a character is
written by its number. -/
theorem parse_written_csharp :
    WrittenAs false false [⟨some "C#", some ".cs", [], "fsharp"⟩]
      "[[jobs]]\nextension = \".cs\"\nlabel = \"C\\u0023\"\n" ∧
    ∃ found, parse "[[jobs]]\nextension = \".cs\"\nlabel = \"C\\u0023\"\n" =
        .ok ⟨false, false, found⟩ ∧
      List.Forall₂ JobRecord.ReadAs [⟨some "C#", some ".cs", [], "fsharp"⟩] found := by
  have hjob : JobRecord.WrittenAs ⟨some "C#", some ".cs", [], "fsharp"⟩
      [("extension", .string ".cs"), ("label", .string "C#")] :=
    .mk (.leftOut rfl) (.leftOut rfl) (.swap _ _ _)
  have hfirst : Spells 'C' ['C'] := .plain rfl (by decide) (by decide)
  have hsecond : Spells '#' ['\\', 'u', '0', '0', '2', '3'] :=
    .number 'u' ['0', '0', '2', '3'] [0, 0, 2, 3] rfl rfl rfl
  have hinside : SpellsAll "C#".toList ['C', '\\', 'u', '0', '0', '2', '3'] :=
    .cons hfirst (.cons hsecond .nil)
  have hlabel : Quotes "C#" ['"', 'C', '\\', 'u', '0', '0', '2', '3', '"'] := .mk hinside
  have hlines := WrittenLines.cons (.row (by decide : BareKey "jobs"))
    (.cons (.assign (by decide : BareKey "extension") (.string (quotes_quote ".cs")))
      (.cons (.assign (by decide : BareKey "label") (.string hlabel)) .nil))
  have hwritten : WrittenAs false false [⟨some "C#", some ".cs", [], "fsharp"⟩]
      "[[jobs]]\nextension = \".cs\"\nlabel = \"C\\u0023\"\n" :=
    .mk (.mk (.leftOut rfl) (.leftOut rfl) .nil) (.cons hjob .nil) hlines
  exact ⟨hwritten, ((parse_written false false _).2 _ hwritten).1 (by simp)⟩

end JobFile

end CommentDensity
