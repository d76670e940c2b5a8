import CommentDensity.Survey.Directory
import Mathlib

/-!
# CommentDensity.Proofs.Measure

The exact numbers behind a measure.

A measure holds its numbers at the limit (`Measure.Holds`).  Summing what is
held at the limit and holding the sum there again is the same as holding the
exact sum once, so the exact numbers can be followed through any nesting of
totals (`Measure.holds_total`).
-/

namespace CommentDensity

/-- The exact sum, as the library writes it. -/
theorem Count.exactSum_eq_sum (cs : List Count) : exactSum cs = (cs.map toNat).sum := by
  induction cs with
  | nil => rfl
  | cons c cs ih => rw [exactSum_cons, ih, List.map_cons, List.sum_cons]

/-- What counts for nothing can be left out of a sum. -/
theorem sum_map_filter {α : Type} (as : List α) {p : α → Bool} {number : α → Nat}
    (h : ∀ a, p a = false → number a = 0) :
    ((as.filter p).map number).sum = (as.map number).sum := by
  induction as with
  | nil => rfl
  | cons a as ih =>
    rw [List.filter_cons, List.map_cons, List.sum_cons]
    cases hp : p a with
    | true => simp [ih]
    | false => simp [ih, h a hp]

/-- Numbers can be held at a limit before they are summed up to it. -/
theorem Count.min_sum_map_min (ns : List Nat) (limit : Nat) :
    min (ns.map (min · limit)).sum limit = min ns.sum limit := by
  induction ns with
  | nil => rfl
  | cons n ns ih =>
    rw [List.map_cons, List.sum_cons, List.sum_cons]
    omega

/-- A sum of numbers held at the limit is their sum held at the limit. -/
theorem Count.toNat_sum_map {α : Type} (as : List α) {held : α → Count} {exact : α → Nat}
    (h : ∀ a, (held a).toNat = min (exact a) limit) :
    (Count.sum (as.map held)).toNat = min (as.map exact).sum limit := by
  have hheld : (as.map held).map toNat = (as.map exact).map (min · limit) := by
    rw [List.map_map, List.map_map]
    exact List.map_congr_left fun a _ => h a
  rw [toNat_sum, exactSum_eq_sum, hheld, min_sum_map_min]

namespace Measure

/-- The measure holds these numbers of lines and comments at the limit. -/
structure Holds (m : Measure) (lines comments : Nat) : Prop where
  lines_eq : m.lines.toNat = min lines Count.limit
  comments_eq : m.comments.toNat = min comments Count.limit

theorem holds_empty (root : Path) : (empty root).Holds 0 0 := ⟨rfl, rfl⟩

/-- A measure is within the limit as it is. -/
theorem holds_self (m : Measure) : m.Holds m.lines.toNat m.comments.toNat :=
  ⟨(Nat.min_eq_left m.lines.le_limit).symm, (Nat.min_eq_left m.comments.le_limit).symm⟩

/-- A total holds the exact sums of what its parts hold. -/
theorem holds_total {α : Type} (as : List α) {m : α → Measure} {lines comments : α → Nat}
    (h : ∀ a, (m a).Holds (lines a) (comments a)) (root : Path) :
    (total root (as.map m)).Holds (as.map lines).sum (as.map comments).sum := by
  constructor
  · show (Count.sum ((as.map m).map Measure.lines)).toNat = _
    rw [List.map_map]
    exact Count.toNat_sum_map as fun a => (h a).lines_eq
  · show (Count.sum ((as.map m).map Measure.comments)).toNat = _
    rw [List.map_map]
    exact Count.toNat_sum_map as fun a => (h a).comments_eq

theorem Holds.eq {m m' : Measure} {lines comments : Nat} (h : m.Holds lines comments)
    (h' : m'.Holds lines comments) (hroot : m.root = m'.root) : m = m' := by
  have hlines : m.lines = m'.lines := Count.ext_toNat (by rw [h.lines_eq, h'.lines_eq])
  have hcomments : m.comments = m'.comments :=
    Count.ext_toNat (by rw [h.comments_eq, h'.comments_eq])
  cases m
  cases m'
  cases hlines
  cases hcomments
  cases hroot
  rfl

/-- The ratio is that of the numbers held at the limit. -/
theorem Holds.ratio_eq {m : Measure} {lines comments : Nat} (h : m.Holds lines comments) :
    m.ratio =
      if lines = 0 then .zero
      else (Binary64.ofNat (min comments Count.limit)).div
        (Binary64.ofNat (min lines Count.limit)) := by
  have hzero : m.lines = 0 ↔ lines = 0 := by
    have hlimit : 0 < Count.limit := by decide
    have hlines := h.lines_eq
    constructor
    · intro hm
      rw [hm, Count.toNat_zero] at hlines
      omega
    · rintro rfl
      exact Count.ext_toNat (by rw [hlines, Count.toNat_zero, Nat.zero_min])
  rw [ratio, h.lines_eq, h.comments_eq]
  simp only [hzero]

end Measure

/-! ## Files and directories -/

/-- The files that make the measure of a directory, out of those that are
picked there: the last one, or all of them. -/
def Aggregation.standing (aggregation : Aggregation) (files : List Bytes) : List Bytes :=
  match aggregation with
  | .sum => files
  | .lastFile => files.getLast?.toList

namespace FileTree

/-- How many lines a file has, with line ends of any kind.  What cannot be
read as text has none. -/
def lineCount (t : FileTree) (path : Path) : Nat :=
  match t.readText path with
  | .ok text => Newline.lineCount (Newline.normalize text.toList)
  | .error _ => 0

/-- How many comments a file has. -/
def commentCount (t : FileTree) (style : Style) (path : Path) : Nat :=
  match t.readText path with
  | .ok text => style.count (Newline.normalize text.toList)
  | .error _ => 0

variable (t : FileTree) (style : Style)

theorem holds_measureFile (path : Path) :
    (t.measureFile style path).Holds (t.lineCount path) (t.commentCount style path) := by
  unfold measureFile lineCount commentCount
  cases t.readText path with
  | error e => exact Measure.holds_empty path
  | ok text => exact ⟨rfl, rfl⟩

theorem holds_measureDirectory (aggregation : Aggregation) (directory : Path)
    (files : List Bytes) :
    (t.measureDirectory style aggregation directory files).Holds
      ((aggregation.standing files).map fun name => t.lineCount (directory.join name)).sum
      ((aggregation.standing files).map fun name =>
        t.commentCount style (directory.join name)).sum := by
  have hfile := fun name => t.holds_measureFile style (directory.join name)
  unfold measureDirectory Aggregation.combine
  cases aggregation with
  | sum => exact Measure.holds_total files hfile directory
  | lastFile =>
    rw [List.getLast?_map, Aggregation.standing]
    cases files.getLast? with
    | none => exact Measure.holds_empty directory
    | some name =>
      obtain ⟨hlines, hcomments⟩ := hfile name
      constructor
      · rw [Option.toList_some, List.map_singleton, List.sum_singleton]
        exact hlines
      · rw [Option.toList_some, List.map_singleton, List.sum_singleton]
        exact hcomments

end FileTree

end CommentDensity
