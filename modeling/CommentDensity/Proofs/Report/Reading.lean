import CommentDensity.Report.Line
import CommentDensity.Report.Tally
import CommentDensity.Proofs.Text.Split
import Mathlib.Data.List.Infix
import Mathlib.Data.List.TakeDrop

/-!
# CommentDensity.Proofs.Report.Reading

Lines with counts, read back.

A line can be cut at its last ` ratio:`, and the text in front of that at the
last two fields: a blank, a word, a colon and digits each.  Nothing is asked
of the words but that they hold no blank, and of the name nothing at all.
Even so a line has one cut at most (`Cut.unique`): digits hold no colon and
words no blank, so a field begins at the last blank in front of the last
colon.

The reader finds the cut if its words are those of a report
(`Tally.ofLine?_eq_some_iff`).  A line that is written has the cut that it
was written from (`Cut.of_written`), whatever the name looks like: what is
written behind the last ` ratio:` holds no blank, so that no other one stands
there.
-/

namespace CommentDensity

/-! ## Cutting a line -/

/-- A number after its word. -/
structure Field where
  word : List Char
  number : Nat

/-- The field as it is written. -/
def Field.written (field : Field) : List Char :=
  ' ' :: (field.word ++ ':' :: decimalDigits field.number)

/-- The text is `front` and the field behind it. -/
structure Field.Closes (field : Field) (front text : List Char) : Prop where
  no_blank : ' ' ∉ field.word
  eq : ∃ digits, text = front ++ ' ' :: (field.word ++ ':' :: digits) ∧
    readDigits? digits = some field.number

/-- What stands in front of the last ` ratio:` of a line. -/
structure BeforeRatio (text line : List Char) : Prop where
  stands : text ++ " ratio:".toList <+: line
  last : ∀ text', text' ++ " ratio:".toList <+: line → text'.length ≤ text.length

/-- A name and two fields. -/
structure Cut where
  name : List Char
  first : Field
  second : Field

/-- The line is cut into these at its last ` ratio:` and the two fields in
front of that. -/
def Cut.Of (cut : Cut) (line : List Char) : Prop :=
  ∃ text front, BeforeRatio text line ∧ cut.second.Closes front text ∧
    cut.first.Closes cut.name front

theorem isDigit_of_readDigits? {digits : List Char} {n : Nat} (h : readDigits? digits = some n) :
    ∀ c ∈ digits, c.isDigit = true := by
  unfold readDigits? at h
  split at h
  · next hdigits => exact List.all_eq_true.mp hdigits.2
  · cases h

theorem colon_notMem_of_readDigits? {digits : List Char} {n : Nat}
    (h : readDigits? digits = some n) : ':' ∉ digits := by
  intro hcolon
  exact absurd (isDigit_of_readDigits? h ':' hcolon) (by decide)

theorem Field.Closes.unique {field field' : Field} {front front' text : List Char}
    (h : field.Closes front text) (h' : field'.Closes front' text) :
    field = field' ∧ front = front' := by
  obtain ⟨hword, digits, rfl, hnumber⟩ := h
  obtain ⟨hword', digits', htext, hnumber'⟩ := h'
  rw [← List.cons_append, ← List.cons_append, ← List.append_assoc, ← List.append_assoc] at htext
  obtain ⟨hfields, rfl⟩ := append_sep_inj htext (colon_notMem_of_readDigits? hnumber)
    (colon_notMem_of_readDigits? hnumber')
  obtain ⟨hfront, hwords⟩ := append_sep_inj hfields hword hword'
  have hnumbers : field.number = field'.number := Option.some.inj (hnumber.symm.trans hnumber')
  cases field
  cases field'
  simp_all

theorem BeforeRatio.unique {text text' line : List Char} (h : BeforeRatio text line)
    (h' : BeforeRatio text' line) : text = text' := by
  have hlength : text.length = text'.length :=
    Nat.le_antisymm (h'.last text h.stands) (h.last text' h'.stands)
  have hfront : text <+: line := (List.prefix_append _ _).trans h.stands
  have hfront' : text' <+: line := (List.prefix_append _ _).trans h'.stands
  exact (List.prefix_of_prefix_length_le hfront hfront' hlength.le).eq_of_length hlength

/-- A line is cut in one way at most. -/
theorem Cut.unique {cut cut' : Cut} {line : List Char} (h : cut.Of line) (h' : cut'.Of line) :
    cut = cut' := by
  obtain ⟨text, front, hratio, hsecond, hfirst⟩ := h
  obtain ⟨text', front', hratio', hsecond', hfirst'⟩ := h'
  obtain rfl := hratio.unique hratio'
  obtain ⟨hseconds, rfl⟩ := hsecond.unique hsecond'
  obtain ⟨hfirsts, hnames⟩ := hfirst.unique hfirst'
  cases cut
  cases cut'
  simp_all

/-! ## The reader -/

namespace Tally

/-- The cut of a line that says as much. -/
def cut (tally : Tally) : Cut :=
  match tally.subject with
  | .directory => ⟨tally.name, ⟨"comments".toList, tally.comments⟩, ⟨"lines".toList, tally.lines⟩⟩
  | .summary => ⟨tally.name, ⟨"lines".toList, tally.lines⟩, ⟨"comments".toList, tally.comments⟩⟩

/-- What stands behind the first mark is the longest that stands behind one. -/
theorem behind?_eq_some_iff {mark s r : List Char} (hmark : mark ≠ []) :
    behind? mark s = some r ↔
      mark ++ r <:+ s ∧ ∀ r', mark ++ r' <:+ s → r'.length ≤ r.length := by
  induction s with
  | nil => simp [behind?, hmark]
  | cons c cs ih =>
    rw [behind?]
    by_cases hfirst : mark.isPrefixOf (c :: cs) = true
    · have hwhole : mark ++ (c :: cs).drop mark.length = c :: cs :=
        List.prefix_iff_eq_append.mp (List.isPrefixOf_iff_prefix.mp hfirst)
      have hlonger : ∀ r', mark ++ r' <:+ c :: cs → r'.length ≤ ((c :: cs).drop mark.length).length := by
        intro r' hr'
        have hle := hr'.length_le
        rw [List.length_append] at hle
        rw [List.length_drop]
        omega
      rw [if_pos hfirst, Option.some.injEq]
      constructor
      · rintro rfl
        exact ⟨by rw [hwhole], hlonger⟩
      · rintro ⟨hr, hlast⟩
        have hle : ((c :: cs).drop mark.length).length ≤ r.length := hlast _ (by rw [hwhole])
        have hsame : mark ++ r = c :: cs := by
          refine hr.eq_of_length_le ?_
          rw [← hwhole, List.length_append, List.length_append]
          omega
        rw [← hsame, List.drop_left]
    · have hbehind : ∀ r', mark ++ r' <:+ c :: cs ↔ mark ++ r' <:+ cs := by
        intro r'
        rw [List.suffix_cons_iff]
        constructor
        · rintro (hwhole | hcs)
          · exact absurd (List.isPrefixOf_iff_prefix.mpr ⟨r', hwhole⟩) hfirst
          · exact hcs
        · exact Or.inr
      simp only [hfirst, Bool.false_eq_true, if_false, ih, hbehind]

theorem beforeRatio?_eq_some_iff {line text : List Char} :
    beforeRatio? line = some text ↔ BeforeRatio text line := by
  have hstands : ∀ text' : List Char, " ratio:".toList.reverse ++ text'.reverse <:+ line.reverse ↔
      text' ++ " ratio:".toList <+: line := by
    intro text'
    rw [← List.reverse_append, List.reverse_suffix]
  have hread : beforeRatio? line = some text ↔
      behind? " ratio:".toList.reverse line.reverse = some text.reverse := by
    rw [beforeRatio?, Option.map_eq_some_iff]
    constructor
    · rintro ⟨r, hr, rfl⟩
      rw [hr, List.reverse_reverse]
    · intro h
      exact ⟨text.reverse, h, List.reverse_reverse text⟩
  rw [hread, behind?_eq_some_iff (by decide), hstands]
  constructor
  · rintro ⟨h, hlast⟩
    refine ⟨h, fun text' h' => ?_⟩
    have hle := hlast text'.reverse ((hstands text').mpr h')
    simpa using hle
  · rintro ⟨h, hlast⟩
    refine ⟨h, fun r hr => ?_⟩
    have hle := hlast r.reverse ((hstands r.reverse).mp (by rwa [List.reverse_reverse]))
    simpa using hle

/-- The text behind a mark that stands at the front. -/
theorem ite_isPrefixOf_eq_some_iff {β : Type} (mark s : List Char) (f : List Char → β) {b : β} :
    (if mark.isPrefixOf s then some (f (s.drop mark.length)) else none) = some b ↔
      ∃ r, mark ++ r = s ∧ f r = b := by
  by_cases hmark : mark.isPrefixOf s = true
  · obtain ⟨r, rfl⟩ := List.isPrefixOf_iff_prefix.mp hmark
    simp
  · simp only [hmark, Bool.false_eq_true, if_false, reduceCtorEq, false_iff]
    rintro ⟨r, rfl, _⟩
    exact hmark (List.isPrefixOf_iff_prefix.mpr (List.prefix_append mark r))

theorem lastField?_eq_some_iff {name : String} {front text : List Char} {n : Nat}
    (hname : ' ' ∉ name.toList) :
    lastField? name text = some (front, n) ↔ Field.Closes ⟨name.toList, n⟩ front text := by
  have hmark : (" " ++ name ++ ":").toList.reverse = ':' :: (name.toList.reverse ++ [' ']) := by
    simp
  have hread : lastField? name text = some (front, n) ↔
      readDigits? (text.reverse.takeWhile Char.isDigit).reverse = some n ∧
      ∃ r, ':' :: (name.toList.reverse ++ [' ']) ++ r = text.reverse.dropWhile Char.isDigit ∧
        r.reverse = front := by
    simp only [lastField?, List.span_eq_takeWhile_dropWhile, hmark]
    cases readDigits? (text.reverse.takeWhile Char.isDigit).reverse with
    | none => simp
    | some k =>
      have hprefix := ite_isPrefixOf_eq_some_iff (':' :: (name.toList.reverse ++ [' ']))
        (text.reverse.dropWhile Char.isDigit) (fun r => (r.reverse, k)) (b := (front, n))
      refine Iff.trans hprefix ?_
      simp only [Prod.mk.injEq, Option.some.injEq]
      grind
  rw [hread]
  constructor
  · rintro ⟨hnumber, r, hr, rfl⟩
    refine ⟨hname, _, ?_, hnumber⟩
    calc text = text.reverse.reverse := (List.reverse_reverse text).symm
      _ = (text.reverse.takeWhile Char.isDigit ++
            (':' :: (name.toList.reverse ++ [' ']) ++ r)).reverse := by
          rw [hr, List.takeWhile_append_dropWhile]
      _ = _ := by simp
  · rintro ⟨_, digits, rfl, hnumber⟩
    have hreverse : (front ++ ' ' :: (name.toList ++ ':' :: digits)).reverse =
        digits.reverse ++ ':' :: (name.toList.reverse ++ ' ' :: front.reverse) := by simp
    have hdigits : ∀ c ∈ digits.reverse, c.isDigit = true :=
      fun c hc => isDigit_of_readDigits? hnumber c (List.mem_reverse.mp hc)
    rw [hreverse, List.takeWhile_append_of_pos hdigits, List.dropWhile_append_of_pos hdigits]
    refine ⟨?_, front.reverse, ?_, List.reverse_reverse front⟩
    · simpa using hnumber
    · simp

theorem lastFields?_eq_some_iff {first second : String} {name text : List Char} {m n : Nat}
    (hfirst : ' ' ∉ first.toList) (hsecond : ' ' ∉ second.toList) :
    lastFields? first second text = some (name, m, n) ↔
      ∃ front, Field.Closes ⟨second.toList, n⟩ front text ∧
        Field.Closes ⟨first.toList, m⟩ name front := by
  simp only [← lastField?_eq_some_iff hfirst, ← lastField?_eq_some_iff hsecond, lastFields?]
  constructor
  · intro h
    obtain ⟨⟨front, k⟩, hlast, h⟩ := Option.bind_eq_some_iff.mp h
    obtain ⟨⟨name', k'⟩, hfront, h⟩ := Option.bind_eq_some_iff.mp h
    cases h
    exact ⟨front, hlast, hfront⟩
  · rintro ⟨front, hlast, hfront⟩
    simp [hlast, hfront]

/-- The reader finds the cut of a line if it is one of a report, and nothing
else. -/
theorem ofLine?_eq_some_iff {line : List Char} {tally : Tally} :
    ofLine? line = some tally ↔ tally.cut.Of line := by
  have hcomments : ' ' ∉ "comments".toList := by decide
  have hlines : ' ' ∉ "lines".toList := by decide
  constructor
  · intro h
    obtain ⟨text, hratio, h⟩ := Option.bind_eq_some_iff.mp h
    rw [beforeRatio?_eq_some_iff] at hratio
    cases hdirectory : lastFields? "comments" "lines" text with
    | some read =>
      rw [hdirectory] at h
      cases h
      obtain ⟨front, hsecond, hfirst⟩ := (lastFields?_eq_some_iff hcomments hlines).mp hdirectory
      exact ⟨text, front, hratio, hsecond, hfirst⟩
    | none =>
      rw [hdirectory] at h
      cases hsummary : lastFields? "lines" "comments" text with
      | some read =>
        rw [hsummary] at h
        cases h
        obtain ⟨front, hsecond, hfirst⟩ := (lastFields?_eq_some_iff hlines hcomments).mp hsummary
        exact ⟨text, front, hratio, hsecond, hfirst⟩
      | none =>
        rw [hsummary] at h
        cases h
  · rintro ⟨text, front, hratio, hsecond, hfirst⟩
    obtain ⟨subject, name, lines, comments⟩ := tally
    have htext : beforeRatio? line = some text := beforeRatio?_eq_some_iff.mpr hratio
    cases subject with
    | directory =>
      have hdirectory : lastFields? "comments" "lines" text = some (name, comments, lines) :=
        (lastFields?_eq_some_iff hcomments hlines).mpr ⟨front, hsecond, hfirst⟩
      simp [ofLine?, htext, hdirectory]
    | summary =>
      have hsummary : lastFields? "lines" "comments" text = some (name, lines, comments) :=
        (lastFields?_eq_some_iff hlines hcomments).mpr ⟨front, hsecond, hfirst⟩
      -- the last field has one word only
      have hdirectory : lastFields? "comments" "lines" text = none := by
        rw [Option.eq_none_iff_forall_ne_some]
        intro read hread
        obtain ⟨front', hsecond', _⟩ := (lastFields?_eq_some_iff hcomments hlines).mp hread
        have hwords := congrArg Field.word (hsecond.unique hsecond').1
        exact absurd hwords (by simp [cut])
      simp [ofLine?, htext, hdirectory, hsummary]

end Tally

/-! ## Ratios -/

/-- Digits and what else a ratio is written with. -/
def IsNumeral (cs : List Char) : Prop := ∀ c ∈ cs, c.isDigit = true ∨ c ∈ ['.', 'e', '+', '-']

theorem IsNumeral.blank_notMem {cs : List Char} (h : IsNumeral cs) : ' ' ∉ cs :=
  fun hc => absurd (h _ hc) (by decide)

theorem IsNumeral.newline_notMem {cs : List Char} (h : IsNumeral cs) : '\n' ∉ cs :=
  fun hc => absurd (h _ hc) (by decide)

@[simp] theorem isNumeral_nil : IsNumeral [] := by simp [IsNumeral]

@[simp] theorem isNumeral_cons {c : Char} {cs : List Char} :
    IsNumeral (c :: cs) ↔ (c.isDigit = true ∨ c ∈ ['.', 'e', '+', '-']) ∧ IsNumeral cs :=
  List.forall_mem_cons

@[simp] theorem isNumeral_append {cs ds : List Char} :
    IsNumeral (cs ++ ds) ↔ IsNumeral cs ∧ IsNumeral ds := List.forall_mem_append

@[simp] theorem isNumeral_decimalDigits (n : Nat) : IsNumeral (decimalDigits n) :=
  fun c hc => .inl (isDigit_decimalDigits n c hc)

@[simp] theorem isNumeral_replicate (n : Nat) : IsNumeral (List.replicate n '0') := by
  intro c hc
  rw [List.eq_of_mem_replicate hc]
  exact .inl rfl

@[simp] theorem isNumeral_paddedDigits (width n : Nat) : IsNumeral (paddedDigits width n) := by
  simp [paddedDigits]

theorem isNumeral_hundredths (x : Binary64) : IsNumeral x.hundredths := by
  simp [Binary64.hundredths]

theorem isNumeral_positional (x : Decimal) : IsNumeral x.positional := by
  have htake : IsNumeral ((decimalDigits x.digits).take x.point.toNat) :=
    fun c hc => isNumeral_decimalDigits x.digits c (List.mem_of_mem_take hc)
  have hdrop : IsNumeral ((decimalDigits x.digits).drop x.point.toNat) :=
    fun c hc => isNumeral_decimalDigits x.digits c (List.mem_of_mem_drop hc)
  unfold Decimal.positional
  dsimp only
  split
  · simp
  · split
    · simp
    · simp [htake, hdrop]

theorem isNumeral_scientific (x : Decimal) : IsNumeral x.scientific := by
  have hdigits : IsNumeral (decimalDigits x.digits) := isNumeral_decimalDigits x.digits
  unfold Decimal.scientific
  dsimp only
  rw [isNumeral_append]
  constructor
  · split
    · simp
    · next d hd => rwa [hd] at hdigits
    · next d ds _ hd =>
      obtain ⟨hfirst, hrest⟩ := isNumeral_cons.mp (hd ▸ hdigits)
      exact isNumeral_cons.mpr ⟨hfirst, isNumeral_cons.mpr ⟨by decide, hrest⟩⟩
  · split <;> simp

theorem isNumeral_ratioText (m : Measure) : IsNumeral m.ratioText.toList := by
  unfold Measure.ratioText
  dsimp only
  split
  · simp
  · split
    · rw [String.toList_ofList]
      exact isNumeral_scientific m.ratio.shortest
    · split
      · simp
      · rw [String.toList_ofList]
        exact isNumeral_positional m.ratio.shortest

/-! ## Written lines -/

/-- The field behind a text closes it. -/
theorem Field.closes_written {field : Field} (h : ' ' ∉ field.word) (front : List Char) :
    field.Closes front (front ++ field.written) :=
  ⟨h, decimalDigits field.number, rfl, readDigits?_decimalDigits field.number⟩

/-- No ` ratio:` stands in a ratio. -/
theorem beforeRatio_append {ratio : List Char} (h : IsNumeral ratio) (text : List Char) :
    BeforeRatio text (text ++ " ratio:".toList ++ ratio) := by
  constructor
  case stands => exact List.prefix_append _ ratio
  case last =>
    rintro text' ⟨behind, hbehind⟩
    have hsame : text ++ ' ' :: ("ratio:".toList ++ ratio) =
        text' ++ ' ' :: ("ratio:".toList ++ behind) := by simpa using hbehind.symm
    have hlast : ' ' ∉ "ratio:".toList ++ ratio := by simp [h.blank_notMem]
    exact (prefix_of_last hsame hlast).length_le

namespace Cut

/-- The line that has the cut, with a ratio behind it. -/
def written (cut : Cut) (ratio : List Char) : List Char :=
  cut.name ++ cut.first.written ++ cut.second.written ++ " ratio:".toList ++ ratio

/-- Whatever the name is, a written line has the cut that it was written
from. -/
theorem of_written {cut : Cut} (hfirst : ' ' ∉ cut.first.word) (hsecond : ' ' ∉ cut.second.word)
    {ratio : List Char} (hratio : IsNumeral ratio) : cut.Of (cut.written ratio) :=
  ⟨_, _, beforeRatio_append hratio _, Field.closes_written hsecond _, Field.closes_written hfirst _⟩

end Cut

namespace Tally

theorem blank_notMem_cut (tally : Tally) :
    ' ' ∉ tally.cut.first.word ∧ ' ' ∉ tally.cut.second.word := by
  obtain ⟨subject, _, _, _⟩ := tally
  cases subject <;> simp [cut]

/-- What is written of a tally is read back, and can be cut in no other
way. -/
theorem ofLine?_written (tally : Tally) {ratio : List Char} (hratio : IsNumeral ratio) :
    ofLine? (tally.cut.written ratio) = some tally := by
  obtain ⟨hfirst, hsecond⟩ := tally.blank_notMem_cut
  exact ofLine?_eq_some_iff.mpr (Cut.of_written hfirst hsecond hratio)

theorem newline_notMem_written {tally : Tally} (hname : '\n' ∉ tally.name) {ratio : List Char}
    (hratio : IsNumeral ratio) : '\n' ∉ tally.cut.written ratio := by
  have hdigits : ∀ n, '\n' ∉ decimalDigits n := fun n =>
    (isNumeral_decimalDigits n).newline_notMem
  obtain ⟨subject, name, lines, comments⟩ := tally
  cases subject <;>
    simp [cut, Cut.written, Field.written, hname, hdigits, hratio.newline_notMem]

end Tally

namespace Line

/-- The line says what the tally says, with some ratio behind it. -/
def Tells (line : Line) (tally : Tally) : Prop :=
  ∃ ratio, IsNumeral ratio ∧ line.text.toList = tally.cut.written ratio

theorem tells_directory (m : Measure) :
    (Line.directory m).Tells
      ⟨.directory, m.root.display.toList, m.lines.toNat, m.comments.toNat⟩ := by
  refine ⟨m.ratio.hundredths, isNumeral_hundredths m.ratio, ?_⟩
  simp [text, field, Tally.cut, Cut.written, Field.written]

theorem tells_summary (label : String) (m : Measure) :
    (Line.summary label m).Tells ⟨.summary, label.toList, m.lines.toNat, m.comments.toNat⟩ := by
  refine ⟨m.ratioText.toList, isNumeral_ratioText m, ?_⟩
  simp [text, field, Tally.cut, Cut.written, Field.written]

theorem Tells.ofLine? {line : Line} {tally : Tally} (h : line.Tells tally) :
    Tally.ofLine? line.text.toList = some tally := by
  obtain ⟨ratio, hratio, htext⟩ := h
  rw [htext, Tally.ofLine?_written tally hratio]

theorem Tells.newline_notMem {line : Line} {tally : Tally} (h : line.Tells tally)
    (hname : '\n' ∉ tally.name) : '\n' ∉ line.text.toList := by
  obtain ⟨ratio, hratio, htext⟩ := h
  rw [htext]
  exact Tally.newline_notMem_written hname hratio

end Line

end CommentDensity
