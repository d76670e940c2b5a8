import CommentDensity.Command.Arguments
import CommentDensity.Proofs.Text.Split

/-!
# CommentDensity.Proofs.Command.Spelling

The spellings of an option.

A line of options is a list of `Given`: switches, and settings with their
values, each in one of five spellings.

* `words_setting` — the reader takes every spelling apart into the option,
  what is attached to it and what stands behind it;
* `words_line` — whatever the values, a line is refused for a fault in it, or
  the options that are settled at its end are those that are given, each once.
-/

namespace CommentDensity.Command

/-! ## Lines of options -/

/-- How an option that takes a value is written with it. -/
inductive Spelling where
  /-- `-o V` -/
  | shortApart
  /-- `-oV` -/
  | shortAttached
  /-- `-o=V` -/
  | shortEquals
  /-- `--option V` -/
  | longApart
  /-- `--option=V` -/
  | longEquals
  deriving DecidableEq, Repr

/-- An option as it is given on a line. -/
inductive Given where
  | setting (s : Setting) (value : Bytes) (spelling : Spelling)
  | switch (s : Switch)
  deriving DecidableEq, Repr

/-- The short word of an option. -/
def Setting.shortWord : Setting → String
  | .directory => "-d"
  | .extension => "-e"
  | .exclude => "-x"
  | .style => "-s"
  | .label => "-l"
  | .config => "-c"

/-- The long word of an option. -/
def Flag.longWord : Flag → String
  | .setting .directory => "--directory"
  | .setting .extension => "--extension"
  | .setting .exclude => "--exclude"
  | .setting .style => "--style"
  | .setting .label => "--label"
  | .setting .config => "--config"
  | .switch .sumDirectories => "--sum-dirs"
  | .switch .skipHidden => "--skip-hidden"
  | .switch .tree => "--tree"
  | .help => "--help"
  | .version => "--version"

namespace Given

/-- The option that is given. -/
def flag : Given → Flag
  | .setting s _ _ => .setting s
  | .switch s => .switch s

/-- The words that give it. -/
def words : Given → List Bytes
  | .setting s value .shortApart => [.ofString s.shortWord, value]
  | .setting s value .shortAttached => [.ofString s.shortWord ++ value]
  | .setting s value .shortEquals => [.ofString s.shortWord ++ equals :: value]
  | .setting s value .longApart => [.ofString (Flag.setting s).longWord, value]
  | .setting s value .longEquals => [.ofString (Flag.setting s).longWord ++ equals :: value]
  | .switch s => [.ofString (Flag.switch s).longWord]

end Given

/-! ## Words -/

namespace Spelling

/-- The value that the reader finds attached to the option. -/
def attached? : Spelling → Bytes → Option Bytes
  | .shortAttached, value => Command.attached? value
  | .shortEquals, value => some value
  | .longEquals, value => some value
  | .shortApart, _ => none
  | .longApart, _ => none

/-- The words that the reader finds behind the option. -/
def behind : Spelling → Bytes → List Bytes
  | .shortApart, value => [value]
  | .longApart, value => [value]
  | .shortAttached, _ => []
  | .shortEquals, _ => []
  | .longEquals, _ => []

end Spelling

theorem Setting.shortWord_eq (s : Setting) :
    ∃ letter, Bytes.ofString s.shortWord = [dash, letter] ∧ letter ≠ dash ∧
      Flag.ofShort? letter = some (.setting s) := by
  cases s <;> exact ⟨_, rfl, by decide, by decide⟩

namespace Flag

theorem longWord_eq (f : Flag) :
    Bytes.ofString f.longWord = dash :: dash :: Bytes.ofString f.long := by
  have hall : ∀ f ∈ all, Bytes.ofString f.longWord = dash :: dash :: Bytes.ofString f.long := by
    decide +kernel
  exact hall f f.mem_all

theorem long_ne_nil (f : Flag) : Bytes.ofString f.long ≠ [] := by
  have hall : ∀ f ∈ all, Bytes.ofString f.long ≠ [] := by decide +kernel
  exact hall f f.mem_all

theorem equals_notMem_long (f : Flag) : equals ∉ Bytes.ofString f.long := by
  have hall : ∀ f ∈ all, equals ∉ Bytes.ofString f.long := by decide +kernel
  exact hall f f.mem_all

end Flag

theorem Word.ofBytes_longWord (f : Flag) {rest : Bytes} (h : rest = [] ∨ rest.head? = some equals) :
    Word.ofBytes (.ofString f.longWord ++ rest) =
      .long (Bytes.ofString f.long) (if rest = [] then none else some rest.tail) := by
  have hname : ∀ b ∈ Bytes.ofString f.long, decide (b ≠ equals) = true := by
    intro b hb
    rw [decide_eq_true_iff]
    rintro rfl
    exact f.equals_notMem_long hb
  have hrest : ∀ b, rest.head? = some b → decide (b ≠ equals) = false := by
    intro b hb
    obtain rfl | h := h
    · cases hb
    · obtain rfl : equals = b := Option.some.inj (h.symm.trans hb)
      simp
  have hspan := span_append hname hrest
  rw [f.longWord_eq, List.cons_append, List.cons_append, Word.ofBytes, if_neg (by simp), if_pos rfl,
    hspan]

namespace Reading

variable (r : Reading)

theorem words_cons {w : Bytes} (h : w ≠ [dash, dash]) (ws : List Bytes) :
    r.words (w :: ws) = r.word w >>= fun r => r.words ws := by
  rw [words.eq_def]
  simp only [if_neg h]

theorem words_shortWord (s : Setting) (rest : Bytes) (ws : List Bytes) :
    r.words ((.ofString s.shortWord ++ rest) :: ws) =
      r.flag (.setting s) (attached? rest) >>= fun r => r.words ws := by
  obtain ⟨letter, hword, hletter, hof⟩ := s.shortWord_eq
  have hbytes : Word.ofBytes (dash :: letter :: rest) = .short letter rest := by
    simp [Word.ofBytes, hletter]
  rw [hword, words_cons _ (by simp [hletter])]
  simp [word, hbytes, hof]

theorem words_longWord (f : Flag) {rest : Bytes} (h : rest = [] ∨ rest.head? = some equals)
    (ws : List Bytes) :
    r.words ((.ofString f.longWord ++ rest) :: ws) =
      r.flag f (if rest = [] then none else some rest.tail) >>= fun r => r.words ws := by
  rw [words_cons _ (by simp [f.longWord_eq, f.long_ne_nil]), word, Word.ofBytes_longWord f h]
  simp only [Flag.ofLong?_long]

theorem words_setting (s : Setting) (value : Bytes) (spelling : Spelling) (ws : List Bytes) :
    r.words ((Given.setting s value spelling).words ++ ws) =
      r.flag (.setting s) (spelling.attached? value) >>= fun r =>
        r.words (spelling.behind value ++ ws) := by
  cases spelling with
  | shortApart =>
    have hword := words_shortWord r s [] (value :: ws)
    rwa [List.append_nil] at hword
  | shortAttached => exact words_shortWord r s value ws
  | shortEquals => exact words_shortWord r s (equals :: value) ws
  | longApart =>
    have hword := words_longWord r (.setting s) (.inl rfl) (value :: ws)
    rwa [List.append_nil] at hword
  | longEquals => exact words_longWord r (.setting s) (.inr rfl) ws

theorem words_switch (s : Switch) (ws : List Bytes) :
    r.words ((Given.switch s).words ++ ws) =
      r.flag (.switch s) none >>= fun r => r.words ws := by
  have hword := words_longWord r (.switch s) (.inl rfl) ws
  rwa [List.append_nil] at hword

end Reading

/-! ## Values of any kind -/

/-- The line is refused for a fault in it, or what is read is as `P` says. -/
def FaultOr {α : Type} (P : α → Prop) : Except Refusal α → Prop
  | .ok a => P a
  | .error refusal => refusal ≠ .help ∧ refusal ≠ .version

theorem FaultOr.bind {α β : Type} {P : α → Prop} {Q : β → Prop} {x : Except Refusal α}
    {f : α → Except Refusal β} (hx : FaultOr P x) (hf : ∀ a, P a → FaultOr Q (f a)) :
    FaultOr Q (x >>= f) := by
  cases x with
  | error refusal => exact hx
  | ok a => exact hf a hx

theorem FaultOr.imp {α : Type} {P Q : α → Prop} {x : Except Refusal α} (hx : FaultOr P x)
    (h : ∀ a, P a → Q a) : FaultOr Q x := by
  cases x with
  | error refusal => exact hx
  | ok a => exact h a hx

theorem Arguments.set_faultOr (a : Arguments) (s : Setting) (value : Bytes) :
    FaultOr (fun _ => True) (a.set s value) := by
  have hpath : ∀ f : Path → Arguments, FaultOr (fun _ => True) ((pathOf s value).map f) := by
    intro f
    rw [pathOf]
    split
    · exact ⟨by simp, by simp⟩
    · trivial
  have htext : ∀ f : String → Arguments, FaultOr (fun _ => True) ((textOf s value).map f) := by
    intro f
    rw [textOf]
    split
    · trivial
    · exact ⟨by simp, by simp⟩
  cases s with
  | directory => exact hpath _
  | config => exact hpath _
  | extension => exact htext _
  | exclude => exact htext _
  | style => exact htext _
  | label => exact htext _

namespace Reading

variable {r : Reading} {flags : List Flag} {s : Setting} {P : Reading → Prop}

/-- The options that are noted, the last of them first: one that is pending,
and those that are settled, each once. -/
structure Notes (r : Reading) (flags : List Flag) : Prop where
  nodup : r.seen.Nodup
  eq : (r.pending.map fun p => Flag.setting p.1).toList ++ r.seen = flags

/-- The options that are noted, when none of them is pending. -/
structure Settled (r : Reading) (flags : List Flag) : Prop where
  nodup : flags.Nodup
  seen_eq : r.seen = flags
  pending_eq : r.pending = none

theorem notes_start : start.Notes [] := ⟨List.nodup_nil, rfl⟩

theorem Settled.notes (h : r.Settled flags) : r.Notes flags :=
  ⟨h.seen_eq ▸ h.nodup, by simp [h.pending_eq, h.seen_eq]⟩

theorem Settled.notes_pending (h : r.Settled flags) (s : Setting) (value : Option Bytes) :
    Notes { r with pending := some (s, value) } (.setting s :: flags) :=
  ⟨h.seen_eq ▸ h.nodup, by simp [h.seen_eq]⟩

theorem note_faultOr (hr : r.seen.Nodup) (f : Flag) :
    FaultOr (fun q => q.seen = f :: r.seen ∧ q.seen.Nodup ∧ q.pending = r.pending) (r.note f) := by
  rw [note]
  split
  · exact ⟨by simp, by simp⟩
  · next hnew => exact ⟨rfl, List.nodup_cons.mpr ⟨by simpa using hnew, hr⟩, rfl⟩

theorem settle_faultOr (hr : r.Notes flags) : FaultOr (Settled · flags) r.settle := by
  obtain ⟨hnodup, hflags⟩ := hr
  rw [settle]
  split
  · next hpending =>
    have hseen : r.seen = flags := by simpa [hpending] using hflags
    exact ⟨hseen ▸ hnodup, hseen, hpending⟩
  · exact ⟨by simp, by simp⟩
  · next s value hpending =>
    have hseen : .setting s :: r.seen = flags := by simpa [hpending] using hflags
    refine (note_faultOr hnodup (.setting s)).bind fun q ⟨hq, hnew, _⟩ => ?_
    refine (q.given.set_faultOr s value).bind fun a _ => ?_
    exact ⟨by rwa [← hseen, ← hq], hq.trans hseen, rfl⟩

theorem flag_setting_faultOr (hr : r.Notes flags) (s : Setting) (value : Option Bytes) :
    FaultOr (fun q => q.Notes (.setting s :: flags) ∧ (value = none → q.pending = some (s, none)))
      (r.flag (.setting s) value) := by
  cases value with
  | none =>
    refine (settle_faultOr hr).bind fun q hq => ?_
    exact ⟨hq.notes_pending s none, fun _ => rfl⟩
  | some value =>
    refine (settle_faultOr hr).bind fun q hq => ?_
    exact (settle_faultOr (hq.notes_pending s (some value))).imp fun q' hq' =>
      ⟨hq'.notes, fun h => by cases h⟩

theorem flag_switch_faultOr (hr : r.Notes flags) (s : Switch) :
    FaultOr (Notes · (.switch s :: flags)) (r.flag (.switch s) none) := by
  refine (settle_faultOr hr).bind fun q hq => ?_
  refine (note_faultOr hq.notes.nodup (.switch s)).bind fun q' ⟨hq', hnew, hpending⟩ => ?_
  exact ⟨hnew, by simp [hpending, hq.pending_eq, hq', hq.seen_eq]⟩

/-- Where a value is missing, no option is read. -/
theorem flag_of_missing (hpending : r.pending = some (s, none)) (f : Flag)
    (value : Option Bytes) : FaultOr P (r.flag f value) := by
  have hsettle : ∀ k : Reading → Except Refusal Reading, FaultOr P (r.settle >>= k) := by
    intro k
    rw [settle, hpending]
    exact ⟨by simp, by simp⟩
  unfold flag
  split
  · exact hsettle _
  · exact hsettle _
  · exact ⟨by simp, by simp⟩
  · exact hsettle _
  · exact hsettle _
  · exact hsettle _

theorem word_of_missing (hr : r.Notes flags) (hpending : r.pending = some (s, none)) (w : Bytes) :
    FaultOr (Notes · flags) (r.word w) := by
  unfold word
  split
  · split
    · exact flag_of_missing hpending _ _
    · exact ⟨by simp, by simp⟩
  · split
    · exact flag_of_missing hpending _ _
    · exact flag_of_missing hpending _ _
    · exact ⟨by simp, by simp⟩
  · simp only [hpending]
    exact ⟨hr.nodup, by simpa [hpending] using hr.eq⟩

/-- Where a value is missing, a word is the value or a fault: `--` too, since
the line ends there. -/
theorem words_of_missing (hr : r.Notes flags) (hpending : r.pending = some (s, none)) (w : Bytes)
    {ws : List Bytes} (hws : ∀ q : Reading, q.Notes flags → FaultOr P (q.words ws)) :
    FaultOr P (r.words (w :: ws)) := by
  by_cases hw : w = [dash, dash]
  · subst hw
    cases ws with
    | nil =>
      rw [words, if_pos rfl, settle, hpending]
      exact ⟨by simp, by simp⟩
    | cons extra ws =>
      rw [words, if_pos rfl]
      exact ⟨by simp, by simp⟩
  · rw [words_cons r hw]
    exact (word_of_missing hr hpending w).bind hws

/-- An option is noted, whatever its value and its spelling. -/
theorem words_given (hr : r.Notes flags) (g : Given) {ws : List Bytes}
    (hws : ∀ q : Reading, q.Notes (g.flag :: flags) → FaultOr P (q.words ws)) :
    FaultOr P (r.words (g.words ++ ws)) := by
  cases g with
  | switch s =>
    rw [words_switch]
    exact (flag_switch_faultOr hr s).bind hws
  | setting s value spelling =>
    rw [words_setting]
    refine (flag_setting_faultOr hr s _).bind fun q ⟨hq, hpending⟩ => ?_
    cases spelling with
    | shortApart => exact words_of_missing hq (hpending rfl) value hws
    | longApart => exact words_of_missing hq (hpending rfl) value hws
    | shortAttached => exact hws q hq
    | shortEquals => exact hws q hq
    | longEquals => exact hws q hq

/-- A line is refused for a fault in it, or its options are settled at its
end, each once. -/
theorem words_line (hr : r.Notes flags) (line : List Given) :
    FaultOr (Settled · ((line.map Given.flag).reverse ++ flags))
      (r.words (line.flatMap Given.words)) := by
  induction line generalizing r flags with
  | nil => exact settle_faultOr hr
  | cons g line ih =>
    rw [List.map_cons, List.reverse_cons, List.append_assoc]
    exact words_given hr g fun q hq => ih hq

end Reading

end CommentDensity.Command
