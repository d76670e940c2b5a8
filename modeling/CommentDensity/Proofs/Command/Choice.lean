import CommentDensity.Proofs.Command.Spelling
import Mathlib.Data.List.Nodup

/-!
# CommentDensity.Proofs.Command.Choice

Options in any order and any spelling.

What a line of options asks for is a `Choice`, which knows neither order nor
spelling.  Its values come through every spelling (`Value`), so:

* `words_writtenAs` — a choice is read from any line that it is written as,
  since an option changes its own place alone (`onto_apply`);
* `words_of_repeated` — a line that repeats an option is refused for that.
-/

namespace CommentDensity

/-! ## Bytes of a text -/

theorem Bytes.text?_ofString (text : String) : text? (ofString text) = some text := by
  rw [text?, ofString, Array.toArray_toList]
  unfold String.fromUTF8?
  rw [String.toUTF8_eq_toByteArray, dif_pos text.isValidUTF8]
  rfl

/-- The first byte of a character is below 128 only if it is its number. -/
theorem exists_utf8EncodeChar_eq_cons (c : Char) :
    ∃ b bs, String.utf8EncodeChar c = b :: bs ∧ (b.toNat < 128 → b.toNat = c.toNat) := by
  unfold String.utf8EncodeChar
  dsimp only
  split
  · next h =>
    exact ⟨_, _, rfl, fun _ => UInt8.toNat_ofNat_of_lt' (Nat.lt_of_le_of_lt h (by decide))⟩
  · split
    · exact ⟨_, _, rfl, fun h => by simp at h; omega⟩
    · split
      · exact ⟨_, _, rfl, fun h => by simp at h; omega⟩
      · exact ⟨_, _, rfl, fun h => by simp at h; omega⟩

theorem Bytes.ofString_eq_cons {text : String} (h : text ≠ "") :
    ∃ c b bs, text.toList.head? = some c ∧ ofString text = b :: bs ∧
      (b.toNat < 128 → b.toNat = c.toNat) := by
  obtain ⟨cs, rfl⟩ : ∃ cs, text = String.ofList cs := ⟨text.toList, String.ofList_toList.symm⟩
  cases cs with
  | nil => exact absurd rfl h
  | cons c cs =>
    obtain ⟨b, bs, hc, hb⟩ := exists_utf8EncodeChar_eq_cons c
    refine ⟨c, b, bs ++ ofString (String.ofList cs), by simp, ?_, hb⟩
    simp [ofString, List.utf8Encode, hc]

namespace Command

/-! ## Choices -/

/-- A value that comes through every spelling: a text that is not empty and
begins with neither a dash nor `=`. -/
structure Value where
  text : String
  ne_empty : text ≠ ""
  not_dash : text.toList.head? ≠ some '-'
  not_equals : text.toList.head? ≠ some '='
  deriving DecidableEq

/-- The value as bytes. -/
def Value.bytes (v : Value) : Bytes := .ofString v.text

theorem Value.bytes_eq_cons (v : Value) :
    ∃ b bs, v.bytes = b :: bs ∧ b ≠ dash ∧ b ≠ equals := by
  obtain ⟨c, b, bs, hhead, hbytes, hb⟩ := Bytes.ofString_eq_cons v.ne_empty
  refine ⟨b, bs, hbytes, ?_, ?_⟩
  · rintro rfl
    have hc : c = '-' := Char.toNat_inj.mp (hb (by decide)).symm
    exact v.not_dash (hc ▸ hhead)
  · rintro rfl
    have hc : c = '=' := Char.toNat_inj.mp (hb (by decide)).symm
    exact v.not_equals (hc ▸ hhead)

/-- What is chosen of the options: values for some of the settings, and some
of the switches. -/
structure Choice where
  value : Setting → Option Value
  on : Switch → Bool

namespace Choice

/-- What is asked for by a choice: its values, each in its place, and the
defaults elsewhere. -/
def arguments (c : Choice) : Arguments where
  directory := ((c.value .directory).map fun v => Path.ofString v.text).getD (.ofString ".")
  extension := (c.value .extension).map Value.text
  exclude := ((c.value .exclude).map Value.text).getD ""
  style := ((c.value .style).map fun v => Style.ofSelector v.text).getD .fsharp
  label := (c.value .label).map Value.text
  config := (c.value .config).map fun v => Path.ofString v.text
  sumDirectories := c.on .sumDirectories
  skipHidden := c.on .skipHidden
  tree := c.on .tree

/-- Whether an option is chosen. -/
def has (c : Choice) : Flag → Bool
  | .setting s => (c.value s).isSome
  | .switch s => c.on s
  | .help => false
  | .version => false

/-- Whether an option is given as it is chosen. -/
def Gives (c : Choice) : Given → Prop
  | .setting s value _ => (c.value s).map Value.bytes = some value
  | .switch s => c.on s = true

/-- The line gives what is chosen and nothing else, each option once, in
whatever order and spelling. -/
structure WrittenAs (c : Choice) (line : List Given) : Prop where
  once : (line.map Given.flag).Nodup
  gives : ∀ g ∈ line, c.Gives g
  given : ∀ f, c.has f = true → f ∈ line.map Given.flag

/-- The choice in place of what is asked for otherwise. -/
def onto (c : Choice) (a : Arguments) : Arguments where
  directory := ((c.value .directory).map fun v => Path.ofString v.text).getD a.directory
  extension := ((c.value .extension).map Value.text).or a.extension
  exclude := ((c.value .exclude).map Value.text).getD a.exclude
  style := ((c.value .style).map fun v => Style.ofSelector v.text).getD a.style
  label := ((c.value .label).map Value.text).or a.label
  config := ((c.value .config).map fun v => Path.ofString v.text).or a.config
  sumDirectories := c.on .sumDirectories || a.sumDirectories
  skipHidden := c.on .skipHidden || a.skipHidden
  tree := c.on .tree || a.tree

/-- The choice without an option. -/
def without (c : Choice) (f : Flag) : Choice where
  value := fun s => if .setting s = f then none else c.value s
  on := fun s => c.on s && decide (.switch s ≠ f)

variable {c : Choice} {line : List Given}

theorem onto_initial (c : Choice) : c.onto .initial = c.arguments := by
  simp [onto, arguments, Arguments.initial, default]

theorem onto_of_none (h : ∀ f, c.has f = false) (a : Arguments) : c.onto a = a := by
  have hvalue : ∀ s, c.value s = none := fun s => by simpa [has] using h (.setting s)
  have hon : ∀ s, c.on s = false := fun s => h (.switch s)
  simp [onto, hvalue, hon]

theorem WrittenAs.flag_ne {g : Given} (h : c.WrittenAs (g :: line)) {g' : Given} (hg' : g' ∈ line) :
    g'.flag ≠ g.flag := by
  intro hsame
  exact (List.nodup_cons.mp h.once).1 (hsame ▸ List.mem_map_of_mem hg')

/-- What is left of a line behind its first option is what is left of the
choice without that option. -/
theorem WrittenAs.tail {g : Given} (h : c.WrittenAs (g :: line)) :
    (c.without g.flag).WrittenAs line := by
  refine ⟨(List.nodup_cons.mp h.once).2, fun g' hg' => ?_, fun f hf => ?_⟩
  · have hgives := h.gives g' (List.mem_cons_of_mem g hg')
    have hne := h.flag_ne hg'
    cases g' with
    | setting s value spelling =>
      have hs : Flag.setting s ≠ g.flag := hne
      simpa [Gives, without, hs] using hgives
    | switch s =>
      have hs : Flag.switch s ≠ g.flag := hne
      simpa [Gives, without, hs] using hgives
  · have hne : f ≠ g.flag := by
      rintro rfl
      cases hg : g.flag <;> simp [has, without, hg] at hf
    have hc : c.has f = true := by
      cases f <;> simp_all [has, without]
    exact (List.mem_cons.mp (h.given f hc)).resolve_left hne

end Choice

/-! ## Values that come through -/

/-- Puts a value in its place. -/
def Arguments.assign (a : Arguments) (v : Value) : Setting → Arguments
  | .directory => { a with directory := .ofString v.text }
  | .extension => { a with extension := some v.text }
  | .exclude => { a with exclude := v.text }
  | .style => { a with style := .ofSelector v.text }
  | .label => { a with label := some v.text }
  | .config => { a with config := some (.ofString v.text) }

theorem Arguments.set_bytes (a : Arguments) (s : Setting) (v : Value) :
    a.set s v.bytes = .ok (a.assign v s) := by
  have hpath : pathOf s v.bytes = .ok (.ofString v.text) := by
    obtain ⟨b, bs, hv, _⟩ := v.bytes_eq_cons
    rw [pathOf, if_neg (by simp [hv])]
    rfl
  have htext : textOf s v.bytes = .ok v.text := by
    rw [textOf, Value.bytes, Bytes.text?_ofString]
  cases s with
  | directory => rw [set, hpath]; rfl
  | config => rw [set, hpath]; rfl
  | extension => rw [set, htext]; rfl
  | exclude => rw [set, htext]; rfl
  | style => rw [set, htext]; rfl
  | label => rw [set, htext]; rfl

namespace Given

/-- Whether the value that is given, if one is, comes through. -/
def Fits : Given → Prop
  | .setting _ value _ => ∃ v : Value, v.bytes = value
  | .switch _ => True

/-- What is asked for when the option is taken in. -/
def apply (a : Arguments) : Given → Except Refusal Arguments
  | .setting s value _ => a.set s value
  | .switch s => .ok (a.turnOn s)

variable {c : Choice} {g : Given}

theorem fits_of_gives (h : c.Gives g) : g.Fits := by
  cases g with
  | setting s value spelling =>
    obtain ⟨v, _, hv⟩ := Option.map_eq_some_iff.mp h
    exact ⟨v, hv⟩
  | switch s => trivial

theorem exists_apply (hg : g.Fits) (a : Arguments) : ∃ a', g.apply a = .ok a' := by
  cases g with
  | switch s => exact ⟨_, rfl⟩
  | setting s value spelling =>
    obtain ⟨v, rfl⟩ := hg
    exact ⟨_, a.set_bytes s v⟩

/-- An option changes its own place alone. -/
theorem onto_apply (hg : c.Gives g) {a a' : Arguments} (h : g.apply a = .ok a') :
    (c.without g.flag).onto a' = c.onto a := by
  cases g with
  | switch s =>
    cases h
    have hs : c.on s = true := hg
    cases s <;> simp [Choice.onto, Choice.without, Arguments.turnOn, flag, hs]
  | setting s value spelling =>
    obtain ⟨v, hv, rfl⟩ := Option.map_eq_some_iff.mp hg
    rw [apply, Arguments.set_bytes] at h
    cases h
    cases s <;> simp [Choice.onto, Choice.without, Arguments.assign, flag, hv]

end Given

/-- A line without repetition is how some choice is written, if its values
come through. -/
theorem Choice.exists_writtenAs {line : List Given} (hline : ∀ g ∈ line, g.Fits)
    (hnodup : (line.map Given.flag).Nodup) : ∃ c : Choice, c.WrittenAs line := by
  classical
  let found (s : Setting) (v : Value) : Prop := ∃ spelling, .setting s v.bytes spelling ∈ line
  refine ⟨⟨fun s => if h : ∃ v, found s v then some h.choose else none,
    fun s => decide (.switch s ∈ line)⟩, hnodup, fun g hg => ?_, fun f hf => ?_⟩
  · cases g with
    | switch s => simpa [Gives] using hg
    | setting s value spelling =>
      obtain ⟨v, rfl⟩ := hline _ hg
      have hfound : ∃ v, found s v := ⟨v, spelling, hg⟩
      obtain ⟨spelling', hg'⟩ := hfound.choose_spec
      -- the option is given once, so the value that is found is this one
      have hsame := List.inj_on_of_nodup_map hnodup hg' hg rfl
      have hbytes : hfound.choose.bytes = v.bytes := (Given.setting.inj hsame).2.1
      simp [Gives, hfound, hbytes]
  · cases f with
    | setting s =>
      have hfound : ∃ v, found s v := by
        by_contra hnone
        simp [has, hnone] at hf
      obtain ⟨v, spelling, hg⟩ := hfound
      exact List.mem_map_of_mem (f := Given.flag) hg
    | switch s => exact List.mem_map_of_mem (f := Given.flag) (by simpa [has] using hf)
    | help => cases hf
    | version => cases hf

namespace Reading

variable {r q : Reading} {g : Given} {a : Arguments} {s : Setting} {value : Bytes}

/-- A value that comes through is taken from every spelling: at once if it is
attached, and else when the reader settles. -/
theorem words_value (hr : r.settle = .ok q) (s : Setting) (v : Value) (spelling : Spelling)
    (ws : List Bytes) :
    r.words ((Given.setting s v.bytes spelling).words ++ ws) =
        (settle { q with pending := some (s, some v.bytes) } >>= fun r => r.words ws) ∨
      r.words ((Given.setting s v.bytes spelling).words ++ ws) =
        words { q with pending := some (s, some v.bytes) } ws := by
  obtain ⟨b, bs, hv, hdash, hequals⟩ := v.bytes_eq_cons
  have hattached : r.flag (.setting s) (some v.bytes) =
      settle { q with pending := some (s, some v.bytes) } := by
    rw [flag, hr]
    rfl
  have happart : r.flag (.setting s) none >>= (fun r => r.words (v.bytes :: ws)) =
      words { q with pending := some (s, some v.bytes) } ws := by
    have hplain : Word.ofBytes v.bytes = .plain := by
      rw [hv]
      cases bs <;> simp [Word.ofBytes, hdash]
    have hword : v.bytes ≠ [dash, dash] := by simp [hv, hdash]
    rw [flag, hr]
    show words { q with pending := some (s, none) } (v.bytes :: ws) = _
    rw [words_cons _ hword, word, hplain]
    rfl
  rw [words_setting]
  cases spelling with
  | shortApart => exact .inr happart
  | longApart => exact .inr happart
  | shortAttached =>
    have hvalue : Spelling.shortAttached.attached? v.bytes = some v.bytes := by
      simp [Spelling.attached?, attached?, hv, hequals]
    rw [hvalue, hattached]
    exact .inl rfl
  | shortEquals => exact .inl (by rw [Spelling.attached?, hattached]; rfl)
  | longEquals => exact .inl (by rw [Spelling.attached?, hattached]; rfl)

theorem settle_new (hnew : .setting s ∉ q.seen) (ha : q.given.set s value = .ok a) :
    settle { q with pending := some (s, some value) } = .ok ⟨a, .setting s :: q.seen, none⟩ := by
  simp [settle, note, hnew, ha, bind, Except.bind, pure, Except.pure]

theorem settle_repeated (hold : .setting s ∈ q.seen) :
    settle { q with pending := some (s, some value) } = .error (.repeated (.setting s)) := by
  simp [settle, note, hold, bind, Except.bind]

/-- An option that has not been given yet is taken in. -/
theorem words_new (hr : r.settle = .ok q) (hpending : q.pending = none) (hg : g.Fits)
    (hnew : g.flag ∉ q.seen) (ha : g.apply q.given = .ok a) (ws : List Bytes) :
    ∃ r', r.words (g.words ++ ws) = words r' ws ∧
      r'.settle = .ok ⟨a, g.flag :: q.seen, none⟩ := by
  cases g with
  | switch s =>
    have hflag : r.flag (.switch s) none = .ok ⟨a, .switch s :: q.seen, none⟩ := by
      cases ha
      have hs : Flag.switch s ∉ q.seen := hnew
      simp [flag, hr, note, hs, hpending, bind, Except.bind, pure, Except.pure]
    refine ⟨⟨a, .switch s :: q.seen, none⟩, ?_, rfl⟩
    rw [words_switch, hflag]
    rfl
  | setting s value spelling =>
    obtain ⟨v, rfl⟩ := hg
    have hsettle := settle_new hnew ha
    obtain hwords | hwords := words_value hr s v spelling ws
    · refine ⟨⟨a, .setting s :: q.seen, none⟩, ?_, rfl⟩
      rw [hwords, hsettle]
      rfl
    · exact ⟨_, hwords, hsettle⟩

/-- A fault that is found in settling comes before any in the rest of the
line. -/
theorem words_of_settle_error {refusal : Refusal} (hr : r.settle = .error refusal)
    (line : List Given) : r.words (line.flatMap Given.words) = .error refusal := by
  cases line with
  | nil => exact hr
  | cons g line =>
    rw [List.flatMap_cons]
    cases g with
    | switch s =>
      rw [words_switch, flag, hr]
      rfl
    | setting s value spelling =>
      rw [words_setting]
      cases spelling.attached? value with
      | none => rw [flag, hr]; rfl
      | some value => rw [flag, hr]; rfl

/-- An option that has been given before ends the reading. -/
theorem words_repeated (hr : r.settle = .ok q) (hg : g.Fits) (hold : g.flag ∈ q.seen)
    (line : List Given) :
    r.words (g.words ++ line.flatMap Given.words) = .error (.repeated g.flag) := by
  cases g with
  | switch s =>
    have hs : Flag.switch s ∈ q.seen := hold
    have hflag : r.flag (.switch s) none = .error (.repeated (.switch s)) := by
      simp [flag, hr, note, hs, bind, Except.bind]
    rw [words_switch, hflag]
    rfl
  | setting s value spelling =>
    obtain ⟨v, rfl⟩ := hg
    have hsettle : settle { q with pending := some (s, some v.bytes) } =
        .error (.repeated (.setting s)) := settle_repeated hold
    obtain hwords | hwords := words_value hr s v spelling (line.flatMap Given.words)
    · rw [hwords, hsettle]
      rfl
    · rw [hwords]
      exact words_of_settle_error hsettle line

/-- A choice is read from any line that it is written as. -/
theorem words_writtenAs {c : Choice} {line : List Given} (h : c.WrittenAs line)
    (hr : r.settle = .ok q) (hpending : q.pending = none)
    (hnew : ∀ g ∈ line, g.flag ∉ q.seen) :
    ∃ q', r.words (line.flatMap Given.words) = .ok q' ∧ q'.given = c.onto q.given := by
  -- what is left of the choice is put over what the front of the line asks for
  induction line generalizing c r q with
  | nil =>
    have hnone : ∀ f, c.has f = false := by
      intro f
      by_contra hf
      simpa using h.given f (by simpa using hf)
    exact ⟨q, hr, (c.onto_of_none hnone q.given).symm⟩
  | cons g line ih =>
    have hgives : c.Gives g := h.gives g List.mem_cons_self
    have hg : g.Fits := Given.fits_of_gives hgives
    obtain ⟨a, ha⟩ := Given.exists_apply hg q.given
    obtain ⟨r', hwords, hr'⟩ := words_new hr hpending hg (hnew g List.mem_cons_self) ha
      (line.flatMap Given.words)
    have hlater : ∀ g' ∈ line, g'.flag ∉ g.flag :: q.seen := by
      intro g' hg' hmem
      obtain hsame | hold := List.mem_cons.mp hmem
      · exact h.flag_ne hg' hsame
      · exact hnew g' (List.mem_cons_of_mem g hg') hold
    obtain ⟨q', hq', hgiven⟩ := ih h.tail hr' rfl hlater
    exact ⟨q', by rw [List.flatMap_cons, hwords, hq'], by rw [hgiven, Given.onto_apply hgives ha]⟩

/-- Where values come through, a line that repeats an option is refused for
that. -/
theorem words_of_repeated {line : List Given} (hline : ∀ g ∈ line, g.Fits)
    (hr : r.settle = .ok q) (hpending : q.pending = none) (hseen : q.seen.Nodup)
    (h : ¬ (line.map Given.flag ++ q.seen).Nodup) :
    ∃ f, r.words (line.flatMap Given.words) = .error (.repeated f) ∧
      2 ≤ (line.map Given.flag ++ q.seen).count f := by
  induction line generalizing r q with
  | nil => exact absurd hseen h
  | cons g line ih =>
    have hg : g.Fits := hline g List.mem_cons_self
    rw [List.flatMap_cons]
    by_cases hold : g.flag ∈ q.seen
    · refine ⟨g.flag, words_repeated hr hg hold line, ?_⟩
      have hone : 1 ≤ q.seen.count g.flag := List.one_le_count_iff.mpr hold
      simp
      omega
    · obtain ⟨a, ha⟩ := Given.exists_apply hg q.given
      obtain ⟨r', hwords, hr'⟩ := words_new hr hpending hg hold ha (line.flatMap Given.words)
      have hmiddle : (g.flag :: (line.map Given.flag ++ q.seen)).Perm
          (line.map Given.flag ++ g.flag :: q.seen) := List.perm_middle.symm
      obtain ⟨f, herror, hcount⟩ := ih (fun g' hg' => hline g' (List.mem_cons_of_mem g hg')) hr' rfl
        (List.nodup_cons.mpr ⟨hold, hseen⟩) (fun hnodup => h (hmiddle.nodup_iff.mpr hnodup))
      refine ⟨f, by rw [hwords, herror], ?_⟩
      rwa [List.map_cons, List.cons_append, hmiddle.count_eq]

end Reading

/-- **Options in any order and spelling.**  A line that gives the options of a
choice, each once, asks for that choice, whatever their order and spelling:
each value stands in its place, and every other place has its default.  Every
line of such values without repetition is one of these.  A line that repeats
an option is refused for a fault in it, whatever the values; if they come
through every spelling, the fault is that an option is repeated. -/
theorem parse_options :
    (∀ (c : Choice) (line : List Given), c.WrittenAs line →
      Arguments.parse (line.flatMap Given.words) = .ok c.arguments) ∧
    (∀ line : List Given, (∀ g ∈ line, g.Fits) → (line.map Given.flag).Nodup →
      ∃ c : Choice, c.WrittenAs line) ∧
    (∀ line : List Given, ¬ (line.map Given.flag).Nodup →
      ∃ refusal, Arguments.parse (line.flatMap Given.words) = .error refusal ∧
        refusal ≠ .help ∧ refusal ≠ .version ∧
        ((∀ g ∈ line, g.Fits) →
          ∃ f, refusal = .repeated f ∧ 2 ≤ (line.map Given.flag).count f)) := by
  refine ⟨fun c line h => ?_, fun line hfits hnodup => Choice.exists_writtenAs hfits hnodup,
    fun line hrepeated => ?_⟩
  · obtain ⟨q, hq, hgiven⟩ :=
      Reading.words_writtenAs h (r := .start) rfl rfl (by simp [Reading.start])
    rw [Arguments.parse, hq]
    exact congrArg Except.ok (hgiven.trans c.onto_initial)
  · have hline := Reading.words_line Reading.notes_start line
    rw [Arguments.parse]
    cases hwords : Reading.start.words (line.flatMap Given.words) with
    | ok q =>
      rw [hwords] at hline
      have hsettled : q.Settled ((line.map Given.flag).reverse ++ []) := hline
      exact absurd (by simpa using hsettled.nodup) hrepeated
    | error refusal =>
      rw [hwords] at hline
      refine ⟨refusal, rfl, hline.1, hline.2, fun hfits => ?_⟩
      obtain ⟨f, herror, hcount⟩ := Reading.words_of_repeated hfits (r := .start) rfl rfl
        List.nodup_nil (by simpa [Reading.start] using hrepeated)
      rw [hwords] at herror
      exact ⟨f, Except.error.inj herror, by simpa [Reading.start] using hcount⟩

/-- Values that look like options and lists. -/
def crowdedChoice : Choice where
  value
    | .directory => some ⟨"a=--tree, d", by decide, by decide, by decide⟩
    | .style => some ⟨"c-x", by decide, by decide, by decide⟩
    | _ => none
  on s := s == .skipHidden

/-- A line that gives them. -/
def crowdedLine : List Given :=
  [.setting .style (.ofString "c-x") .shortAttached, .switch .skipHidden,
    .setting .directory (.ofString "a=--tree, d") .longApart]

/-- The values are read from the line, which is refused when the switch is given
once more. -/
theorem parse_options_crowdedLine :
    crowdedChoice.WrittenAs crowdedLine ∧
      crowdedLine.flatMap Given.words =
        ["-sc-x", "--skip-hidden", "--directory", "a=--tree, d"].map Bytes.ofString ∧
      Arguments.parse (crowdedLine.flatMap Given.words) = .ok
        { Arguments.initial with
          directory := .ofString "a=--tree, d", style := .csharp, skipHidden := true } ∧
      ¬ ((.switch .skipHidden :: crowdedLine).map Given.flag).Nodup ∧
      ∃ f, Arguments.parse ((.switch .skipHidden :: crowdedLine).flatMap Given.words) =
        .error (.repeated f) := by
  have hwritten : crowdedChoice.WrittenAs crowdedLine := by
    refine ⟨by decide, ?_, ?_⟩
    · simp [crowdedLine, Choice.Gives, crowdedChoice, Value.bytes]
    · intro f
      cases f with
      | setting s => cases s <;> decide
      | switch s => cases s <;> decide
      | help => decide
      | version => decide
  have hfits : ∀ g ∈ Given.switch .skipHidden :: crowdedLine, g.Fits := by
    intro g hg
    obtain rfl | hg := List.mem_cons.mp hg
    · trivial
    · exact Given.fits_of_gives (hwritten.gives g hg)
  have hrepeated : ¬ ((.switch .skipHidden :: crowdedLine).map Given.flag).Nodup := by decide
  obtain ⟨refusal, hrefusal, _, _, hreason⟩ := parse_options.2.2 _ hrepeated
  obtain ⟨f, rfl, _⟩ := hreason hfits
  exact ⟨hwritten, by decide +kernel, parse_options.1 crowdedChoice crowdedLine hwritten,
    hrepeated, f, hrefusal⟩

end Command

end CommentDensity
