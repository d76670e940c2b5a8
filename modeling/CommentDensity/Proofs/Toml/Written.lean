import CommentDensity.Toml.Document
import CommentDensity.Proofs.Text.Split

/-!
# CommentDensity.Proofs.Toml.Written

Reading TOML texts that were written, one line for each statement.

A string in quotes may be spelled in many ways: each of its characters as it
stands, by a letter behind a backslash, or by its number (`Spells`).  Values
are such strings, arrays of them, and booleans (`Value.Written`).  A line gives
a bare key its value or opens a row (`Statement.Written`).

Every reader takes off the front of a text what was written there and leaves
the rest, as long as the rest cannot be taken for more of it.
-/

namespace CommentDensity.Toml

/-! ## Strings -/

/-- The number that digits write, behind those that wrote `value`. -/
def hexValue (value : Nat) (digits : List Nat) : Nat := digits.foldl (fun n d => n * 16 + d) value

/-- The ways to write a character in double quotes. -/
inductive Spells (c : Char) : List Char → Prop where
  | plain : isPlain c = true → c ≠ '"' → c ≠ '\\' → Spells c [c]
  | letter (letter : Char) : escape? letter = some (.character c) → Spells c ['\\', letter]
  | number (letter : Char) (text : List Char) (digits : List Nat) :
      escape? letter = some (.number text.length) → text.map hexDigit? = digits.map some →
      hexValue 0 digits = c.toNat → Spells c ('\\' :: letter :: text)

/-- The ways to write characters, one after the other. -/
inductive SpellsAll : List Char → List Char → Prop where
  | nil : SpellsAll [] []
  | cons {c : Char} {cs piece text : List Char} : Spells c piece → SpellsAll cs text →
      SpellsAll (c :: cs) (piece ++ text)

/-- The ways to write a string in double quotes. -/
inductive Quotes (s : String) : List Char → Prop where
  | mk {text : List Char} : SpellsAll s.toList text → Quotes s ('"' :: text ++ ['"'])

/-- A character as `quote` writes it. -/
theorem spells_escaped (c : Char) : Spells c (escaped c) := by
  unfold escaped
  split
  · next h => exact h ▸ .letter '"' rfl
  · next hquote =>
    split
    · next h => exact h ▸ .letter '\\' rfl
    · next hbackslash =>
      split
      · next h => exact .plain (by simp [isPlain, h.1, h.2]) hquote hbackslash
      · next h =>
        have hsmall : c.toNat < 128 := by
          by_cases hdelete : c = '\x7f'
          · rw [hdelete]
            decide
          · have hcontrol : ¬32 ≤ c.toNat := fun hle => h ⟨hle, hdelete⟩
            omega
        refine .number 'u' _ [0, 0, c.toNat / 16, c.toNat % 16] rfl ?_ ?_
        · have hhigh := hexDigit?_digitChar (d := c.toNat / 16) (by omega)
          have hlow := hexDigit?_digitChar (d := c.toNat % 16) (by omega)
          simp only [List.map_cons, List.map_nil, hhigh, hlow]
          rfl
        · simp only [hexValue, List.foldl_cons, List.foldl_nil]
          omega

/-- A string as `quote` writes it. -/
theorem quotes_quote (s : String) : Quotes s (quote s) := by
  have hall : ∀ cs : List Char, SpellsAll cs (cs.flatMap escaped) := by
    intro cs
    induction cs with
    | nil => exact .nil
    | cons c cs ih => exact .cons (spells_escaped c) ih
  exact .mk (hall s.toList)

theorem rest_digits (form : Form) {text : List Char} {digits : List Nat} {c : Char} {value : Nat}
    (hdigits : text.map hexDigit? = digits.map some) (hne : text ≠ [])
    (hc : character? (hexValue value digits) = some c) (before r : List Char) :
    form.rest (.number value text.length) before (text ++ r) = form.rest .plain (c :: before) r := by
  induction text generalizing value digits with
  | nil => exact absurd rfl hne
  | cons digit text ih =>
    cases digits with
    | nil => cases hdigits
    | cons d digits =>
      obtain ⟨hd, hrest⟩ := List.cons.inj hdigits
      cases text with
      | nil =>
        cases digits with
        | nil => exact rest_lastDigit form hd hc before r
        | cons d' digits => cases hrest
      | cons digit' text =>
        exact (rest_digit form hd value text.length before _).trans
          (ih hrest (List.cons_ne_nil _ _) hc)

theorem escape?_number_pos {letter : Char} {digits : Nat}
    (h : escape? letter = some (.number digits)) : 0 < digits := by
  unfold escape? at h
  split at h <;> simp_all <;> omega

/-- A character is read, however it is spelled. -/
theorem rest_spelled {c : Char} {piece : List Char} (h : Spells c piece) (before r : List Char) :
    Form.rest ⟨true, false⟩ .plain before (piece ++ r) =
      Form.rest ⟨true, false⟩ .plain (c :: before) r := by
  cases h with
  | plain hplain hquote hbackslash => exact rest_plain _ hquote hbackslash hplain before r
  | letter letter hletter => exact rest_escape hletter before r
  | number letter text digits hletter hdigits hvalue =>
    have hne : text ≠ [] := by
      rintro rfl
      exact absurd (escape?_number_pos hletter) (Nat.lt_irrefl 0)
    have hc : character? (hexValue 0 digits) = some c := hvalue ▸ character?_toNat c
    have hstart : Form.rest ⟨true, false⟩ .plain before ('\\' :: letter :: text ++ r) =
        Form.rest ⟨true, false⟩ (.number 0 text.length) before (text ++ r) := by
      have hmove : Form.move ⟨true, false⟩ letter (text ++ r) .escaped =
          some (.on none (.number 0 text.length)) := by
        rw [Form.move, hletter]
      have hbackslash : Form.move ⟨true, false⟩ '\\' (letter :: (text ++ r)) .plain =
          some (.on none .escaped) := rfl
      simp only [List.cons_append, Form.rest, hbackslash, hmove, Option.toList_none,
        List.nil_append]
    rw [hstart, rest_digits _ hdigits hne hc]

theorem rest_spelledAll {cs text : List Char} (h : SpellsAll cs text) (before r : List Char) :
    Form.rest ⟨true, false⟩ .plain before (text ++ '"' :: r) =
      some (String.ofList (before.reverse ++ cs), r) := by
  induction h generalizing before with
  | nil => simp [Form.rest, Form.move, Form.plainMove, Form.quote, Form.quoteMove]
  | cons hc _ ih => rw [List.append_assoc, rest_spelled hc, ih]; simp

theorem head?_spelledAll {cs text : List Char} (h : SpellsAll cs text) : text.head? ≠ some '"' := by
  cases h with
  | nil => simp
  | cons hc _ => cases hc <;> simp_all

/-- A string in quotes is read, unless another quote follows. -/
theorem string?_written {s : String} {text : List Char} (h : Quotes s text) {r : List Char}
    (hr : r.head? ≠ some '"') : string? (text ++ r) = some (s, r) := by
  obtain @⟨inside, hinside⟩ := h
  have hline : lineString? ('"' :: (inside ++ '"' :: r)) = some (s, r) := by
    rw [lineString?, rest_spelledAll hinside]
    simp
  have hstring : string? ('"' :: (inside ++ '"' :: r)) = lineString? ('"' :: (inside ++ '"' :: r)) := by
    have hhead := head?_spelledAll hinside
    unfold string?
    split
    · next r' heq =>
      -- three quotes: the first two end the string, so the third would follow
      obtain ⟨_, heq⟩ := List.cons.inj heq
      cases inside with
      | nil => simp_all
      | cons c inside => simp_all
    · next heq => simp at heq
    · rfl
  have htext : '"' :: inside ++ ['"'] ++ r = '"' :: (inside ++ '"' :: r) := by simp
  rw [htext, hstring, hline]

/-! ## Values -/

/-- The ways to write strings with commas between them. -/
inductive QuotesAll : List String → List Char → Prop where
  | nil : QuotesAll [] []
  | one {s : String} {text : List Char} : Quotes s text → QuotesAll [s] text
  | cons {s s' : String} {ss : List String} {text more : List Char} : Quotes s text →
      QuotesAll (s' :: ss) more → QuotesAll (s :: s' :: ss) (text ++ ',' :: ' ' :: more)

/-- The array of some strings. -/
def Value.ofStrings (ss : List String) : Value := .array (ss.map .string)

/-- The ways to write a value. -/
inductive Value.Written : Value → List Char → Prop where
  | string {s : String} {text : List Char} : Quotes s text → Written (.string s) text
  | strings {ss : List String} {text : List Char} : QuotesAll ss text →
      Written (.ofStrings ss) ('[' :: text ++ [']'])
  | true : Written (.boolean true) ['t', 'r', 'u', 'e']
  | false : Written (.boolean false) ['f', 'a', 'l', 's', 'e']

theorem exists_quotesAll (ss : List String) : ∃ text, QuotesAll ss text := by
  induction ss with
  | nil => exact ⟨[], .nil⟩
  | cons s ss ih =>
    cases ss with
    | nil => exact ⟨_, .one (quotes_quote s)⟩
    | cons s' ss =>
      obtain ⟨more, hmore⟩ := ih
      exact ⟨_, .cons (quotes_quote s) hmore⟩

theorem quotes_eq_cons {s : String} {text : List Char} (h : Quotes s text) :
    ∃ inside, text = '"' :: inside := by
  cases h
  exact ⟨_, rfl⟩

theorem quotesAll_eq_cons {s : String} {ss : List String} {text : List Char}
    (h : QuotesAll (s :: ss) text) : ∃ inside, text = '"' :: inside := by
  cases h with
  | one h => exact quotes_eq_cons h
  | cons h _ =>
    obtain ⟨inside, rfl⟩ := quotes_eq_cons h
    exact ⟨_, rfl⟩

theorem value?_quoted {s : String} {text : List Char} (h : Quotes s text) {r : List Char}
    (hr : r.head? ≠ some '"') (limit depth : Nat) :
    value? limit depth (text ++ r) = some (.string s, r) := by
  have hstring := string?_written h hr
  obtain ⟨inside, rfl⟩ := quotes_eq_cons h
  have hatom : value? limit depth ('"' :: inside ++ r) = atom? ('"' :: inside ++ r) := by
    cases depth <;> rfl
  rw [hatom, atom?, if_pos (.inl rfl), hstring]
  rfl

/-- Strings in an array are read up to its end. -/
theorem series_quoted {ss : List String} {text : List Char} (h : QuotesAll ss text)
    {limit : Nat} (hlimit : ss.length < limit) {cs r : List Char} (before : List Value)
    (hcs : gap false cs = some (text ++ ']' :: r)) (width depth : Nat) :
    series (value? width depth) ']' limit before cs =
      some (before.reverse ++ ss.map .string, r) := by
  induction h generalizing limit cs before with
  | nil =>
    obtain ⟨limit, rfl⟩ : ∃ n, limit = n + 1 := ⟨limit - 1, by omega⟩
    simp [series, hcs]
  | @one s text hs =>
    obtain ⟨limit, rfl⟩ : ∃ n, limit = n + 1 := ⟨limit - 1, by omega⟩
    have hitem := value?_quoted hs (r := ']' :: r) (by simp) width depth
    obtain ⟨inside, rfl⟩ := quotes_eq_cons hs
    have hend : gap false (']' :: r) = some (']' :: r) := rfl
    simp_all [series]
  | @cons s s' ss text more hs hmore ih =>
    obtain ⟨limit, rfl⟩ : ∃ n, limit = n + 1 := ⟨limit - 1, by omega⟩
    have hitem := value?_quoted hs (r := ',' :: ' ' :: more ++ ']' :: r) (by simp) width depth
    have hgap : gap false (' ' :: more ++ ']' :: r) = some (more ++ ']' :: r) := by
      obtain ⟨inside, rfl⟩ := quotesAll_eq_cons hmore
      rfl
    have hlength : (s' :: ss).length < limit := by simpa using hlimit
    have hrest := ih hlength (.string s :: before) hgap
    obtain ⟨inside, rfl⟩ := quotes_eq_cons hs
    have hcomma : gap false (',' :: ' ' :: more ++ ']' :: r) =
      some (',' :: ' ' :: more ++ ']' :: r) := rfl
    simp_all [series]

theorem length_le_of_quotesAll {ss : List String} {text : List Char} (h : QuotesAll ss text) :
    ss.length ≤ text.length := by
  induction h with
  | nil => exact Nat.le_refl 0
  | one hs =>
    obtain ⟨inside, rfl⟩ := quotes_eq_cons hs
    simp
  | cons hs _ ih => simp at ih ⊢; omega

/-- A value at the end of a line is read. -/
theorem value?_written {v : Value} {text : List Char} (h : v.Written text) {limit : Nat}
    (hlimit : text.length < limit) (depth : Nat) (r : List Char) :
    value? limit (depth + 1) (text ++ '\n' :: r) = some (v, '\n' :: r) := by
  cases h with
  | string hs => exact value?_quoted hs (by simp) limit (depth + 1)
  | @strings ss text hss =>
    have hlength := length_le_of_quotesAll hss
    have hfit : ss.length < limit := by simp at hlimit; omega
    have hgap : gap false (text ++ ']' :: '\n' :: r) = some (text ++ ']' :: '\n' :: r) := by
      cases ss with
      | nil => cases hss; rfl
      | cons s ss => obtain ⟨inside, rfl⟩ := quotesAll_eq_cons hss; rfl
    have hseries := series_quoted hss hfit [] hgap limit depth
    simp [value?, hseries, Value.ofStrings]
  | true => rfl
  | false => rfl

/-! ## Lines -/

/-- A key that needs no quotes. -/
structure BareKey (key : String) : Prop where
  ne_nil : key.toList ≠ []
  all : ∀ c ∈ key.toList, isKeyChar c = true

theorem bareKey_iff {key : String} :
    BareKey key ↔ (!key.toList.isEmpty && key.toList.all isKeyChar) = true := by
  rw [Bool.and_eq_true, List.all_eq_true, Bool.not_eq_true', List.isEmpty_eq_false_iff]
  exact ⟨fun ⟨hne, hall⟩ => ⟨hne, hall⟩, fun ⟨hne, hall⟩ => ⟨hne, hall⟩⟩

instance (key : String) : Decidable (BareKey key) := decidable_of_iff _ bareKey_iff.symm

/-- The ways to write a statement, in front of the end of its line. -/
inductive Statement.Written : Statement → List Char → Prop where
  | assign {key : String} {v : Value} {text : List Char} : BareKey key → v.Written text →
      Written (.assign ⟨[], key, v⟩) (key.toList ++ ' ' :: '=' :: ' ' :: text)
  | row {key : String} : BareKey key → Written (.row [] key) ('[' :: '[' :: key.toList ++ [']', ']'])

theorem ne_of_isKeyChar {c d : Char} (hc : isKeyChar c = true) (hd : isKeyChar d = false) :
    c ≠ d := by
  rintro rfl
  rw [hc] at hd
  cases hd

theorem BareKey.exists_cons {key : String} (h : BareKey key) :
    ∃ c word, key.toList = c :: word ∧ isKeyChar c = true := by
  obtain ⟨c, word, hword⟩ := List.exists_cons_of_ne_nil h.ne_nil
  exact ⟨c, word, hword, h.all c (hword ▸ List.mem_cons_self)⟩

theorem isBlank_of_isKeyChar {c : Char} (h : isKeyChar c = true) : isBlank c = false := by
  have hspace := ne_of_isKeyChar h (d := ' ') (by decide)
  have htab := ne_of_isKeyChar h (d := '\t') (by decide)
  simp [isBlank, hspace, htab]

theorem skipBlanks_bareKey {key : String} (h : BareKey key) (r : List Char) :
    skipBlanks (key.toList ++ r) = key.toList ++ r := by
  obtain ⟨c, word, hword, hc⟩ := h.exists_cons
  rw [hword]
  exact skipBlanks_of_not_blank (isBlank_of_isKeyChar hc) _

/-- A bare key is read, unless a dot or more of it follows. -/
theorem key?_bareKey {key : String} (hkey : BareKey key) {r : List Char} (limit : Nat)
    (hr : ∀ c, r.head? = some c → isKeyChar c = false) (hdot : (skipBlanks r).head? ≠ some '.') :
    key? (limit + 1) (key.toList ++ r) = some (([], key), skipBlanks r) := by
  obtain ⟨c, word, hword, hc⟩ := hkey.exists_cons
  have hquotes : ¬((key.toList ++ r).head? = some '"' ∨ (key.toList ++ r).head? = some '\'') := by
    rw [hword]
    rintro (h | h)
    · exact ne_of_isKeyChar hc (by decide) (Option.some.inj h)
    · exact ne_of_isKeyChar hc (by decide) (Option.some.inj h)
  have hsimple : simpleKey? (key.toList ++ r) = some (key, r) := by
    rw [simpleKey?, if_neg hquotes, span_append hkey.all hr]
    dsimp only
    rw [if_neg hkey.ne_nil, String.ofList_toList]
  rw [key?, hsimple]
  dsimp only [Option.bind_eq_bind, Option.bind_some]
  split
  · next h => simp [h] at hdot
  · rfl

/-- A line that is no header. -/
theorem statement?_of_ne {c : Char} (hc : c ≠ '[') (limit : Nat) (cs : List Char) :
    statement? limit (c :: cs) =
      (assignment? limit (value? limit maxDepth) (c :: cs)).map fun (a, r) => (.assign a, r) := by
  unfold statement?
  split
  · simp_all
  · simp_all
  · cases assignment? limit (value? limit maxDepth) (c :: cs) <;> rfl

theorem skipBlanks_value {v : Value} {text : List Char} (h : v.Written text) (r : List Char) :
    skipBlanks (' ' :: (text ++ r)) = text ++ r := by
  cases h with
  | string hs => obtain ⟨inside, rfl⟩ := quotes_eq_cons hs; rfl
  | strings => rfl
  | true => rfl
  | false => rfl

theorem assignment?_written {key : String} {v : Value} {text : List Char} (hkey : BareKey key)
    (hv : v.Written text) {limit : Nat} (hlimit : text.length < limit + 1) (r : List Char) :
    assignment? (limit + 1) (value? (limit + 1) maxDepth)
      (key.toList ++ ' ' :: '=' :: ' ' :: (text ++ '\n' :: r)) =
        some (⟨[], key, v⟩, '\n' :: r) := by
  have hread := key?_bareKey hkey (r := ' ' :: '=' :: ' ' :: (text ++ '\n' :: r)) limit
    (by rintro c ⟨⟩; rfl) (by simp [skipBlanks, isBlank])
  have hequals : skipBlanks (' ' :: '=' :: ' ' :: (text ++ '\n' :: r)) =
      '=' :: ' ' :: (text ++ '\n' :: r) := rfl
  have hsame : skipBlanks ('=' :: ' ' :: (text ++ '\n' :: r)) =
      '=' :: ' ' :: (text ++ '\n' :: r) := rfl
  have hvalue : value? (limit + 1) maxDepth (text ++ '\n' :: r) = some (v, '\n' :: r) :=
    value?_written hv hlimit (maxDepth - 1) r
  simp only [assignment?, hread, hequals, hsame, Option.bind_eq_bind, Option.bind_some,
    expect?_self, skipBlanks_value hv, hvalue]
  rfl

/-- A statement is read up to the end of its line. -/
theorem statement?_written {st : Statement} {line : List Char} (h : st.Written line) {limit : Nat}
    (hlimit : line.length < limit) (r : List Char) :
    statement? limit (line ++ '\n' :: r) = some (st, '\n' :: r) := by
  obtain ⟨limit, rfl⟩ : ∃ n, limit = n + 1 := ⟨limit - 1, by omega⟩
  cases h with
  | @assign key v text hkey hv =>
    have hfit : text.length < limit + 1 := by simp at hlimit; omega
    have hread := assignment?_written hkey hv hfit r
    obtain ⟨c, word, hword, hc⟩ := hkey.exists_cons
    have hline : key.toList ++ ' ' :: '=' :: ' ' :: text ++ '\n' :: r =
        key.toList ++ ' ' :: '=' :: ' ' :: (text ++ '\n' :: r) := by simp
    rw [hline]
    rw [hword, List.cons_append] at hread ⊢
    rw [statement?_of_ne (ne_of_isKeyChar hc (by decide)), hread]
    rfl
  | @row key hkey =>
    have hread := key?_bareKey hkey (r := ']' :: ']' :: '\n' :: r) limit
      (by rintro c ⟨⟩; rfl) (by simp [skipBlanks, isBlank])
    have hline : '[' :: '[' :: key.toList ++ [']', ']'] ++ '\n' :: r =
        '[' :: '[' :: (key.toList ++ ']' :: ']' :: '\n' :: r) := by simp
    have hclose : skipBlanks (']' :: ']' :: '\n' :: r) = ']' :: ']' :: '\n' :: r := rfl
    rw [hline, statement?, skipBlanks_bareKey hkey, hread, hclose]
    simp only [Option.bind_eq_bind, Option.bind_some, hclose, expect?_self]
    rfl

/-- A line does not begin with what may stand between lines. -/
theorem Statement.Written.eq_cons {st : Statement} {line : List Char} (h : st.Written line) :
    ∃ c cs, line = c :: cs ∧ (c = '[' ∨ isKeyChar c = true) := by
  cases h with
  | assign hkey _ =>
    obtain ⟨c, word, hword, hc⟩ := hkey.exists_cons
    exact ⟨c, _, by rw [hword]; rfl, .inr hc⟩
  | row => exact ⟨'[', _, rfl, .inl rfl⟩

theorem skipBlanks_line {c : Char} (h : c = '[' ∨ isKeyChar c = true) (cs : List Char) :
    skipBlanks (c :: cs) = c :: cs := by
  obtain rfl | hc := h
  · rfl
  · exact skipBlanks_of_not_blank (isBlank_of_isKeyChar hc) cs

theorem lineEnd?_line {c : Char} (h : c = '[' ∨ isKeyChar c = true) (cs : List Char) :
    lineEnd? (c :: cs) = none := by
  have hne : ∀ d, isKeyChar d = false → d ≠ '[' → c ≠ d := by
    rintro d hd hbracket rfl
    obtain rfl | hc := h
    · exact hbracket rfl
    · rw [hc] at hd
      cases hd
  have hcomment := hne '#' (by decide) (by decide)
  have hnewline := hne '\n' (by decide) (by decide)
  have hreturn := hne '\r' (by decide) (by decide)
  unfold lineEnd?
  rw [skipBlanks_line h]
  simp only [List.head?_cons, Option.some.injEq, hcomment, if_false]
  split <;> simp_all

/-- The ways to write statements, one to a line. -/
inductive WrittenLines : List Statement → List Char → Prop where
  | nil : WrittenLines [] []
  | cons {st : Statement} {sts : List Statement} {line text : List Char} : st.Written line →
      WrittenLines sts text → WrittenLines (st :: sts) (line ++ '\n' :: text)

theorem exists_writtenLines {sts : List Statement} (h : ∀ st ∈ sts, ∃ line, st.Written line) :
    ∃ text, WrittenLines sts text := by
  induction sts with
  | nil => exact ⟨[], .nil⟩
  | cons st sts ih =>
    obtain ⟨line, hline⟩ := h st List.mem_cons_self
    obtain ⟨text, htext⟩ := ih fun st' hst' => h st' (List.mem_cons_of_mem _ hst')
    exact ⟨_, .cons hline htext⟩

/-- All statements of a text are read. -/
theorem statements?_written {sts : List Statement} {text : List Char} (h : WrittenLines sts text)
    {limit lines : Nat} (hlimit : text.length < limit) (hlines : text.length < lines) :
    statements? limit lines text = some sts := by
  induction h generalizing lines with
  | nil =>
    obtain ⟨lines, rfl⟩ : ∃ n, lines = n + 1 := ⟨lines - 1, by omega⟩
    rfl
  | @cons st sts line text hst _ ih =>
    obtain ⟨lines, rfl⟩ : ∃ n, lines = n + 1 := ⟨lines - 1, by omega⟩
    rw [List.length_append, List.length_cons] at hlimit hlines
    have hread : statement? limit (line ++ '\n' :: text) = some (st, '\n' :: text) :=
      statement?_written hst (by omega) text
    have hrest : statements? limit lines text = some sts := ih (by omega) (by omega)
    obtain ⟨c, cs, rfl, hc⟩ := hst.eq_cons
    rw [List.cons_append] at hread ⊢
    simp [statements?, skipBlanks_line hc, lineEnd?_line hc, hread, hrest]

end CommentDensity.Toml
