import CommentDensity.Proofs.Comment.CarriageReturn
import CommentDensity.Survey.Directory
import Mathlib.Data.String.Basic

/-!
# CommentDensity.Proofs.Survey.Content

What a file measures, by what it holds.

`FileTree.HoldsText` says that a path leads to a file that can be opened and
whose bytes are those of a text; `FileTree.HoldsNoText` says how that can
fail.  The measure of a file is then one of its text:

* `lines_measureFile` — its lines are its line ends as they stand, and an
  open last line; without a text there are none;
* `measureFile_writes` — the convention in which line ends are written, or
  the mixture of conventions, makes no difference to lines and comments;
* `comments_measureFile` — unless a `\r` stands alone, the comments are those
  that are found without normalizing line ends.
-/

namespace CommentDensity

namespace FileTree

variable {t : FileTree} {path : Path} {text : String}

/-- The path leads to a file that can be opened, and its bytes are those of
the text. -/
def HoldsText (t : FileTree) (path : Path) (text : String) : Prop :=
  ∃ permission, t.target path = .ok (.file permission text.toUTF8) ∧ permission.read = true

/-- No text can be had at the path: nothing can be found there, or it cannot
be opened, or it is a directory, or its bytes are those of no text. -/
inductive HoldsNoText (t : FileTree) (path : Path) : Prop where
  | lost (e : IoError) : t.target path = .error e → HoldsNoText t path
  | closed (permission : Permission) (content : ByteArray) :
      t.target path = .ok (.file permission content) → permission.read = false →
      HoldsNoText t path
  | directory (permission : Permission) (entries : List (Bytes × Node)) :
      t.target path = .ok (.directory permission entries) → HoldsNoText t path
  | notUtf8 (permission : Permission) (content : ByteArray) :
      t.target path = .ok (.file permission content) → (∀ text : String, text.toUTF8 ≠ content) →
      HoldsNoText t path

theorem fromUTF8?_eq_some_iff {content : ByteArray} :
    String.fromUTF8? content = some text ↔ text.toUTF8 = content := by
  unfold String.fromUTF8?
  constructor
  · intro h
    split at h
    · cases h
      rfl
    · cases h
  · rintro rfl
    rw [String.toUTF8_eq_toByteArray, dif_pos text.isValidUTF8]
    rfl

theorem readText_of_holds (h : t.HoldsText path text) : t.readText path = .ok text := by
  obtain ⟨permission, htarget, hread⟩ := h
  have htext : String.fromUTF8? text.toUTF8 = some text := fromUTF8?_eq_some_iff.mpr rfl
  rw [readText, htarget]
  dsimp only [bind, Except.bind]
  rw [hread, htext]
  rfl

theorem exists_readText_error (h : t.HoldsNoText path) : ∃ e, t.readText path = .error e := by
  rw [readText]
  cases h with
  | lost e htarget =>
    rw [htarget]
    exact ⟨e, rfl⟩
  | closed permission content htarget hread =>
    rw [htarget]
    dsimp only [bind, Except.bind]
    rw [hread]
    exact ⟨.permissionDenied, rfl⟩
  | directory permission entries htarget =>
    rw [htarget]
    dsimp only [bind, Except.bind]
    cases permission.read with
    | false => exact ⟨.permissionDenied, rfl⟩
    | true => exact ⟨.isADirectory, rfl⟩
  | notUtf8 permission content htarget hno =>
    have htext : String.fromUTF8? content = none :=
      Option.eq_none_iff_forall_ne_some.mpr fun text h => hno text (fromUTF8?_eq_some_iff.mp h)
    rw [htarget]
    dsimp only [bind, Except.bind]
    rw [htext]
    cases permission.read with
    | false => exact ⟨.permissionDenied, rfl⟩
    | true => exact ⟨.notUtf8, rfl⟩

/-! ## The measure of a file -/

variable {style : Style}

theorem measureFile_of_holds (h : t.HoldsText path text) :
    t.measureFile style path = .ofText style path text := by
  rw [measureFile, readText_of_holds h]

theorem measureFile_of_holds_no_text (h : t.HoldsNoText path) :
    t.measureFile style path = .empty path := by
  obtain ⟨e, he⟩ := exists_readText_error h
  rw [measureFile, he]

end FileTree

/-- Every character takes a byte at least. -/
theorem length_le_utf8ByteSize (text : String) : text.toList.length ≤ text.utf8ByteSize := by
  have hlen : ∀ cs : List Char, cs.length ≤ String.utf8Len cs := by
    intro cs
    induction cs with
    | nil => exact Nat.le_refl 0
    | cons c cs ih =>
      have hc := c.utf8Size_pos
      rw [List.length_cons, String.utf8Len_cons]
      omega
  calc
    text.toList.length ≤ String.utf8Len text.toList := hlen text.toList
    _ = text.utf8ByteSize := by rw [← String.utf8ByteSize_ofList, String.ofList_toList]

/-! ## Lines -/

/-- **Lines.**  A file that holds a text has as many lines as the text has
line ends, read from the left with `\r\n` as one and every other `\n` or `\r`
as one each, and one more if it does not finish with one; nothing else ends a
line.  The number is held at the limit, which a file of no more bytes than
that does not reach.  Where no text can be had there are no lines. -/
theorem lines_measureFile (t : FileTree) (style : Style) (path : Path) :
    (∀ text : String, t.HoldsText path text →
      (t.measureFile style path).lines.toNat = min (Newline.lines text.toList) Count.limit ∧
      (text.utf8ByteSize ≤ Count.limit →
        (t.measureFile style path).lines.toNat = Newline.lines text.toList)) ∧
    (t.HoldsNoText path → (t.measureFile style path).lines = 0) := by
  refine ⟨fun text h => ?_, fun h => by rw [FileTree.measureFile_of_holds_no_text h]; rfl⟩
  rw [← Newline.lineCount_normalize, FileTree.measureFile_of_holds h]
  refine ⟨rfl, fun hsize => Nat.min_eq_left ?_⟩
  calc
    Newline.lineCount (Newline.normalize text.toList)
        ≤ (Newline.normalize text.toList).length := Newline.lineCount_le_length _
    _ ≤ text.toList.length := Newline.length_normalize_le _
    _ ≤ text.utf8ByteSize := length_le_utf8ByteSize text
    _ ≤ Count.limit := hsize

/-- A file with line ends of each kind, and one that is no text. -/
def noteTree : FileTree where
  root := .directory .all
    [(Bytes.ofString "note", .file .all "a\r\r\n\nb\x0c\u2028c".toUTF8),
      (Bytes.ofString "blob", .file .all ⟨#[0x2F, 0x2F, 0x0A, 0xC3]⟩)]
  workingDirectory := []

theorem lines_measureFile_noteTree :
    noteTree.HoldsText (.ofString "note") "a\r\r\n\nb\x0c\u2028c" ∧
      (noteTree.measureFile .csharp (.ofString "note")).lines.toNat = 4 ∧
      noteTree.HoldsNoText (.ofString "blob") ∧
      (noteTree.measureFile .csharp (.ofString "blob")).lines = 0 := by
  have hnote : noteTree.HoldsText (.ofString "note") "a\r\r\n\nb\x0c\u2028c" := ⟨.all, rfl, rfl⟩
  have hblob : noteTree.HoldsNoText (.ofString "blob") := by
    have hbytes : String.fromUTF8? ⟨#[0x2F, 0x2F, 0x0A, 0xC3]⟩ = none := rfl
    refine .notUtf8 .all _ rfl fun text h => ?_
    rw [FileTree.fromUTF8?_eq_some_iff.mpr h] at hbytes
    cases hbytes
  exact ⟨hnote, ((lines_measureFile noteTree .csharp _).1 _ hnote).2 (by decide), hblob,
    (lines_measureFile noteTree .csharp _).2 hblob⟩

/-! ## Conventions -/

/-- **Conventions.**  A text without `\r` has the same lines and the same
comments in a file, in whatever mixture of conventions its line ends are
written there. -/
theorem measureFile_writes {t t' : FileTree} {path path' : Path} {text written : String}
    (h : Newline.Writes text.toList written.toList) (hfile : t.HoldsText path text)
    (hfile' : t'.HoldsText path' written) (style : Style) :
    (t'.measureFile style path').lines = (t.measureFile style path).lines ∧
      (t'.measureFile style path').comments = (t.measureFile style path).comments := by
  have hsame : Newline.normalize written.toList = Newline.normalize text.toList := by
    rw [Newline.normalize_of_writes h, Newline.normalize_eq_self h.cr_notMem]
  rw [FileTree.measureFile_of_holds hfile, FileTree.measureFile_of_holds hfile', Measure.ofText,
    Measure.ofText, hsame]
  exact ⟨rfl, rfl⟩

/-- Two files with the same text, once with a newline in each convention. -/
def mixedTree : FileTree where
  root := .directory .all
    [(Bytes.ofString "plain", .file .all "// a\n\n/* b\n*/\n".toUTF8),
      (Bytes.ofString "mixed", .file .all "// a\r\n\r/* b\n*/\r".toUTF8)]
  workingDirectory := []

theorem measureFile_writes_mixedTree :
    Newline.Writes "// a\n\n/* b\n*/\n".toList "// a\r\n\r/* b\n*/\r".toList ∧
      mixedTree.HoldsText (.ofString "plain") "// a\n\n/* b\n*/\n" ∧
      mixedTree.HoldsText (.ofString "mixed") "// a\r\n\r/* b\n*/\r" ∧
      (mixedTree.measureFile .csharp (.ofString "mixed")).comments =
        (mixedTree.measureFile .csharp (.ofString "plain")).comments := by
  have hwrites : Newline.Writes "// a\n\n/* b\n*/\n".toList "// a\r\n\r/* b\n*/\r".toList :=
    Newline.normalize_eq_iff.mp (by decide)
  have hplain : mixedTree.HoldsText (.ofString "plain") "// a\n\n/* b\n*/\n" := ⟨.all, rfl, rfl⟩
  have hmixed : mixedTree.HoldsText (.ofString "mixed") "// a\r\n\r/* b\n*/\r" :=
    ⟨.all, rfl, rfl⟩
  exact ⟨hwrites, hplain, hmixed, (measureFile_writes hwrites hplain hmixed .csharp).2⟩

/-! ## Comments of the text as it stands -/

/-- **Comments as they stand.**  Where every `\r` is directly followed by a
`\n`, the comments of a text are those of the text with its line ends
normalized, and so those of a file that holds it.  Only a `\r` that stands
alone can make a difference. -/
theorem comments_measureFile (style : Style) (text : String) :
    (Newline.Paired text.toList →
      style.count text.toList = style.count (Newline.normalize text.toList) ∧
      ∀ (t : FileTree) (path : Path), t.HoldsText path text →
        (t.measureFile style path).comments = .ofNat (style.count text.toList)) ∧
    ∀ (t : FileTree) (path : Path), t.HoldsText path text →
      (t.measureFile style path).comments ≠ .ofNat (style.count text.toList) →
      ∃ i, text.toList[i]? = some '\r' ∧ text.toList[i + 1]? ≠ some '\n' := by
  have hfile : Newline.Paired text.toList → ∀ (t : FileTree) (path : Path),
      t.HoldsText path text →
      (t.measureFile style path).comments = .ofNat (style.count text.toList) := by
    intro hpaired t path h
    rw [FileTree.measureFile_of_holds h, Measure.ofText, style.count_normalize hpaired]
  refine ⟨fun hpaired => ⟨(style.count_normalize hpaired).symm, hfile hpaired⟩, ?_⟩
  intro t path h hne
  by_contra hno
  refine hne (hfile ?_ t path h)
  intro i hi
  by_contra hnext
  exact hno ⟨i, hi, hnext⟩

/-- A file in which the `\r` stand behind slashes and stars, and one in which
a `\r` ends a comment. -/
def returnTree : FileTree where
  root := .directory .all
    [(Bytes.ofString "pairs", .file .all "//\r\n/**\r\n*\r\n**/\r\n".toUTF8),
      (Bytes.ofString "alone", .file .all "//\r".toUTF8)]
  workingDirectory := []

theorem comments_measureFile_returnTree :
    Newline.Paired "//\r\n/**\r\n*\r\n**/\r\n".toList ∧
      returnTree.HoldsText (.ofString "pairs") "//\r\n/**\r\n*\r\n**/\r\n" ∧
      (returnTree.measureFile .csharp (.ofString "pairs")).comments =
        .ofNat (Style.csharp.count "//\r\n/**\r\n*\r\n**/\r\n".toList) ∧
      returnTree.HoldsText (.ofString "alone") "//\r" ∧
      (returnTree.measureFile .csharp (.ofString "alone")).comments ≠
        .ofNat (Style.csharp.count "//\r".toList) ∧
      ∃ i, "//\r".toList[i]? = some '\r' ∧ "//\r".toList[i + 1]? ≠ some '\n' := by
  have hpaired : Newline.Paired "//\r\n/**\r\n*\r\n**/\r\n".toList := by decide
  have hpairs : returnTree.HoldsText (.ofString "pairs") "//\r\n/**\r\n*\r\n**/\r\n" :=
    ⟨.all, rfl, rfl⟩
  have halone : returnTree.HoldsText (.ofString "alone") "//\r" := ⟨.all, rfl, rfl⟩
  have hdiffers : (returnTree.measureFile .csharp (.ofString "alone")).comments ≠
      .ofNat (Style.csharp.count "//\r".toList) := by
    rw [FileTree.measureFile_of_holds halone]
    decide
  exact ⟨hpaired, hpairs, ((comments_measureFile .csharp _).1 hpaired).2 _ _ hpairs, halone,
    hdiffers, (comments_measureFile .csharp _).2 _ _ halone hdiffers⟩

end CommentDensity
