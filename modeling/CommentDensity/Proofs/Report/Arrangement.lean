import CommentDensity.Proofs.Text.Split
import CommentDensity.Report.Arrangement
import Mathlib.Data.List.Nodup

/-!
# CommentDensity.Proofs.Report.Arrangement

What an arranged report has, and what it forgets.

* It has the lines of the report, each as often as that has it
  (`arrangedLines_perm`, `arranged_perm`): what is held while lines are taken
  changes by these lines alone (`held_take`).
* It forgets in which order the blocks of a job came, and the files within a
  block (`arrangedLines_reordered`): sorting does not see the order
  (`Alike.settle_eq`), and what is taken later goes the same way
  (`Alike.take`).
-/

namespace CommentDensity

/-! ## Blocks -/

namespace Block

theorem linearLe_le : LinearLe le where
  trans _ _ _ hab hbc :=
    linearLe_textsLe.trans_or_else hab hbc (linearLe_textsLe.trans _ _ _)
  total _ _ := linearLe_textsLe.total_or_else _ _ (linearLe_textsLe.total _ _)
  antisymm a b hab hba := by
    obtain ⟨hparts, hlines, hlines'⟩ := linearLe_textsLe.antisymm_or_else hab hba
    obtain ⟨parts, lines⟩ := a
    obtain ⟨parts', lines'⟩ := b
    obtain rfl : parts = parts' := hparts
    obtain rfl : lines = lines' := linearLe_textsLe.antisymm lines lines' hlines hlines'
    rfl

/-- A block keeps the lines it is made of. -/
theorem lines_of_perm (name : List Char) (lines : List (List Char)) :
    (Block.of name lines).lines.Perm lines := by
  cases lines with
  | nil => exact .refl _
  | cons first rest =>
    refine .cons first ?_
    cases hlast : rest.getLast? with
    | none => simp [List.getLast?_eq_none_iff.mp hlast]
    | some last =>
      calc
        (rest.dropLast.mergeSort textLe ++ [last]).Perm (rest.dropLast ++ [last]) :=
          (List.mergeSort_perm rest.dropLast textLe).append_right [last]
        _ = rest := List.dropLast_append_getLast? last hlast

/-- A block forgets the order of its files. -/
theorem of_eq (name heading last : List Char) {files files' : List (List Char)}
    (h : files.Perm files') :
    Block.of name (heading :: files ++ [last]) = Block.of name (heading :: files' ++ [last]) := by
  simp [Block.of, linearLe_textLe.mergeSort_eq h]

end Block

/-! ## Taking lines -/

namespace Arrangement

variable {a a' : Arrangement} {line : List Char} {lines : List (List Char)}

/-- The lines that have been taken, in no particular order. -/
def held (a : Arrangement) : List (List Char) :=
  a.placed ++ (a.blocks.flatMap Block.lines ++ a.loose)

theorem held_settle (a : Arrangement) : a.settle.held.Perm a.held := by
  have hblocks : ((a.blocks.mergeSort Block.le).flatMap Block.lines).Perm
      (a.blocks.flatMap Block.lines) :=
    (List.mergeSort_perm a.blocks Block.le).flatMap_right Block.lines
  refine List.perm_iff_count.mpr fun line => ?_
  have hcount := hblocks.count_eq line
  simp only [held, settle, List.flatMap_nil, List.append_nil, List.count_append,
    List.count_reverse]
  omega

theorem held_take (a : Arrangement) (line : List Char) :
    (a.take line).held.Perm (line :: a.held) := by
  unfold take
  split
  · next name _ _ _ =>
    have hblock : (Block.of name (line :: a.loose).reverse).lines.Perm (line :: a.loose) :=
      (Block.lines_of_perm name _).trans (List.reverse_perm _)
    refine List.perm_iff_count.mpr fun other => ?_
    have hcount := hblock.count_eq other
    simp only [held, List.flatMap_cons, List.append_nil, List.count_append,
      List.count_cons] at hcount ⊢
    omega
  · exact (held_settle a).cons line
  · refine List.perm_iff_count.mpr fun other => ?_
    simp only [held, List.count_append, List.count_cons]
    omega

theorem held_foldl (lines : List (List Char)) (a : Arrangement) :
    (lines.foldl take a).held.Perm (lines ++ a.held) := by
  induction lines generalizing a with
  | nil => exact .refl _
  | cons line lines ih =>
    exact (ih (a.take line)).trans (((held_take a line).append_left lines).trans List.perm_middle)

/-- What is held alike, up to the order of the blocks. -/
structure Alike (a a' : Arrangement) : Prop where
  placed : a.placed = a'.placed
  blocks : a.blocks.Perm a'.blocks
  loose : a.loose = a'.loose

theorem Alike.settle_eq (h : a.Alike a') : a.settle = a'.settle := by
  rw [settle, settle, Block.linearLe_le.mergeSort_eq h.blocks, h.placed, h.loose]

theorem Alike.take (h : a.Alike a') (line : List Char) : (a.take line).Alike (a'.take line) := by
  unfold Arrangement.take
  split
  · exact ⟨h.placed, h.loose ▸ h.blocks.cons _, rfl⟩
  · rw [h.settle_eq]
    exact ⟨rfl, .refl _, rfl⟩
  · exact ⟨h.placed, h.blocks, congrArg (line :: ·) h.loose⟩

theorem Alike.foldl (h : a.Alike a') (lines : List (List Char)) :
    (lines.foldl Arrangement.take a).Alike (lines.foldl Arrangement.take a') := by
  induction lines generalizing a a' with
  | nil => exact h
  | cons line lines ih => exact ih (h.take line)

/-! ## Whole blocks -/

/-- Lines of a block: the last of them is that of a directory, and no other has
counts. -/
structure IsBlock (lines : List (List Char)) : Prop where
  untold : ∀ line ∈ lines.dropLast, Tally.ofLine? line = none
  told : ∃ last tally, lines.getLast? = some last ∧ Tally.ofLine? last = some tally ∧
    tally.subject = .directory

/-- The same lines, but for the order of the files of a block. -/
inductive SameFiles : List (List Char) → List (List Char) → Prop where
  | same (lines : List (List Char)) : SameFiles lines lines
  | files (heading last : List Char) {files files' : List (List Char)} : files.Perm files' →
      SameFiles (heading :: files ++ [last]) (heading :: files' ++ [last])

/-- The block of the directory that the last line names. -/
def blockOf (lines : List (List Char)) : Block :=
  .of (((lines.getLast?.bind Tally.ofLine?).map Tally.name).getD []) lines

theorem SameFiles.isBlock {lines' : List (List Char)} (h : SameFiles lines lines')
    (hlines : IsBlock lines) : IsBlock lines' := by
  cases h with
  | same => exact hlines
  | files heading last hfiles =>
    obtain ⟨huntold, htold⟩ := hlines
    rw [List.dropLast_concat] at huntold
    rw [List.getLast?_concat] at htold
    refine ⟨fun line hline => huntold line ?_, by rwa [List.getLast?_concat]⟩
    rw [List.dropLast_concat] at hline
    exact (hfiles.cons heading).mem_iff.mpr hline

theorem SameFiles.blockOf_eq {lines' : List (List Char)} (h : SameFiles lines lines') :
    blockOf lines = blockOf lines' := by
  cases h with
  | same => rfl
  | files heading last hfiles =>
    rw [blockOf, blockOf, List.getLast?_concat, List.getLast?_concat]
    exact Block.of_eq _ heading last hfiles

section Blocks

variable {parts parts' : List (List (List Char))} (h : List.Forall₂ SameFiles parts parts')
include h

theorem isBlock_of_sameFiles (hparts : ∀ lines ∈ parts, IsBlock lines) :
    ∀ lines ∈ parts', IsBlock lines := by
  induction h with
  | nil => exact hparts
  | cons hlines _ ih =>
    rw [List.forall_mem_cons] at hparts ⊢
    exact ⟨hlines.isBlock hparts.1, ih hparts.2⟩

theorem map_blockOf_eq : parts.map blockOf = parts'.map blockOf := by
  induction h with
  | nil => rfl
  | cons hlines _ ih => rw [List.map_cons, List.map_cons, hlines.blockOf_eq, ih]

end Blocks

theorem foldl_untold (h : ∀ line ∈ lines, Tally.ofLine? line = none) (a : Arrangement) :
    lines.foldl take a = { a with loose := lines.reverse ++ a.loose } := by
  induction lines generalizing a with
  | nil => rfl
  | cons line lines ih =>
    have hline : a.take line = { a with loose := line :: a.loose } := by
      rw [take, h line List.mem_cons_self]
    rw [List.foldl_cons, hline, ih fun l hl => h l (List.mem_cons_of_mem line hl)]
    simp

theorem foldl_block (h : IsBlock lines) (ha : a.loose = []) :
    lines.foldl take a = { a with blocks := blockOf lines :: a.blocks } := by
  obtain ⟨last, ⟨subject, name, n, k⟩, hlast, htally, rfl⟩ := h.told
  obtain ⟨files, rfl⟩ := List.getLast?_eq_some_iff.mp hlast
  have huntold := h.untold
  rw [List.dropLast_concat] at huntold
  rw [List.foldl_append, foldl_untold huntold]
  simp [take, blockOf, htally, ha]

theorem foldl_blocks {parts : List (List (List Char))} (h : ∀ lines ∈ parts, IsBlock lines)
    (ha : a.loose = []) :
    parts.flatten.foldl take a = { a with blocks := (parts.map blockOf).reverse ++ a.blocks } := by
  induction parts generalizing a with
  | nil => rfl
  | cons lines parts ih =>
    have hmore := @ih { a with blocks := blockOf lines :: a.blocks }
      (fun l hl => h l (List.mem_cons_of_mem lines hl)) ha
    rw [List.flatten_cons, List.foldl_append, foldl_block (h lines List.mem_cons_self) ha, hmore]
    simp

/-- Behind a line with counts no line is loose. -/
theorem loose_foldl {front : List (List Char)}
    (h : ∀ line, front.getLast? = some line → Tally.ofLine? line ≠ none) (ha : a.loose = []) :
    (front.foldl take a).loose = [] := by
  cases hlast : front.getLast? with
  | none =>
    rw [List.getLast?_eq_none_iff.mp hlast]
    exact ha
  | some line =>
    obtain ⟨rest, rfl⟩ := List.getLast?_eq_some_iff.mp hlast
    rw [List.foldl_append]
    simp only [List.foldl_cons, List.foldl_nil, take]
    split
    · rfl
    · rfl
    · next hnone => exact absurd hnone (h line hlast)

end Arrangement

open Arrangement in
/-- **An arranged report has the lines of the report**, each as often. -/
theorem arrangedLines_perm (lines : List (List Char)) : (arrangedLines lines).Perm lines := by
  have hheld := (held_settle _).trans (held_foldl lines ⟨[], [], []⟩)
  have hplaced : (lines.foldl take ⟨[], [], []⟩).settle.held =
      (lines.foldl take ⟨[], [], []⟩).settle.placed := List.append_nil _
  rw [hplaced] at hheld
  exact (List.reverse_perm _).trans (by simpa [held] using hheld)

/-- The same of the text of a report. -/
theorem arranged_perm (report : String) :
    (split '\n' (arranged report).toList).Perm (split '\n' report.toList) := by
  have hlines : ∀ line ∈ split '\n' report.toList, '\n' ∉ line := fun _ => notMem_of_mem_split
  simp only [arranged]
  split
  · next hlast =>
    -- the last line is the empty one behind the end of the text
    obtain ⟨front, hfront⟩ := List.getLast?_eq_some_iff.mp hlast
    have hterminated : ∀ line ∈ arrangedLines front, '\n' ∉ line := fun line hline =>
      hlines line (hfront ▸ List.mem_append_left _ ((arrangedLines_perm front).mem_iff.mp hline))
    rw [hfront, List.dropLast_concat, String.toList_ofList, split_terminated hterminated]
    exact (arrangedLines_perm front).append_right _
  · have hperm := arrangedLines_perm (split '\n' report.toList)
    have hkept : ∀ line ∈ arrangedLines (split '\n' report.toList), '\n' ∉ line :=
      fun line hline => hlines line (hperm.mem_iff.mp hline)
    rw [String.toList_ofList]
    cases hsorted : arrangedLines (split '\n' report.toList) with
    | nil =>
      rw [hsorted] at hperm
      exact absurd hperm.symm.eq_nil (split_ne_nil '\n' report.toList)
    | cons line lines =>
      rw [hsorted] at hkept hperm
      rwa [split_intercalate (hkept line List.mem_cons_self) fun l hl =>
        hkept l (List.mem_cons_of_mem line hl)]

open Arrangement in
/-- **An arranged report forgets the order of its blocks**, and the order of the
files within each.  The blocks are those that follow one another at the front
of the report or behind a line with counts. -/
theorem arrangedLines_reordered {front : List (List Char)} (back : List (List Char))
    {parts parts' mixed : List (List (List Char))}
    (hfront : ∀ line, front.getLast? = some line → Tally.ofLine? line ≠ none)
    (hparts : ∀ lines ∈ parts, IsBlock lines) (hmixed : parts.Perm mixed)
    (hsame : List.Forall₂ SameFiles mixed parts') :
    arrangedLines (front ++ (parts.flatten ++ back)) =
      arrangedLines (front ++ (parts'.flatten ++ back)) := by
  have hparts' : ∀ lines ∈ parts', IsBlock lines :=
    isBlock_of_sameFiles hsame fun lines hlines => hparts lines (hmixed.mem_iff.mpr hlines)
  have hblocks : (parts.map blockOf).Perm (parts'.map blockOf) :=
    map_blockOf_eq hsame ▸ hmixed.map blockOf
  have hloose : (front.foldl take ⟨[], [], []⟩).loose = [] := loose_foldl hfront rfl
  have halike : Alike (parts.flatten.foldl take (front.foldl take ⟨[], [], []⟩))
      (parts'.flatten.foldl take (front.foldl take ⟨[], [], []⟩)) := by
    rw [foldl_blocks hparts hloose, foldl_blocks hparts' hloose]
    have hreverse : (parts.map blockOf).reverse.Perm (parts'.map blockOf).reverse :=
      (List.reverse_perm _).trans (hblocks.trans (List.reverse_perm _).symm)
    exact ⟨rfl, hreverse.append_right _, rfl⟩
  simp only [arrangedLines, List.foldl_append, (halike.foldl back).settle_eq]

/-- Arranged measures are the measures, each as often. -/
theorem arrangedMeasures_perm (ms : List Measure) : (arrangedMeasures ms).Perm ms :=
  List.mergeSort_perm ms _

/-- Measures of directories that are shown differently are arranged alike, in
whatever order they came. -/
theorem arrangedMeasures_eq {ms ms' : List Measure} (h : ms.Perm ms')
    (hroots : (ms.map (·.root.display)).Nodup) : arrangedMeasures ms = arrangedMeasures ms' := by
  have hsorted : ∀ ms : List Measure, (arrangedMeasures ms).Pairwise fun a b =>
      textsLe (split '/' a.root.display.toList) (split '/' b.root.display.toList) = true :=
    List.pairwise_mergeSort (fun _ _ _ => linearLe_textsLe.trans _ _ _)
      (fun _ _ => linearLe_textsLe.total _ _)
  have hperm : (arrangedMeasures ms).Perm (arrangedMeasures ms') :=
    (arrangedMeasures_perm ms).trans (h.trans (arrangedMeasures_perm ms').symm)
  refine List.Perm.eq_of_pairwise (fun a b ha hb hab hba => ?_) (hsorted ms) (hsorted ms') hperm
  have hparts := congrArg (List.intercalate ['/']) (linearLe_textsLe.antisymm _ _ hab hba)
  rw [intercalate_split, intercalate_split] at hparts
  have ha' : a ∈ ms := (arrangedMeasures_perm ms).mem_iff.mp ha
  have hb' : b ∈ ms := h.mem_iff.mpr ((arrangedMeasures_perm ms').mem_iff.mp hb)
  exact List.inj_on_of_nodup_map hroots ha' hb' (String.toList_inj.mp hparts)

end CommentDensity
