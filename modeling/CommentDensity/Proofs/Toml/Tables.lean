import CommentDensity.Proofs.Entries
import CommentDensity.Proofs.Toml.Written
import Mathlib.Data.Option.Basic

/-!
# CommentDensity.Proofs.Toml.Tables

The table that a text writes, if it gives some keys their values and then has
rows for one key more.

Each statement adds what it says and leaves the rest as it was: a value to the
whole table or to the last row, or a row (`take?_ofEntry`, `take?_row`).  So
the text has exactly the entries that were written, in their order
(`read?_written`).
-/

namespace CommentDensity.Toml

/-- The statement that gives a key its value. -/
def Statement.ofEntry (e : String × Value) : Statement := .assign ⟨[], e.1, e.2⟩

/-- The statements for rows of a key. -/
def Statement.ofRows (key : String) (rows : List Entries) : List Statement :=
  rows.flatMap fun es => .row [] key :: es.map .ofEntry

/-- The entries with rows for a key, if there are any. -/
def Entries.withRows (key : String) (rows : List Entries) (es : Entries) : Entries :=
  if rows = [] then es else es ++ [(key, .rows rows)]

section Entries

variable {es : Entries} {key : String} {v : Value} {rows : List Entries}

theorem lookup_append_of_new (h : key ∉ es.map (·.1)) (more : Entries) :
    (es ++ more).lookup key = more.lookup key := by
  rw [List.lookup_append, lookup_eq_none_iff.mpr h, Option.none_or]

theorem lookup_concat (h : key ∉ es.map (·.1)) : (es ++ [(key, v)]).lookup key = some v := by
  rw [lookup_append_of_new h]
  simp

theorem Entries.add?_new (h : key ∉ es.map (·.1)) : es.add? key v = some (es ++ [(key, v)]) := by
  rw [Entries.add?, lookup_eq_none_iff.mpr h]
  rfl

theorem Entries.replace_concat (h : key ∉ es.map (·.1)) (w : Value) :
    (es ++ [(key, v)]).replace key w = es ++ [(key, w)] := by
  have hsame : es.map (fun e => if e.1 = key then (key, w) else e) = es := by
    rw [List.map_congr_left (g := id) fun e he => ?_, List.map_id]
    refine if_neg fun heq => h ?_
    rw [← heq]
    exact List.mem_map_of_mem he
  rw [Entries.replace, List.map_append, hsame]
  simp

theorem Entries.withRows_concat (row : Entries) :
    es.withRows key (rows ++ [row]) = es ++ [(key, .rows (rows ++ [row]))] := by
  rw [Entries.withRows, if_neg (by simp)]

/-! ## Statements -/

/-- A value for a new key of the whole table. -/
theorem take?_ofEntry (h : key ∉ es.map (·.1)) :
    Document.take? ⟨[], es⟩ (.ofEntry (key, v)) = some ⟨[], es ++ [(key, v)]⟩ := by
  have hassign : es.take? ⟨[], key, v⟩ = some (es ++ [(key, v)]) := Entries.add?_new h
  simp only [Document.take?, Statement.ofEntry, Entries.changeAt, hassign]
  rfl

/-- A value for a new key of the last row. -/
theorem take?_ofEntry_row {name : String} {row : Entries} (hname : name ∉ es.map (·.1))
    (h : key ∉ row.map (·.1)) :
    Document.take? ⟨[name], es.withRows name (rows ++ [row])⟩ (.ofEntry (key, v)) =
      some ⟨[name], es.withRows name (rows ++ [row ++ [(key, v)]])⟩ := by
  have hassign : row.take? ⟨[], key, v⟩ = some (row ++ [(key, v)]) := Entries.add?_new h
  simp only [Document.take?, Statement.ofEntry, Entries.withRows_concat, Entries.changeAt,
    lookup_concat hname, List.getLast?_concat, List.dropLast_concat, Option.bind_eq_bind,
    Option.bind_some, hassign, Entries.replace_concat hname]
  rfl

/-- A new row. -/
theorem take?_row {name : String} (hname : name ∉ es.map (·.1)) (header : List String) :
    Document.take? ⟨header, es.withRows name rows⟩ (.row [] name) =
      some ⟨[name], es.withRows name (rows ++ [[]])⟩ := by
  have hadd : (es.withRows name rows).addRow? [] name = some (es.withRows name (rows ++ [[]])) := by
    rw [Entries.withRows_concat, Entries.addRow?, Entries.changeAt, Entries.withRows]
    by_cases hrows : rows = []
    · rw [if_pos hrows, lookup_eq_none_iff.mpr hname, hrows]
      rfl
    · rw [if_neg hrows, lookup_concat hname]
      exact congrArg some (Entries.replace_concat hname _)
  simp only [Document.take?, hadd]
  rfl

end Entries

/-! ## Texts -/

/-- Values for new keys of the whole table. -/
theorem foldlM_ofEntry (more es : Entries) (h : ((es ++ more).map (·.1)).Nodup) :
    (more.map Statement.ofEntry).foldlM Document.take? ⟨[], es⟩ = some ⟨[], es ++ more⟩ := by
  induction more generalizing es with
  | nil => simp
  | cons e more ih =>
    have hsplit : es ++ e :: more = es ++ [e] ++ more := by simp
    have hnew : e.1 ∉ es.map (·.1) := by
      rw [List.map_append, List.nodup_append] at h
      exact fun hmem => h.2.2 _ hmem _ List.mem_cons_self rfl
    rw [List.map_cons, List.foldlM_cons, take?_ofEntry hnew, Option.bind_eq_bind, Option.bind_some,
      ih (es ++ [e]) (hsplit ▸ h), hsplit]

/-- Values for new keys of the last row. -/
theorem foldlM_ofEntry_row {name : String} {es : Entries} (hname : name ∉ es.map (·.1))
    (rows : List Entries) (more row : Entries) (h : ((row ++ more).map (·.1)).Nodup) :
    (more.map Statement.ofEntry).foldlM Document.take?
      ⟨[name], es.withRows name (rows ++ [row])⟩ =
        some ⟨[name], es.withRows name (rows ++ [row ++ more])⟩ := by
  induction more generalizing row with
  | nil => simp
  | cons e more ih =>
    have hsplit : row ++ e :: more = row ++ [e] ++ more := by simp
    have hnew : e.1 ∉ row.map (·.1) := by
      rw [List.map_append, List.nodup_append] at h
      exact fun hmem => h.2.2 _ hmem _ List.mem_cons_self rfl
    rw [List.map_cons, List.foldlM_cons, take?_ofEntry_row hname hnew, Option.bind_eq_bind,
      Option.bind_some, ih (row ++ [e]) (hsplit ▸ h), hsplit]

/-- Rows, one after the other. -/
theorem foldlM_ofRows {name : String} {es : Entries} (hname : name ∉ es.map (·.1))
    (more rows : List Entries) (h : ∀ row ∈ more, (row.map (·.1)).Nodup) (header : List String) :
    ∃ header', (Statement.ofRows name more).foldlM Document.take? ⟨header, es.withRows name rows⟩ =
      some ⟨header', es.withRows name (rows ++ more)⟩ := by
  induction more generalizing rows header with
  | nil => exact ⟨header, by simp [Statement.ofRows]⟩
  | cons row more ih =>
    obtain ⟨header', hrest⟩ := ih (rows ++ [row]) (fun r hr => h r (List.mem_cons_of_mem _ hr)) [name]
    refine ⟨header', ?_⟩
    have hrow := foldlM_ofEntry_row hname rows row [] (h row List.mem_cons_self)
    rw [List.nil_append] at hrow
    rw [Statement.ofRows, List.flatMap_cons, List.foldlM_append, List.foldlM_cons,
      take?_row hname, Option.bind_eq_bind, Option.bind_some, hrow, Option.bind_some]
    rw [List.append_assoc, List.singleton_append] at hrest
    exact hrest

theorem trimMark_written {sts : List Statement} {text : List Char} (h : WrittenLines sts text) :
    Document.trimMark text = text := by
  cases h with
  | nil => rfl
  | cons hst _ =>
    obtain ⟨c, cs, rfl, hc⟩ := hst.eq_cons
    unfold Document.trimMark
    split
    · next heq =>
      obtain ⟨rfl, _⟩ := List.cons.inj heq
      exact absurd hc (by decide)
    · rfl

/-- A text that was written is read as what it says. -/
theorem read?_written {name : String} {es : Entries} {rows : List Entries} {text : String}
    (hkeys : (es.map (·.1)).Nodup) (hname : name ∉ es.map (·.1))
    (hrows : ∀ row ∈ rows, (row.map (·.1)).Nodup)
    (h : WrittenLines (es.map Statement.ofEntry ++ Statement.ofRows name rows) text.toList) :
    read? text = some (es.withRows name rows) := by
  have hread := statements?_written h (Nat.lt_succ_self _) (Nat.lt_succ_self _)
  have hvalues := foldlM_ofEntry es [] hkeys
  obtain ⟨header, hcarried⟩ := foldlM_ofRows hname rows [] hrows []
  have hnone : es.withRows name [] = [] ++ es := rfl
  rw [hnone] at hcarried
  rw [read?, trimMark_written h]
  simp only [hread, Option.bind_eq_bind, Option.bind_some, List.foldlM_append, hvalues, hcarried]
  rfl

end CommentDensity.Toml
