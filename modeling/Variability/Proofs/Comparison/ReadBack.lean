import Variability.Comparison.ResultFile
import Variability.Proofs.Delimited.RoundTrip
import Variability.Proofs.Number.Rendering
import Variability.Table.Layout

/-!
Tables that are written and read for a comparison. The reader splits lines at the separator and
knows no quotation marks.
-/

set_option autoImplicit false

namespace Variability

def Unbroken (s : String) : Prop := ∀ c ∈ s.toList, Text.isLineEnd c = false

instance (s : String) : Decidable (Unbroken s) := List.decidableBAll _ _

def Unquoted (s : String) : Prop := ∀ c ∈ s.toList, c ≠ ';' ∧ c ≠ '"'

instance (s : String) : Decidable (Unquoted s) := List.decidableBAll _ _

theorem Number.IsNumeralText.unquoted {s : String} (h : Number.IsNumeralText s) : Unquoted s := by
  have hseparator : ¬ Number.IsNumeral ';' := by simp [Number.IsNumeral]
  have hquote : ¬ Number.IsNumeral '"' := by simp [Number.IsNumeral]
  exact fun c hc => ⟨(h c hc).ne_of_not hseparator, (h c hc).ne_of_not hquote⟩

namespace Table

def Part.text? : Part → Option String
  | .text s => some s
  | _ => none

def Value.text? : Value → Option String
  | .text s => some s
  | _ => none

def Row.texts (r : Row) : List String :=
  r.location.parts.filterMap Part.text? ++ r.values.filterMap Value.text?

def texts (t : Table) : List String := t.metrics ++ t.rows.flatMap Row.texts

def Shows (t : Table) (cell : String) : Prop :=
  cell ∈ t.texts ∨ cell ∈ locationHeader t.hasIncluded ∨ Number.IsNumeralText cell

theorem isNumeralText_empty : Number.IsNumeralText "" := by simp [Number.IsNumeralText]

theorem Part.cell_shows (p : Part) : p.text? = some p.cell ∨ Number.IsNumeralText p.cell := by
  cases p with
  | absent => exact .inr isNumeralText_empty
  | number n => exact .inr (Number.isNumeralText_toString n)
  | text s => exact .inl rfl

theorem Value.cell_shows {v : Value} {cell : String} (h : v.cell? = some cell) :
    v.text? = some cell ∨ Number.IsNumeralText cell := by
  cases v with
  | missing => exact .inr (Option.some.inj h ▸ isNumeralText_empty)
  | flag b => exact .inr (Option.some.inj h ▸ Number.isNumeralText_render _)
  | number q =>
    obtain ⟨x, -, rfl⟩ := Option.map_eq_some_iff.1 h
    exact .inr (Number.isNumeralText_render x)
  | text s => exact .inl h

theorem mem_parts_of_shown {hasIncluded : Bool} {l : Location} {p : Part}
    (h : p ∈ l.shown hasIncluded) : p ∈ l.parts := by
  cases hasIncluded <;> simp [Location.shown, Location.parts] at h ⊢ <;> tauto

variable {t : Table}

theorem map_eq_of_mapM {α β : Type} {f : α → Option β} {as : List α} {bs : List β}
    (h : as.mapM f = some bs) : as.map f = bs.map some := by
  induction as generalizing bs with
  | nil => cases h; rfl
  | cons a as ih =>
    simp only [List.mapM_cons, bind, Option.bind_eq_some_iff, pure, Option.some.injEq] at h
    obtain ⟨b, hb, bs, hbs, rfl⟩ := h
    rw [List.map_cons, List.map_cons, hb, ih hbs]

theorem shows_of_row {r : Row} (hr : r ∈ t.rows) {cells : List String}
    (hcells : r.cells t.hasIncluded = .ok cells) {cell : String} (hcell : cell ∈ cells) :
    t.Shows cell := by
  have htexts : ∀ s ∈ r.texts, s ∈ t.texts := fun s hs =>
    List.mem_append_right _ (List.mem_flatMap.2 ⟨r, hr, hs⟩)
  unfold Row.cells at hcells
  cases hvalues : r.values.mapM Value.cell? with
  | none => rw [hvalues] at hcells; cases hcells
  | some values =>
    rw [hvalues] at hcells
    obtain rfl : _ = cells := Except.ok.inj hcells
    rcases List.mem_append.1 hcell with hpart | hvalue
    · obtain ⟨p, hp, rfl⟩ := List.mem_map.1 hpart
      refine p.cell_shows.imp (fun htext => htexts _ ?_) .inr
      exact List.mem_append_left _ (List.mem_filterMap.2 ⟨p, mem_parts_of_shown hp, htext⟩)
    · have hmem : some cell ∈ r.values.map Value.cell? :=
        map_eq_of_mapM hvalues ▸ List.mem_map_of_mem hvalue
      obtain ⟨v, hv, hshown⟩ := List.mem_map.1 hmem
      refine (Value.cell_shows hshown).imp (fun htext => htexts _ ?_) .inr
      exact List.mem_append_right _ (List.mem_filterMap.2 ⟨v, hv, htext⟩)

theorem shows_of_header {cell : String} (h : cell ∈ t.header) : t.Shows cell :=
  (List.mem_append.1 h).elim (fun h => .inr (.inl h)) fun h => .inl (List.mem_append_left _ h)

def written (t : Table) : List (List String) :=
  t.header :: (untilFailure (t.rows.map (Row.cells t.hasIncluded))).1

theorem shows_of_written {row : List String} (hrow : row ∈ t.written) {cell : String}
    (hcell : cell ∈ row) : t.Shows cell := by
  rcases List.mem_cons.1 hrow with rfl | hrow
  · exact shows_of_header hcell
  · obtain ⟨r, hr, hcells⟩ := List.mem_map.1 (mem_of_mem_untilFailure hrow)
    exact shows_of_row hr hcells hcell

theorem Shows.unbroken (h : ∀ s ∈ t.texts, Unbroken s) {cell : String} (hcell : t.Shows cell) :
    Unbroken cell := by
  rcases hcell with htext | hheading | hnumber
  · exact h cell htext
  · revert cell
    cases t.hasIncluded <;> decide
  · exact hnumber.not_lineEnd

theorem Shows.unquoted (h : ∀ s ∈ t.texts, Unquoted s) {cell : String} (hcell : t.Shows cell) :
    Unquoted cell := by
  rcases hcell with htext | hheading | hnumber
  · exact h cell htext
  · revert cell
    cases t.hasIncluded <;> decide
  · exact hnumber.unquoted

end Table

namespace Delimited

def pieces (row : List String) : List String :=
  row.flatMap fun cell => (cellsOf ';' (writeCell ';' cell.toList)).map String.ofList

def separators (row : List String) : Nat := (row.map fun cell => cell.toList.count ';').sum

theorem length_pieces (row : List String) : (pieces row).length = row.length + separators row := by
  induction row with
  | nil => rfl
  | cons cell row ih =>
    have hcell : (cellsOf ';' (writeCell ';' cell.toList)).length = cell.toList.count ';' + 1 := by
      rw [length_cellsOf, count_writeCell (by decide)]
    rw [pieces, List.flatMap_cons, ← pieces, List.length_append, List.length_map, hcell, ih]
    simp only [separators, List.map_cons, List.sum_cons, List.length_cons]
    omega

theorem pieces_cell {cell : String} (h : Unbroken cell) :
    (cellsOf ';' (writeCell ';' cell.toList)).map String.ofList = [cell] ↔ Unquoted cell := by
  have hneeds : needsQuotes ';' cell.toList = false ↔ Unquoted cell := by
    have hfeed : ∀ c ∈ cell.toList, c ≠ '\n' := by
      rintro c hc rfl
      exact absurd (h _ hc) (by decide)
    simp only [needsQuotes, List.any_eq_false, decide_eq_true_eq, Unquoted]
    exact forall₂_congr fun c hc => by simp [hfeed c hc]
  constructor
  · intro hread
    obtain ⟨piece, hpieces, hpiece⟩ := List.map_eq_singleton_iff.1 hread
    have hjoin := join_cellsOf ';' (writeCell ';' cell.toList)
    rw [hpieces] at hjoin
    have hwritten : writeCell ';' cell.toList = cell.toList := by
      rw [← hjoin, ← hpiece, String.toList_ofList]
      rfl
    exact hneeds.1 (writeCell_eq_self_iff.1 hwritten)
  · intro hplain
    rw [writeCell_eq_self (hneeds.2 hplain), cellsOf_eq_singleton fun hmem => (hplain _ hmem).1 rfl]
    simp

theorem pieces_eq_self_iff {row : List String} (h : ∀ cell ∈ row, Unbroken cell) :
    pieces row = row ↔ ∀ cell ∈ row, Unquoted cell := by
  induction row with
  | nil => simp [pieces]
  | cons cell row ih =>
    obtain ⟨hcell, hrow⟩ := List.forall_mem_cons.1 h
    rw [List.forall_mem_cons, ← ih hrow, ← pieces_cell hcell, pieces, List.flatMap_cons, ← pieces]
    refine ⟨fun hall => ?_, fun ⟨hfirst, hrest⟩ => by rw [hfirst, hrest]; rfl⟩
    -- each cell gives at least one piece, so none can give more
    have hlength := congrArg List.length hall
    have hone : 1 ≤ (cellsOf ';' (writeCell ';' cell.toList)).length := by
      rw [length_cellsOf]
      omega
    have hmore := length_pieces row
    simp only [List.length_append, List.length_map, List.length_cons] at hlength
    have hsplit : ((cellsOf ';' (writeCell ';' cell.toList)).map String.ofList).length =
        [cell].length := by
      rw [List.length_map, List.length_singleton]
      omega
    exact List.append_inj hall hsplit

end Delimited

namespace Comparison

theorem unifyLineEnds_eq_self {cs : List Char} (h : '\r' ∉ cs) : Text.unifyLineEnds cs = cs := by
  induction cs with
  | nil => rfl
  | cons c cs ih =>
    obtain ⟨hc, hcs⟩ := not_or.1 (mt List.mem_cons.2 h)
    rw [Text.unifyLineEnds, ih hcs, if_neg (Ne.symm hc)]
    rintro ds rfl _
    exact absurd rfl hc

theorem mem_writeRows {rows : List (List String)} {c : Char}
    (h : c ∈ (Delimited.writeRows rows).toList) :
    c = ';' ∨ c = '"' ∨ c = '\n' ∨ ∃ row ∈ rows, ∃ cell ∈ row, c ∈ cell.toList := by
  rw [Delimited.writeRows, String.toList_ofList] at h
  obtain ⟨row, hrow, hc⟩ := List.mem_flatMap.1 h
  rcases List.mem_append.1 hc with hc | hc
  · rcases Delimited.mem_writeCells hc with rfl | rfl | ⟨_, htext, hc⟩
    · exact .inl rfl
    · exact .inr (.inl rfl)
    · obtain ⟨cell, hcell, rfl⟩ := List.mem_map.1 htext
      exact .inr (.inr (.inr ⟨row, hrow, cell, hcell, hc⟩))
  · exact .inr (.inr (.inl (List.mem_singleton.1 hc)))

theorem rowsOf_writeCells {rows : List (List String)} (h : ∀ row ∈ rows, row ≠ []) :
    rowsOf ';' (rows.map fun row => Delimited.writeCells ';' (row.map String.toList)) =
      rows.map Delimited.pieces := by
  rw [rowsOf, List.map_map]
  refine List.map_congr_left fun row hrow => ?_
  have hne : row.map String.toList ≠ [] := mt List.map_eq_nil_iff.1 (h row hrow)
  rw [Function.comp_apply, Delimited.cellsOf_writeCells hne, List.flatMap_map, List.map_flatMap,
    Delimited.pieces]

theorem header_no_hint (t : Table) :
    hint.isPrefixOf (Delimited.writeCells ';' (t.header.map String.toList)) = false := by
  obtain ⟨next, cells, hheader⟩ : ∃ next cells, t.header = "Source File" :: next :: cells := by
    cases hincluded : t.hasIncluded <;>
      exact ⟨_, _, by rw [Table.header, hincluded, Table.locationHeader]; rfl⟩
  rw [hheader, List.map_cons, List.map_cons, Delimited.writeCells_cons_cons,
    Delimited.writeCell_eq_self (by decide)]
  rfl

theorem read_writeRows {rows : List (List String)}
    (hhint : ∀ line ∈ (rows.map fun row => Delimited.writeCells ';' (row.map String.toList)).head?,
      hint.isPrefixOf line = false)
    (hne : ∀ row ∈ rows, row ≠ []) (h : ∀ row ∈ rows, ∀ cell ∈ row, Unbroken cell) :
    ResultFile.read (Delimited.writeRows rows) = .ok ⟨';', rows.map Delimited.pieces⟩ := by
  have hreturn : '\r' ∉ (Delimited.writeRows rows).toList := by
    intro hmem
    rcases mem_writeRows hmem with heq | heq | heq | ⟨row, hrow, cell, hcell, hc⟩
    · exact absurd heq (by decide)
    · exact absurd heq (by decide)
    · exact absurd heq (by decide)
    · exact absurd (h row hrow cell hcell _ hc) (by decide)
  rw [ResultFile.read, unifyLineEnds_eq_self hreturn, Delimited.splitLines_writeRows h,
    ← rowsOf_writeCells hne]
  generalize rows.map (fun row => Delimited.writeCells ';' (row.map String.toList)) = lines at hhint ⊢
  cases lines with
  | nil => rfl
  | cons line lines =>
    have hline : hint.isPrefixOf line = false := hhint line rfl
    simp only [hline, Bool.false_eq_true, if_false]

end Comparison

namespace Table

open Comparison Delimited

variable {t : Table}

theorem written_ne_nil {row : List String} (h : row ∈ t.written) : row ≠ [] := by
  rcases List.mem_cons.1 h with rfl | h
  · cases hincluded : t.hasIncluded <;> simp [header, locationHeader]
  · obtain ⟨r, -, hcells⟩ := List.mem_map.1 (mem_of_mem_untilFailure h)
    unfold Row.cells at hcells
    split at hcells
    · rw [← Except.ok.inj hcells]
      simp [Location.shown]
    · cases hcells

/-- A table whose texts have no line ends, written and read for a comparison. Each line is read as the
pieces of its cells. So the reader gives the written rows exactly if no written cell has a separator or
a quotation mark in it, which only texts of the table can have, and a row has one cell too many for each
separator in its cells. -/
theorem read_as_pieces (t : Table) (h : ∀ s ∈ t.texts, Unbroken s) :
    ∃ rows, untilFailure (t.rows.map (Row.cells t.hasIncluded)) = (rows, t.write.2) ∧
      (t.write.2 = none ↔ t.rows.map (Row.cells t.hasIncluded) = rows.map .ok) ∧
      ResultFile.read t.write.1 = .ok ⟨';', (t.header :: rows).map pieces⟩ ∧
      (∀ row ∈ t.header :: rows, (pieces row).length = row.length + separators row) ∧
      (ResultFile.read t.write.1 = .ok ⟨';', t.header :: rows⟩ ↔
        ∀ row ∈ t.header :: rows, ∀ cell ∈ row, Unquoted cell) ∧
      ((∀ s ∈ t.texts, Unquoted s) →
        ResultFile.read t.write.1 = .ok ⟨';', t.header :: rows⟩) := by
  have hunbroken : ∀ row ∈ t.written, ∀ cell ∈ row, Unbroken cell := fun row hrow cell hcell =>
    (shows_of_written hrow hcell).unbroken h
  have hread : ResultFile.read t.write.1 = .ok ⟨';', t.written.map pieces⟩ := by
    refine read_writeRows ?_ (fun row => written_ne_nil) hunbroken
    intro line hline
    rw [← Option.some.inj hline]
    exact header_no_hint t
  have hplain : ResultFile.read t.write.1 = .ok ⟨';', t.written⟩ ↔
      ∀ row ∈ t.written, ∀ cell ∈ row, Unquoted cell := by
    have hself : t.written.map pieces = t.written ↔ ∀ row ∈ t.written, pieces row = row := by
      simpa using List.map_inj_left (f := pieces) (g := id) (l := t.written)
    rw [hread, Except.ok.injEq, ResultFile.mk.injEq, and_iff_right rfl, hself]
    exact forall₂_congr fun row hrow => pieces_eq_self_iff (hunbroken row hrow)
  have hall : t.write.2 = none ↔ t.rows.map (Row.cells t.hasIncluded) =
      (untilFailure (t.rows.map (Row.cells t.hasIncluded))).1.map .ok := by
    refine untilFailure_eq_none_iff.trans ⟨?_, fun hrows => ⟨_, hrows⟩⟩
    rintro ⟨rows, hrows⟩
    rw [hrows, untilFailure_ok]
  exact ⟨_, rfl, hall, hread, fun row _ => length_pieces row, hplain, fun hplainTexts =>
    hplain.2 fun row hrow cell hcell => (shows_of_written hrow hcell).unquoted hplainTexts⟩

def quotedTable : Table where
  hasIncluded := false
  metrics := ["A", "B"]
  rows := [⟨⟨.text "a;b.c", .absent, .number 1, .text "f"⟩, [.text "x", .missing]⟩,
    ⟨⟨.text "c.c", .absent, .number 2, .absent⟩, [.text "\"x\"", .text "y"]⟩]

theorem read_as_pieces_quoted :
    quotedTable.write.2 = none ∧ ResultFile.read quotedTable.write.1 = .ok ⟨';', [
      ["Source File", "Line No.", "Element", "A", "B"],
      ["\"a", "b.c\"", "1", "f", "x", ""],
      ["c.c", "2", "", "\"\"\"x\"\"\"", "y"]]⟩ := by
  have hunbroken : ∀ s ∈ quotedTable.texts, Unbroken s := by decide +kernel
  obtain ⟨rows, hrows, -, hread, -⟩ := read_as_pieces quotedTable hunbroken
  obtain ⟨rfl, hnone⟩ := Prod.mk.inj hrows
  refine ⟨hnone.symm, ?_⟩
  rw [hread, Except.ok.injEq, ResultFile.mk.injEq, and_iff_right rfl]
  decide +kernel

end Table
end Variability
