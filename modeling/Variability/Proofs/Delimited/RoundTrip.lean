import Variability.Delimited.Reader
import Variability.Delimited.Writer
import Variability.Proofs.Delimited.Plain
import Variability.Text.Line

/-!
Rows that are written and read again. A row of one empty cell is not covered: it is written as an
empty line, which is a row without cells.
-/

set_option autoImplicit false

namespace Variability.Delimited

variable {separator : Char}

def IsSeparator (separator : Char) : Prop := separator ≠ '"' ∧ Row.isBreak separator = false

theorem writeCells_cons_cons (cell next : List Char) (cells : List (List Char)) :
    writeCells separator (cell :: next :: cells) =
      writeCell separator cell ++ separator :: writeCells separator (next :: cells) := rfl

namespace Row

/-- The row after reading a cell that has been begun and is not quoted any more. -/
structure AtCell (r : Row) (cells : List (List Char)) (cell : List Char) : Prop where
  finished : r.cells = cells
  begun : r.current = cell.reverse
  position : (r.place = .rowStart ∧ cells = [] ∧ cell = []) ∨ (r.place = .cellStart ∧ cell = []) ∨
    r.place = .plain ∨ r.place = .quoteSeen

structure AtStart (r : Row) (cells : List (List Char)) : Prop where
  finished : r.cells = cells
  begun : r.current = []
  position : (r.place = .rowStart ∧ cells = []) ∨ r.place = .cellStart

theorem atStart_empty : AtStart .empty [] := ⟨rfl, rfl, .inl ⟨rfl, rfl⟩⟩

variable {r : Row} {cells : List (List Char)} {cell cs : List Char}

theorem foldl_plain (hcs : ∀ c ∈ cs, isBreak c = false ∧ c ≠ separator) (hplace : r.place = .plain) :
    cs.foldl (step separator) r = { r with current := cs.reverse ++ r.current } := by
  induction cs generalizing r with
  | nil => rfl
  | cons c cs ih =>
    obtain ⟨hc, hcs⟩ := List.forall_mem_cons.1 hcs
    have hstep : step separator r c = { r with current := c :: r.current } := by
      simp [step, hplace, hc.1, hc.2, push]
    rw [List.foldl_cons, hstep, ih (r := { r with current := c :: r.current }) hcs hplace]
    simp

theorem foldl_doubleQuotes (hplace : r.place = .quoted) (cs : List Char) :
    (doubleQuotes cs).foldl (step separator) r = { r with current := cs.reverse ++ r.current } := by
  induction cs generalizing r with
  | nil => rfl
  | cons c cs ih =>
    by_cases hc : c = '"'
    · subst hc
      have hstep : step separator (step separator r '"') '"' = { r with current := '"' :: r.current } := by
        simp [step, hplace, push]
      rw [doubleQuotes, if_pos rfl, List.foldl_cons, List.foldl_cons, hstep,
        ih (r := { r with current := '"' :: r.current }) hplace]
      simp
    · have hstep : step separator r c = { r with current := c :: r.current } := by
        simp [step, hplace, hc, push]
      rw [doubleQuotes, if_neg hc, List.foldl_cons, hstep,
        ih (r := { r with current := c :: r.current }) hplace]
      simp

theorem AtStart.place_eq (h : r.AtStart cells) : r.place = .rowStart ∨ r.place = .cellStart :=
  h.position.imp_left And.left

theorem AtStart.foldl_quoted (h : r.AtStart cells) (cell : List Char) :
    (('"' :: doubleQuotes cell ++ ['"']).foldl (step separator) r).AtCell cells cell := by
  have hquote : step separator r '"' = { r with place := .quoted } := by
    rcases h.place_eq with hplace | hplace <;> simp [step, hplace, isBreak]
  rw [List.cons_append, List.foldl_cons, hquote, List.foldl_append, foldl_doubleQuotes rfl]
  refine ⟨?_, ?_, ?_⟩ <;> simp [step, h.finished, h.begun]

theorem AtStart.foldl_writeCell (h : r.AtStart cells) (hcell : ∀ c ∈ cell, isBreak c = false) :
    ((writeCell separator cell).foldl (step separator) r).AtCell cells cell := by
  unfold writeCell
  split
  · exact h.foldl_quoted cell
  · next hplain =>
    have hneeds : ∀ c ∈ cell, c ≠ separator ∧ c ≠ '"' := by
      intro c hc
      simp only [needsQuotes, List.any_eq_true, decide_eq_true_eq, not_exists, not_and, not_or] at hplain
      exact ⟨(hplain c hc).1, (hplain c hc).2.1⟩
    cases cell with
    | nil =>
      refine ⟨h.finished, by simpa using h.begun, ?_⟩
      rcases h.position with ⟨hplace, hcells⟩ | hplace
      · exact .inl ⟨hplace, hcells, rfl⟩
      · exact .inr (.inl ⟨hplace, rfl⟩)
    | cons c cs =>
      obtain ⟨hc, hcs⟩ := List.forall_mem_cons.1 hcell
      obtain ⟨hsep, hquote⟩ := hneeds c List.mem_cons_self
      have hstep : step separator r c = { r with place := .plain, current := [c] } := by
        rcases h.place_eq with hplace | hplace <;>
          simp [step, hplace, hc, hsep, hquote, push, h.begun]
      rw [List.foldl_cons, hstep, foldl_plain (fun d hd =>
        ⟨hcs d hd, (hneeds d (List.mem_cons_of_mem c hd)).1⟩) rfl]
      exact ⟨h.finished, by simp, .inr (.inr (.inl rfl))⟩

theorem AtCell.step_separator (h : r.AtCell cells cell) (hseparator : IsSeparator separator) :
    (step separator r separator).AtStart (cell :: cells) := by
  have hclose : step separator r separator = r.close .cellStart := by
    rcases h.position with ⟨hplace, -⟩ | ⟨hplace, -⟩ | hplace | hplace <;>
      simp [step, hplace, hseparator.1, hseparator.2]
  rw [hclose]
  exact ⟨by simp [close, h.finished, h.begun], rfl, .inr rfl⟩

theorem AtCell.finish (h : r.AtCell cells cell) (hcells : cells ≠ []) :
    r.finish = cells.reverse ++ [cell] ∧ r.place ≠ .quoted := by
  rcases h.position with ⟨-, hnil, -⟩ | ⟨hplace, -⟩ | hplace | hplace
  · exact absurd hnil hcells
  all_goals simp [Row.finish, hplace, close, h.finished, h.begun]

theorem AtStart.foldl_writeCells (h : r.AtStart cells) (hseparator : IsSeparator separator)
    {more : List (List Char)} (hmore : ∀ cell ∈ more, ∀ c ∈ cell, isBreak c = false) (hne : more ≠ [])
    (hlength : 2 ≤ cells.length + more.length) :
    ((writeCells separator more).foldl (step separator) r).finish = cells.reverse ++ more ∧
      ((writeCells separator more).foldl (step separator) r).place ≠ .quoted := by
  induction more generalizing r cells with
  | nil => exact absurd rfl hne
  | cons cell more ih =>
    obtain ⟨hcell, hrest⟩ := List.forall_mem_cons.1 hmore
    have hread : ((writeCell separator cell).foldl (step separator) r).AtCell cells cell :=
      h.foldl_writeCell hcell
    cases more with
    | nil =>
      refine hread.finish ?_
      rintro rfl
      simp at hlength
    | cons next more =>
      have hcount : 2 ≤ (cell :: cells).length + (next :: more).length := by
        simp only [List.length_cons]
        omega
      have hnext := ih (hread.step_separator hseparator) hrest (List.cons_ne_nil _ _) hcount
      rw [writeCells_cons_cons, List.foldl_append, List.foldl_cons]
      simpa using hnext

end Row

/-- Rows of at least two cells without line breaks are read as they were written. -/
theorem rowsFrom_writeCells (hseparator : IsSeparator separator) {rows : List (List (List Char))}
    (h : ∀ row ∈ rows, 2 ≤ row.length ∧ ∀ cell ∈ row, ∀ c ∈ cell, Row.isBreak c = false) :
    rowsFrom separator .empty (rows.map (writeCells separator)) = rows := by
  induction rows with
  | nil => rfl
  | cons row rows ih =>
    obtain ⟨⟨hlength, hcells⟩, hrows⟩ := List.forall_mem_cons.1 h
    have hne : row ≠ [] := by
      rintro rfl
      simp at hlength
    obtain ⟨hfinish, hplace⟩ := Row.atStart_empty.foldl_writeCells hseparator hcells hne (by simpa)
    rw [List.map_cons, rowsFrom]
    simp only [hplace, if_false, hfinish, ih hrows]
    rfl

theorem mem_doubleQuotes {c : Char} {cs : List Char} (h : c ∈ doubleQuotes cs) : c ∈ cs := by
  induction cs with
  | nil => exact h
  | cons d ds ih =>
    rw [doubleQuotes] at h
    split at h
    · next hd =>
      rcases List.mem_cons.1 h with rfl | h
      · exact hd ▸ List.mem_cons_self
      · rcases List.mem_cons.1 h with rfl | h
        · exact hd ▸ List.mem_cons_self
        · exact List.mem_cons_of_mem _ (ih h)
    · rcases List.mem_cons.1 h with rfl | h
      · exact List.mem_cons_self
      · exact List.mem_cons_of_mem _ (ih h)

theorem mem_writeCell {c : Char} {cell : List Char} (h : c ∈ writeCell separator cell) :
    c = '"' ∨ c ∈ cell := by
  unfold writeCell at h
  split at h
  · rcases List.mem_cons.1 h with rfl | h
    · exact .inl rfl
    · rcases List.mem_append.1 h with h | h
      · exact .inr (mem_doubleQuotes h)
      · exact .inl (List.mem_singleton.1 h)
  · exact .inr h

theorem mem_writeCells {c : Char} {cells : List (List Char)} (h : c ∈ writeCells separator cells) :
    c = separator ∨ c = '"' ∨ ∃ cell ∈ cells, c ∈ cell := by
  induction cells with
  | nil => cases h
  | cons cell cells ih =>
    have hcell : c ∈ writeCell separator cell →
        c = separator ∨ c = '"' ∨ ∃ other ∈ cell :: cells, c ∈ other := fun h =>
      .inr ((mem_writeCell h).imp_right fun hc => ⟨cell, List.mem_cons_self, hc⟩)
    cases cells with
    | nil => exact hcell h
    | cons next cells =>
      rw [writeCells_cons_cons] at h
      rcases List.mem_append.1 h with h | h
      · exact hcell h
      · rcases List.mem_cons.1 h with rfl | h
        · exact .inl rfl
        · refine (ih h).imp_right (Or.imp_right ?_)
          exact fun ⟨other, hother, hc⟩ => ⟨other, List.mem_cons_of_mem _ hother, hc⟩

theorem splitLines_writeRows {rows : List (List String)}
    (h : ∀ row ∈ rows, ∀ cell ∈ row, ∀ c ∈ cell.toList, Text.isLineEnd c = false) :
    Text.splitLines (writeRows rows).toList =
      rows.map fun row => writeCells ';' (row.map String.toList) := by
  have hlines : (writeRows rows).toList =
      (rows.map fun row => writeCells ';' (row.map String.toList)).flatMap (· ++ ['\n']) := by
    simp [writeRows, List.flatMap_map]
    rfl
  rw [hlines, Text.splitLines_flatMap]
  intro line hline c hc
  obtain ⟨row, hrow, rfl⟩ := List.mem_map.1 hline
  rcases mem_writeCells hc with rfl | rfl | ⟨cell, hcell, hc⟩
  · decide
  · decide
  · obtain ⟨text, htext, rfl⟩ := List.mem_map.1 hcell
    exact h row hrow text htext c hc

theorem cellsOf_writeCells {cells : List (List Char)} (h : cells ≠ []) :
    cellsOf separator (writeCells separator cells) =
      cells.flatMap fun cell => cellsOf separator (writeCell separator cell) := by
  induction cells with
  | nil => exact absurd rfl h
  | cons cell cells ih =>
    cases cells with
    | nil => simp [writeCells]
    | cons next cells =>
      rw [writeCells_cons_cons, cellsOf_append, ih (List.cons_ne_nil _ _)]
      rfl

theorem count_doubleQuotes (h : separator ≠ '"') (cs : List Char) :
    (doubleQuotes cs).count separator = cs.count separator := by
  induction cs with
  | nil => rfl
  | cons c cs ih =>
    rw [doubleQuotes]
    split
    · next hc =>
      subst hc
      rw [List.count_cons_of_ne h.symm, List.count_cons_of_ne h.symm, ih,
        List.count_cons_of_ne h.symm]
    · rw [List.count_cons, List.count_cons, ih]

theorem count_writeCell (h : separator ≠ '"') (cell : List Char) :
    (writeCell separator cell).count separator = cell.count separator := by
  unfold writeCell
  split
  · rw [List.cons_append, List.count_cons_of_ne h.symm, List.count_append, count_doubleQuotes h,
      List.count_singleton]
    simp [h.symm]
  · rfl

theorem length_le_doubleQuotes (cs : List Char) : cs.length ≤ (doubleQuotes cs).length := by
  induction cs with
  | nil => exact Nat.le_refl 0
  | cons c cs ih =>
    rw [doubleQuotes]
    split <;> simp only [List.length_cons] <;> omega

theorem writeCell_eq_self_iff {cell : List Char} :
    writeCell separator cell = cell ↔ needsQuotes separator cell = false := by
  refine ⟨fun h => ?_, writeCell_eq_self⟩
  cases hneeds : needsQuotes separator cell with
  | false => rfl
  | true =>
    have hlength := congrArg List.length h
    have hle := length_le_doubleQuotes cell
    rw [writeCell, if_pos hneeds] at hlength
    simp only [List.length_append, List.length_cons, List.length_nil] at hlength
    omega

end Variability.Delimited
