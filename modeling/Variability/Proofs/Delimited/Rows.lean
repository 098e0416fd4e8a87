import Mathlib.Data.List.TakeWhile
import Variability.Proofs.Delimited.RoundTrip
import Variability.Proofs.Text.Line

set_option autoImplicit false

namespace Variability.Delimited

variable {separator : Char}

/-- The row that a line is if nothing is quoted over its end. -/
def rowOf (separator : Char) (line : List Char) : List String :=
  (line.foldl (Row.step separator) .empty).finish.map String.ofList

def OneLine (separator : Char) (lines : List (List Char)) : Prop :=
  ∀ line ∈ lines.dropLast, (line.foldl (Row.step separator) .empty).place ≠ .quoted

instance (separator : Char) (lines : List (List Char)) : Decidable (OneLine separator lines) :=
  List.decidableBAll _ _

theorem rowsFrom_eq_map {lines : List (List Char)} (h : OneLine separator lines) :
    rowsFrom separator .empty lines =
      lines.map fun line => (line.foldl (Row.step separator) .empty).finish := by
  induction lines with
  | nil => rfl
  | cons line lines ih =>
    rw [rowsFrom, List.map_cons]
    cases lines with
    | nil =>
      -- a cell that is still quoted ends with the last line
      by_cases hplace : (line.foldl (Row.step separator) .empty).place = .quoted
      · simp only [hplace, if_true, rowsFrom, List.map_nil]
      · simp only [hplace, if_false, List.map_nil]
        rfl
    | cons next lines =>
      have hplace := h line (by simp)
      have hrest : OneLine separator (next :: lines) := fun l hl => h l (by simp [hl])
      simp only [hplace, if_false, ih hrest]

theorem rows_eq_takeWhile {lines : List (List Char)} (h : OneLine separator lines) :
    rows separator lines =
      ((lines.map (rowOf separator)).takeWhile isNarrow,
        if (lines.map (rowOf separator)).all isNarrow then none else some .wideCell) := by
  have hrows := untilFailure_map_ite isNarrow id .wideCell (lines.map (rowOf separator))
  rw [List.map_id, List.map_map] at hrows
  rw [rows, rowsFrom_eq_map h, List.map_map]
  exact hrows

/-- A cell that is written. Quotation marks may also stand where there is no need of them. -/
structure Cell where
  text : String
  quoted : Bool
  deriving DecidableEq, Repr

def Cell.write (separator : Char) (cell : Cell) : List Char :=
  if cell.quoted then '"' :: doubleQuotes cell.text.toList ++ ['"']
  else writeCell separator cell.text.toList

def writeLine (separator : Char) : List Cell → List Char
  | [] => []
  | [cell] => cell.write separator
  | cell :: cells => cell.write separator ++ separator :: writeLine separator cells

theorem mem_doubleQuotes_of_mem {c : Char} {cs : List Char} (h : c ∈ cs) : c ∈ doubleQuotes cs := by
  induction cs with
  | nil => exact h
  | cons d ds ih =>
    rw [doubleQuotes]
    rcases List.mem_cons.1 h with rfl | h
    · split
      · next hc => simp [hc]
      · exact List.mem_cons_self
    · split
      · exact List.mem_cons_of_mem _ (List.mem_cons_of_mem _ (ih h))
      · exact List.mem_cons_of_mem _ (ih h)

theorem Cell.mem_write_of_mem {cell : Cell} {c : Char} (h : c ∈ cell.text.toList) :
    c ∈ cell.write separator := by
  have hquoted : c ∈ '"' :: doubleQuotes cell.text.toList ++ ['"'] := by
    simp [mem_doubleQuotes_of_mem h]
  unfold Cell.write writeCell
  split
  · exact hquoted
  · split
    · exact hquoted
    · exact h

theorem Cell.mem_write {cell : Cell} {c : Char} (h : c ∈ cell.write separator) :
    c = '"' ∨ c ∈ cell.text.toList := by
  unfold Cell.write at h
  split at h
  · simp only [List.cons_append, List.mem_cons, List.mem_append, List.not_mem_nil, or_false] at h
    rcases h with rfl | h | rfl
    · exact .inl rfl
    · exact .inr (mem_doubleQuotes h)
    · exact .inl rfl
  · exact mem_writeCell h

theorem mem_writeLine {c : Char} {cells : List Cell} (h : c ∈ writeLine separator cells) :
    c = separator ∨ c = '"' ∨ ∃ cell ∈ cells, c ∈ cell.text.toList := by
  induction cells with
  | nil => cases h
  | cons cell cells ih =>
    have hcell : c ∈ cell.write separator →
        c = separator ∨ c = '"' ∨ ∃ other ∈ cell :: cells, c ∈ other.text.toList := fun h =>
      .inr ((Cell.mem_write h).imp_right fun hc => ⟨cell, List.mem_cons_self, hc⟩)
    cases cells with
    | nil => exact hcell h
    | cons next cells =>
      rw [writeLine, List.mem_append, List.mem_cons] at h
      · rcases h with h | rfl | h
        · exact hcell h
        · exact .inl rfl
        · refine (ih h).imp_right (Or.imp_right ?_)
          exact fun ⟨other, hother, hc⟩ => ⟨other, List.mem_cons_of_mem _ hother, hc⟩
      · exact List.cons_ne_nil _ _

theorem mem_writeLine_of_mem_head {c : Char} {cell : Cell} (h : c ∈ cell.text.toList) (cells : List Cell) :
    c ∈ writeLine separator (cell :: cells) := by
  cases cells with
  | nil => exact Cell.mem_write_of_mem h
  | cons next cells => exact List.mem_append_left _ (Cell.mem_write_of_mem h)

namespace Row

variable {r : Row} {cells : List (List Char)} {cell breaks : List Char}

theorem AtStart.foldl_write (h : r.AtStart cells) {cell : Cell} (hcell : Text.WithoutBreaks cell.text.toList) :
    ((cell.write separator).foldl (step separator) r).AtCell cells cell.text.toList := by
  unfold Cell.write
  split
  · exact h.foldl_quoted _
  · exact h.foldl_writeCell hcell

theorem AtStart.foldl_writeLine (h : r.AtStart cells) (hseparator : IsSeparator separator) {more : List Cell}
    (hmore : ∀ cell ∈ more, Text.WithoutBreaks cell.text.toList) (hne : more ≠ []) :
    ∃ before last, ((writeLine separator more).foldl (step separator) r).AtCell before last ∧
      before.reverse ++ [last] = cells.reverse ++ more.map fun cell => cell.text.toList := by
  induction more generalizing r cells with
  | nil => exact absurd rfl hne
  | cons cell more ih =>
    obtain ⟨hcell, hrest⟩ := List.forall_mem_cons.1 hmore
    have hread : ((cell.write separator).foldl (step separator) r).AtCell cells cell.text.toList :=
      h.foldl_write hcell
    cases more with
    | nil => exact ⟨cells, _, hread, rfl⟩
    | cons next more =>
      obtain ⟨before, last, hlast, hcells⟩ :=
        ih (hread.step_separator hseparator) hrest (List.cons_ne_nil _ _)
      refine ⟨before, last, ?_, ?_⟩
      · rw [writeLine, List.foldl_append, List.foldl_cons]
        · exact hlast
        · exact List.cons_ne_nil _ _
      · simpa using hcells

theorem foldl_ended (hplace : r.place = .ended) (cs : List Char) : cs.foldl (step separator) r = r := by
  induction cs with
  | nil => rfl
  | cons c cs ih =>
    have hstep : step separator r c = r := by simp [step, hplace]
    rw [List.foldl_cons, hstep, ih]

theorem AtCell.finish_breaks (h : r.AtCell cells cell) (hseparator : IsSeparator separator)
    (hbreaks : ∀ c ∈ breaks, isBreak c) :
    (breaks.foldl (step separator) r).place ≠ .quoted ∧
      ((breaks.foldl (step separator) r).finish = cells.reverse ++ [cell] ∨
        (breaks.foldl (step separator) r).finish = [] ∧ cells = [] ∧ cell = []) := by
  have hclosed : (r.close .ended).cells.reverse = cells.reverse ++ [cell] := by
    simp [close, h.finished, h.begun]
  cases breaks with
  | nil =>
    rcases h.position with ⟨hplace, hnil, hempty⟩ | ⟨hplace, -⟩ | hplace | hplace
    · exact ⟨by simp [hplace], .inr ⟨by simp [Row.finish, hplace, h.finished, hnil], hnil, hempty⟩⟩
    all_goals exact ⟨by simp [hplace], .inl (by simp only [List.foldl_nil, Row.finish, hplace, hclosed])⟩
  | cons c breaks =>
    have hc : isBreak c = true := hbreaks c List.mem_cons_self
    have hother : c ≠ separator ∧ c ≠ '"' := by
      constructor
      · rintro rfl
        exact Bool.false_ne_true (hseparator.2.symm.trans hc)
      · rintro rfl
        cases hc
    rcases h.position with ⟨hplace, hnil, hempty⟩ | hplace
    · have hstep : step separator r c = { r with place := .ended } := by simp [step, hplace, hc]
      rw [List.foldl_cons, hstep, foldl_ended rfl]
      exact ⟨by simp, .inr ⟨by simp [Row.finish, h.finished, hnil], hnil, hempty⟩⟩
    · have hstep : step separator r c = r.close .ended := by
        rcases hplace with ⟨hplace, -⟩ | hplace | hplace <;> simp [step, hplace, hc, hother]
      rw [List.foldl_cons, hstep, foldl_ended rfl]
      exact ⟨by simp [close], .inl hclosed⟩

end Row

theorem rowOf_writeLine (hseparator : IsSeparator separator) {cells : List Cell} {line : List Char}
    (hcells : ∀ cell ∈ cells, Text.WithoutBreaks cell.text.toList) (hne : cells ≠ [])
    (hline : Text.Ended (writeLine separator cells) line) :
    (line.foldl (Row.step separator) .empty).place ≠ .quoted ∧
      (rowOf separator line = cells.map (·.text) ∨
        rowOf separator line = [] ∧ cells.map (·.text) = [""]) := by
  obtain ⟨breaks, hbreaks, rfl⟩ := hline
  obtain ⟨before, last, hlast, htexts⟩ := Row.atStart_empty.foldl_writeLine hseparator hcells hne
  obtain ⟨hplace, hfinish⟩ := hlast.finish_breaks hseparator hbreaks
  have htext : (cells.map (·.text)) = (before.reverse ++ [last]).map String.ofList := by
    rw [htexts]
    simp [Function.comp_def]
  rw [rowOf, List.foldl_append, htext]
  refine ⟨hplace, ?_⟩
  rcases hfinish with hfinish | ⟨hfinish, rfl, rfl⟩
  · exact .inl (congrArg _ hfinish)
  · exact .inr ⟨congrArg _ hfinish, rfl⟩

end Variability.Delimited
