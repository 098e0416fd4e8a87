import Variability.Delimited.Plain

set_option autoImplicit false

namespace Variability.Delimited

variable {separator : Char}

theorem cellsOf_append (as bs : List Char) :
    cellsOf separator (as ++ separator :: bs) = cellsOf separator as ++ cellsOf separator bs := by
  induction as with
  | nil => simp [cellsOf]
  | cons a as ih =>
    have hne := cellsOf_ne_nil separator as
    by_cases ha : a = separator
    · simp [cellsOf, ha, ih]
    · cases h : cellsOf separator as with
      | nil => exact absurd h hne
      | cons cell cells => simp [cellsOf, ha, ih, h]

theorem cellsOf_eq_singleton {cs : List Char} (h : separator ∉ cs) : cellsOf separator cs = [cs] := by
  induction cs with
  | nil => rfl
  | cons c cs ih =>
    obtain ⟨hc, hcs⟩ := not_or.1 (mt List.mem_cons.2 h)
    simp [cellsOf, Ne.symm hc, ih hcs]

theorem separator_not_mem_of_mem_cellsOf {cs cell : List Char} (h : cell ∈ cellsOf separator cs) :
    separator ∉ cell := by
  induction cs generalizing cell with
  | nil => simp_all [cellsOf]
  | cons c cs ih =>
    rw [cellsOf] at h
    split at h
    · rcases List.mem_cons.1 h with rfl | h
      · exact List.not_mem_nil
      · exact ih h
    · next hc =>
      cases hcells : cellsOf separator cs with
      | nil => exact absurd hcells (cellsOf_ne_nil separator cs)
      | cons first cells =>
        rw [hcells] at h ih
        rcases List.mem_cons.1 h with rfl | h
        · exact List.not_mem_cons_of_ne_of_not_mem (Ne.symm hc) (ih List.mem_cons_self)
        · exact ih (List.mem_cons_of_mem _ h)

theorem length_cellsOf (cs : List Char) :
    (cellsOf separator cs).length = cs.count separator + 1 := by
  induction cs with
  | nil => rfl
  | cons c cs ih =>
    rw [cellsOf]
    split
    · next hc =>
      subst hc
      rw [List.length_cons, ih, List.count_cons_self]
    · next hc =>
      rw [List.count_cons_of_ne hc, ← ih]
      cases h : cellsOf separator cs with
      | nil => exact absurd h (cellsOf_ne_nil separator cs)
      | cons cell cells => rfl

end Variability.Delimited
