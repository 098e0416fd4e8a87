set_option autoImplicit false

namespace Variability.Delimited

/-- The cells between the separators of a line; every line has at least one. -/
def cellsOf (separator : Char) : List Char → List (List Char)
  | [] => [[]]
  | c :: cs =>
    if c = separator then [] :: cellsOf separator cs
    else
      match cellsOf separator cs with
      | [] => [[c]]
      | cell :: cells => (c :: cell) :: cells

def join (separator : Char) : List (List Char) → List Char
  | [] => []
  | [cell] => cell
  | cell :: cells => cell ++ separator :: join separator cells

theorem cellsOf_ne_nil (separator : Char) (cs : List Char) : cellsOf separator cs ≠ [] := by
  cases cs with
  | nil => simp [cellsOf]
  | cons c cs => simp only [cellsOf]; repeat' split
                 all_goals simp

theorem join_cellsOf (separator : Char) (cs : List Char) :
    join separator (cellsOf separator cs) = cs := by
  induction cs with
  | nil => rfl
  | cons c cs ih =>
    have hne := cellsOf_ne_nil separator cs
    simp only [cellsOf]
    cases h : cellsOf separator cs with
    | nil => exact absurd h hne
    | cons cell cells =>
      rw [h] at ih
      by_cases hc : c = separator
      · simp [hc, join, ih]
      · cases cells with
        | nil => simpa [hc, join] using ih
        | cons d ds => simpa [hc, join] using ih

end Variability.Delimited
