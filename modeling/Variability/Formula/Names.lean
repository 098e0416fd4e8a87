import Variability.Formula

set_option autoImplicit false

namespace Variability

def firstOccurrences {α : Type} [DecidableEq α] : List α → List α
  | [] => []
  | a :: as => a :: (firstOccurrences as).filter (· ≠ a)

theorem mem_firstOccurrences {α : Type} [DecidableEq α] {a : α} {as : List α} :
    a ∈ firstOccurrences as ↔ a ∈ as := by
  induction as with
  | nil => simp [firstOccurrences]
  | cons b as ih => by_cases h : a = b <;> simp [firstOccurrences, h, ih]

theorem nodup_firstOccurrences {α : Type} [DecidableEq α] (as : List α) :
    (firstOccurrences as).Nodup := by
  induction as with
  | nil => simp [firstOccurrences]
  | cons a as ih => exact List.nodup_cons.2 ⟨by simp, ih.filter _⟩

namespace Formula

def occurrences : Formula → List String
  | .tru | .fls => []
  | .var name => [name]
  | .neg f => occurrences f
  | .conj l r | .disj l r => occurrences l ++ occurrences r

def names (f : Formula) : List String := firstOccurrences f.occurrences

theorem mem_names {f : Formula} {name : String} : name ∈ f.names ↔ name ∈ f.occurrences :=
  mem_firstOccurrences

theorem occurrences_negate (f : Formula) : f.negate.occurrences = f.occurrences := by
  cases f <;> rfl

end Formula

/-- The names in a condition; a missing condition has none. -/
def conditionNames : Option Formula → List String
  | none => []
  | some f => f.names

end Variability
