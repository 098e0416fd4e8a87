import Variability.Formula

set_option autoImplicit false

namespace Variability.Formula

def eval (v : String → Bool) : Formula → Bool
  | .tru => true
  | .fls => false
  | .var name => v name
  | .neg f => !eval v f
  | .conj l r => eval v l && eval v r
  | .disj l r => eval v l || eval v r

@[simp] theorem eval_negate (v : String → Bool) (f : Formula) : f.negate.eval v = !f.eval v := by
  cases f <;> simp [negate, eval]

/-- A missing conjunct says nothing, so it holds. -/
def holds (v : String → Bool) : Option Formula → Bool
  | none => true
  | some f => f.eval v

theorem eval_conjoin (v : String → Bool) (f : Formula) (fs : List Formula) :
    (conjoin f fs).eval v = (f.eval v && fs.all (·.eval v)) := by
  induction fs generalizing f with
  | nil => simp [conjoin]
  | cons g fs ih => simp [conjoin, ih, eval, Bool.and_assoc]

theorem all_filterMap_conjunct (v : String → Bool) (fs : List (Option Formula)) :
    (fs.filterMap conjunct?).all (·.eval v) = fs.all (holds v) := by
  induction fs with
  | nil => rfl
  | cons f fs ih =>
    cases f with
    | none => simpa [conjunct?, holds] using ih
    | some f => cases f <;> simp_all [conjunct?, holds, eval]

theorem eval_conjunction (v : String → Bool) (fs : List (Option Formula)) :
    (conjunction fs).eval v = fs.all (holds v) := by
  rw [← all_filterMap_conjunct]
  unfold conjunction
  split
  · next h => simp [h, eval]
  · next f rest h => simp [h, eval_conjoin]

end Variability.Formula
