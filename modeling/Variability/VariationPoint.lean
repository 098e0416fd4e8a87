import Variability.Formula

/-!
Counting variation points in a sequence of presence conditions. A condition is a new point unless it
repeats the last counted one or is an alternative guessed for an earlier point.
-/

set_option autoImplicit false

namespace Variability

/-- The condition presumed for the other branch of a point: the part inherited from the
predecessor is kept and the new part negated; without such a part all of it is negated. -/
def Formula.alternativeAfter (predecessor : Option Formula) : Formula → Formula
  | .conj l r =>
    if some l = predecessor then .conj l r.negate
    else if some r = predecessor then .conj l.negate r
    else .neg (.conj l r)
  | f => f.negate

/-- The points counted so far, latest first, over a baseline that is never counted. -/
structure PointCounter where
  baseline : Option Formula
  points : List Formula := []
  alternatives : List Formula := []
  deriving DecidableEq, Repr

namespace PointCounter

def last (c : PointCounter) : Option Formula :=
  match c.points with
  | [] => c.baseline
  | p :: _ => some p

def count (c : PointCounter) : Nat := c.points.length

def add (c : PointCounter) : Option Formula → PointCounter
  | none => c
  | some p =>
    if some p = c.last ∨ p ∈ c.alternatives then c
    else { c with
      points := p :: c.points
      alternatives := p.alternativeAfter c.last :: c.alternatives }

@[simp] theorem add_none (c : PointCounter) : c.add none = c := rfl

def addAll (c : PointCounter) (ps : List (Option Formula)) : PointCounter := ps.foldl add c

theorem add_last (c : PointCounter) : c.add c.last = c := by
  cases h : c.last with
  | none => rfl
  | some p => exact if_pos (Or.inl h.symm)

theorem add_alternative {c : PointCounter} {p : Formula} (h : p ∈ c.alternatives) :
    c.add (some p) = c := if_pos (Or.inr h)

theorem count_add_le (c : PointCounter) (p : Option Formula) : (c.add p).count ≤ c.count + 1 := by
  cases p with
  | none => simp
  | some p => simp only [add, count]; split <;> simp

end PointCounter

def countPoints (baseline : Option Formula) (ps : List (Option Formula)) : Nat :=
  (PointCounter.addAll ⟨baseline, [], []⟩ ps).count

end Variability
