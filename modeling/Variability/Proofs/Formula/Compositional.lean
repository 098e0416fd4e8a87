import Variability.Formula

/-!
Properties that conditions hand on. Presence conditions are put together from own conditions by
negating them and joining them to conjunctions.
-/

set_option autoImplicit false

namespace Variability.Formula

/-- What is put together from formulas with the property has it too. -/
structure Compositional (P : Formula → Prop) : Prop where
  tru : P .tru
  negate : ∀ f, P f → P f.negate
  conj : ∀ l r, P l → P r → P (.conj l r)

theorem eq_of_conjunct {f : Option Formula} {g : Formula} (h : conjunct? f = some g) : f = some g := by
  cases f with
  | none => cases h
  | some f => cases f <;> cases h <;> rfl

namespace Compositional

variable {P : Formula → Prop} (hP : Compositional P)

include hP

theorem conjoin {f : Formula} {fs : List Formula} (hf : P f) (hfs : ∀ g ∈ fs, P g) :
    P (Formula.conjoin f fs) := by
  induction fs generalizing f with
  | nil => exact hf
  | cons g fs ih =>
    obtain ⟨hg, hrest⟩ := List.forall_mem_cons.1 hfs
    exact ih (hP.conj f g hf hg) hrest

theorem conjunction {fs : List (Option Formula)} (h : ∀ o ∈ fs, ∀ f ∈ o, P f) :
    P (Formula.conjunction fs) := by
  have hconjuncts : ∀ g ∈ fs.filterMap conjunct?, P g := by
    intro g hg
    obtain ⟨o, ho, hconjunct⟩ := List.mem_filterMap.1 hg
    exact h o ho g (eq_of_conjunct hconjunct)
  unfold Formula.conjunction
  split
  · exact hP.tru
  · next f rest hsplit =>
    rw [hsplit] at hconjuncts
    obtain ⟨hf, hrest⟩ := List.forall_mem_cons.1 hconjuncts
    exact hP.conjoin hf hrest

end Compositional
end Variability.Formula
