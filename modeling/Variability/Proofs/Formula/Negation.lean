import Variability.Proofs.Formula.Compositional

/-!
Formulas without a negated negation. Negating twice gives such a formula back, and this is what
comparing conditions as they are written relies on.
-/

set_option autoImplicit false

namespace Variability.Formula

def parts : Formula → List Formula
  | .tru => [.tru]
  | .fls => [.fls]
  | .var name => [.var name]
  | .neg f => .neg f :: parts f
  | .conj l r => .conj l r :: (parts l ++ parts r)
  | .disj l r => .disj l r :: (parts l ++ parts r)

theorem self_mem_parts (f : Formula) : f ∈ f.parts := by
  cases f <;> simp [parts]

theorem mem_parts_trans {f g k : Formula} (hk : k ∈ g.parts) (hg : g ∈ f.parts) : k ∈ f.parts := by
  induction f with
  | tru | fls | var =>
    obtain rfl := List.mem_singleton.1 hg
    exact hk
  | neg f ih =>
    rcases List.mem_cons.1 hg with rfl | hg
    · exact hk
    · exact List.mem_cons_of_mem _ (ih hg)
  | conj l r hl hr | disj l r hl hr =>
    rcases List.mem_cons.1 hg with rfl | hg
    · exact hk
    · exact List.mem_cons_of_mem _ (List.mem_append.2 ((List.mem_append.1 hg).imp hl hr))

/-- No negation stands directly below another one. -/
def SinglyNegated (f : Formula) : Prop := ∀ g, .neg (.neg g) ∉ f.parts

variable {f g l r : Formula}

@[simp] theorem singlyNegated_tru : SinglyNegated .tru := by simp [SinglyNegated, parts]

@[simp] theorem singlyNegated_fls : SinglyNegated .fls := by simp [SinglyNegated, parts]

@[simp] theorem singlyNegated_var (name : String) : SinglyNegated (.var name) := by
  simp [SinglyNegated, parts]

@[simp] theorem singlyNegated_neg : (neg f).SinglyNegated ↔ f.shape ≠ .neg ∧ f.SinglyNegated := by
  constructor
  · intro h
    refine ⟨?_, fun g hg => h g (List.mem_cons_of_mem _ hg)⟩
    cases f with
    | neg g => exact absurd (self_mem_parts _) (h g)
    | _ => simp [shape]
  · rintro ⟨hshape, hf⟩ g hg
    rcases List.mem_cons.1 hg with htwice | hg
    · obtain rfl := neg.inj htwice
      exact hshape rfl
    · exact hf g hg

@[simp] theorem singlyNegated_conj :
    (conj l r).SinglyNegated ↔ l.SinglyNegated ∧ r.SinglyNegated := by
  simp [SinglyNegated, parts, forall_and]

@[simp] theorem singlyNegated_disj :
    (disj l r).SinglyNegated ↔ l.SinglyNegated ∧ r.SinglyNegated := by
  simp [SinglyNegated, parts, forall_and]

instance decidableSinglyNegated : (f : Formula) → Decidable f.SinglyNegated
  | .tru => isTrue singlyNegated_tru
  | .fls => isTrue singlyNegated_fls
  | .var name => isTrue (singlyNegated_var name)
  | .neg f =>
    have := decidableSinglyNegated f
    decidable_of_iff _ singlyNegated_neg.symm
  | .conj l r =>
    have := decidableSinglyNegated l
    have := decidableSinglyNegated r
    decidable_of_iff _ singlyNegated_conj.symm
  | .disj l r =>
    have := decidableSinglyNegated l
    have := decidableSinglyNegated r
    decidable_of_iff _ singlyNegated_disj.symm

namespace SinglyNegated

theorem of_mem_parts (h : f.SinglyNegated) (hg : g ∈ f.parts) : g.SinglyNegated :=
  fun k hk => h k (mem_parts_trans hk hg)

theorem negate (h : f.SinglyNegated) : f.negate.SinglyNegated := by
  cases f with
  | neg f => exact (singlyNegated_neg.1 h).2
  | _ => exact singlyNegated_neg.2 ⟨by simp [shape], h⟩

theorem negate_negate (h : f.SinglyNegated) : f.negate.negate = f :=
  Formula.negate_negate fun g hf => h g (hf ▸ self_mem_parts f)

-- negating twice takes a negation off a negated negation
example :
    let f := Formula.neg (.neg (.var "A"))
    ¬ f.SinglyNegated ∧ f.negate.negate = .var "A" := by
  decide

end SinglyNegated

theorem compositional_singlyNegated : Compositional SinglyNegated where
  tru := singlyNegated_tru
  negate _ := SinglyNegated.negate
  conj _ _ hl hr := singlyNegated_conj.2 ⟨hl, hr⟩

end Variability.Formula
