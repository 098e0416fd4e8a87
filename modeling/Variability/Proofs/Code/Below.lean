import Variability.Proofs.Code.Origin

/-!
Presence conditions below a given one. The outermost blocks of a function stand below the presence
condition of the function as those of a file stand below the constant true.
-/

set_option autoImplicit false

namespace Variability.Code

def presenceBelow (outer : Option Formula) : Option Block → Option Formula
  | none => outer
  | some b => b.presence

@[simp] theorem presenceBelow_some (outer : Option Formula) (b : Block) :
    presenceBelow outer (some b) = b.presence := rfl

/-- A block asks what is asked around it, none of the earlier branches of its chain and what it says
itself. -/
def Block.Composed (outer : Option Formula) (around : Option Block) (earlier : List Block)
    (b : Block) : Prop :=
  b.presence = some (Builder.branchPresence (presenceBelow outer around)
    (earlier.map (·.condition)) b.condition)

variable {outer : Option Formula} {around : Option Block} {earlier : List Block} {b : Block}

theorem Block.Composed.mem_names {name : String} (h : b.Composed outer around earlier)
    (hname : name ∈ conditionNames b.presence) :
    name ∈ conditionNames (presenceBelow outer around) ∨
      (∃ e ∈ earlier, name ∈ conditionNames e.condition) ∨ name ∈ conditionNames b.condition := by
  rw [h, mem_conditionNames_branchPresence] at hname
  refine hname.imp_right (Or.imp_left fun ⟨_, hc, hname⟩ => ?_)
  obtain ⟨e, he, rfl⟩ := List.mem_map.1 hc
  exact ⟨e, he, hname⟩

theorem Block.Composed.own_names {name : String} (h : b.Composed outer around earlier)
    (hname : name ∈ conditionNames b.condition) : name ∈ conditionNames b.presence := by
  rw [h, mem_conditionNames_branchPresence]
  exact .inr (.inr hname)

end Variability.Code
