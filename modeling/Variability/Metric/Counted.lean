import Variability.Scattering.Count
import Variability.Setting

set_option autoImplicit false

namespace Variability

/-- Without a model every variable counts, with one only those that it declares. -/
def counts (model : Option Model) (name : String) : Bool := model.all (·.declares name)

def countedIn (model : Option Model) (condition : Option Formula) : List String :=
  (mentionedIn model condition).filter (counts model)

theorem nodup_countedIn (model : Option Model) (condition : Option Formula) :
    (countedIn model condition).Nodup := (nodup_firstOccurrences _).filter _

namespace Code

/-- A block is a variation point if its presence condition has a variable that counts. -/
def Block.isPoint (model : Option Model) (b : Block) : Bool := countedIn model b.presence ≠ []

namespace Function

def outerVariables (model : Option Model) (f : Function) : List String :=
  countedIn model f.presence

def innerVariables (model : Option Model) (f : Function) : List String :=
  (firstOccurrences (f.blocks.flatMap fun b => countedIn model b.condition)).filter
    (· ∉ f.outerVariables model)

def allVariables (model : Option Model) (f : Function) : List String :=
  f.outerVariables model ++ (f.innerVariables model).filter (· ∉ f.outerVariables model)

def variablesIn (model : Option Model) (f : Function) : Scope → List String
  | .inner => f.innerVariables model
  | .outer => f.outerVariables model
  | .all => f.allVariables model

theorem mem_innerVariables {model : Option Model} {f : Function} {name : String} :
    name ∈ f.innerVariables model ↔
      (∃ b ∈ f.blocks, name ∈ countedIn model b.condition) ∧ name ∉ f.outerVariables model := by
  simp [innerVariables, mem_firstOccurrences]

theorem allVariables_eq (model : Option Model) (f : Function) :
    f.allVariables model = f.outerVariables model ++ f.innerVariables model := by
  rw [allVariables, List.filter_eq_self.2]
  intro name hname
  simpa using (mem_innerVariables.1 hname).2

theorem nodup_allVariables (model : Option Model) (f : Function) :
    (f.allVariables model).Nodup := by
  rw [allVariables_eq]
  refine List.nodup_append.2 ⟨nodup_countedIn _ _, (nodup_firstOccurrences _).filter _, ?_⟩
  rintro a ha b hb rfl
  exact (mem_innerVariables.1 hb).2 ha

end Function
end Code
end Variability
