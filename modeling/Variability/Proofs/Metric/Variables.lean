import Mathlib.Algebra.Group.Defs
import Mathlib.Tactic.Tauto
import Variability.Metric.PerFunction
import Variability.Proofs.Keyed

/-!
The variables of a function, outside and inside. Repetitions are left out in each condition, in each
function and against the variables outside, and each time after the names have been folded.
-/

set_option autoImplicit false

namespace Variability

/-- The variables of a condition as often as they occur, under the names that they are counted by. -/
def foldedIn (model : Option Model) (condition : Option Formula) : List String :=
  ((condition.map Formula.occurrences).getD []).map (normalizeName model)

theorem countedIn_eq (model : Option Model) (condition : Option Formula) :
    countedIn model condition = (firstOccurrences (foldedIn model condition)).filter (counts model) := by
  rw [countedIn, mentionedIn, foldedIn]
  cases condition with
  | none => rfl
  | some f =>
    rw [conditionNames, Formula.names, firstOccurrences_map]
    rfl

def exactSum {M : Type} [AddMonoid M] (weight : String → Except Failure M) (names : List String) :
    Except Failure M :=
  addWeights (fun a b => .ok (a + b)) weight 0 names

theorem addWeights_append {m : Type → Type} [Monad m] [LawfulMonad m] {α β : Type} (add : α → β → m α)
    (weight : String → m β) (start : α) (ms ns : List String) :
    addWeights add weight start (ms ++ ns) =
      addWeights add weight start ms >>= fun sum => addWeights add weight sum ns :=
  List.foldlM_append

theorem addWeights_exact {M : Type} [AddMonoid M] (weight : String → Except Failure M) (start : M)
    (names : List String) :
    addWeights (fun a b => .ok (a + b)) weight start names = (exactSum weight names).map (start + ·) := by
  induction names generalizing start with
  | nil => exact congrArg Except.ok (add_zero start).symm
  | cons name names ih =>
    have hcons : ∀ a, addWeights (fun a b => .ok (a + b)) weight a (name :: names) =
        weight name >>= fun x => addWeights (fun a b => .ok (a + b)) weight (a + x) names := by
      intro a
      unfold addWeights
      rw [List.foldlM_cons]
      cases weight name <;> rfl
    rw [exactSum, hcons, hcons]
    cases weight name with
    | error e => rfl
    | ok x =>
      change addWeights _ weight (start + x) names = Except.map _ (addWeights _ weight (0 + x) names)
      rw [ih, ih, zero_add]
      cases exactSum weight names with
      | error e => rfl
      | ok sum => exact congrArg Except.ok (add_assoc start x sum)

theorem exactSum_append {M : Type} [AddMonoid M] (weight : String → Except Failure M)
    (ms ns : List String) :
    exactSum weight (ms ++ ns) = (do
      let before ← exactSum weight ms
      let behind ← exactSum weight ns
      return before + behind) := by
  have happend := addWeights_append (fun a b => Except.ok (a + b)) weight 0 ms ns
  rw [exactSum, happend]
  refine congrArg (exactSum weight ms >>= ·) (funext fun before => ?_)
  rw [addWeights_exact]
  cases exactSum weight ns <;> rfl

def Weights.Whole (w : Weights) : Prop := ∀ name q, w.find? name = some q → ∃ n, q = .whole n

theorem Weights.Whole.addWeights_eq {w : Weights} (h : w.Whole) (names : List String) :
    ∃ r : Except Failure Int, ∀ n : Int,
      addWeights addQuantity w.get (.whole n) names = r.map fun sum => .whole (n + sum) := by
  induction names with
  | nil => exact ⟨.ok 0, fun n => by rw [Except.map, Int.add_zero]; rfl⟩
  | cons name names ih =>
    obtain ⟨r, hr⟩ := ih
    cases hfound : w.find? name with
    | none =>
      refine ⟨.error (.weightless name), fun n => ?_⟩
      rw [addWeights, List.foldlM_cons, Weights.get, hfound]
      rfl
    | some q =>
      obtain ⟨k, rfl⟩ := h name q hfound
      refine ⟨r.map (k + ·), fun n => ?_⟩
      have hstep : addWeights addQuantity w.get (.whole n) (name :: names) =
          addWeights addQuantity w.get (.whole (n + k)) names := by
        rw [addWeights, List.foldlM_cons, Weights.get, hfound]
        rfl
      rw [hstep, hr]
      cases r with
      | error e => rfl
      | ok sum => simp [Except.map, Int.add_assoc]

theorem weigh_append {weights : Option Weights} (h : ∀ w ∈ weights, w.Whole) (ms ns : List String) :
    weigh weights (ms ++ ns) = (do
      let before ← weigh weights ms
      let behind ← weigh weights ns
      addQuantity before behind) := by
  cases weights with
  | none =>
    rw [weigh, List.length_append, Int.natCast_add]
    rfl
  | some w =>
    have hwhole : w.Whole := h w rfl
    obtain ⟨r, hr⟩ := hwhole.addWeights_eq ms
    obtain ⟨s, hs⟩ := hwhole.addWeights_eq ns
    have hms : weigh (some w) ms = r.map fun sum => .whole (0 + sum) := hr 0
    have hns : weigh (some w) ns = s.map fun sum => .whole (0 + sum) := hs 0
    have happend := addWeights_append addQuantity w.get .zero ms ns
    rw [weigh, happend, hms, hns, Quantity.zero, hr]
    cases r with
    | error e => rfl
    | ok before =>
      change addWeights addQuantity w.get (.whole (0 + before)) ns = _
      rw [hs]
      cases s with
      | error e => rfl
      | ok behind =>
        refine congrArg (fun n => Except.ok (Quantity.whole n)) ?_
        rw [Int.zero_add behind]

namespace Code.Function

def outside (model : Option Model) (f : Function) : List String := foldedIn model f.presence

def inside (model : Option Model) (f : Function) : List String :=
  f.blocks.flatMap fun b => foldedIn model b.condition

variable (model : Option Model) (f : Function)

theorem outerVariables_eq :
    f.outerVariables model = (firstOccurrences (f.outside model)).filter (counts model) :=
  countedIn_eq model f.presence

theorem innerVariables_eq :
    f.innerVariables model = (firstOccurrences (f.inside model)).filter fun name =>
      name ∉ f.outerVariables model && counts model name := by
  have hcounted : (fun b : Block => countedIn model b.condition) = fun b =>
      firstOccurrences ((foldedIn model b.condition).filter (counts model)) := by
    funext b
    rw [countedIn_eq, firstOccurrences_filter]
  rw [innerVariables, hcounted, firstOccurrences_flatMap, ← List.filter_flatMap, firstOccurrences_filter,
    List.filter_filter]
  rfl

theorem mem_outerVariables {name : String} :
    name ∈ f.outerVariables model ↔ name ∈ f.outside model ∧ counts model name := by
  rw [outerVariables_eq, List.mem_filter, mem_firstOccurrences]

theorem mem_innerVariables_iff {name : String} :
    name ∈ f.innerVariables model ↔
      (name ∈ f.inside model ∧ name ∉ f.outside model) ∧ counts model name := by
  rw [innerVariables_eq, List.mem_filter, mem_firstOccurrences, Bool.and_eq_true, decide_eq_true_iff,
    mem_outerVariables]
  by_cases hcounts : counts model name <;> simp [hcounts]

/-- The variables of a function are those outside and those inside. -/
theorem variables_partition :
    f.allVariables model = f.outerVariables model ++ f.innerVariables model ∧
    (f.allVariables model).Nodup ∧
    (∀ name, name ∈ f.allVariables model ↔
      (name ∈ f.outside model ∨ name ∈ f.inside model) ∧ counts model name) ∧
    (∀ name, name ∈ f.outerVariables model ↔ name ∈ f.allVariables model ∧ name ∈ f.outside model) ∧
    (∀ name, name ∈ f.innerVariables model ↔ name ∈ f.allVariables model ∧ name ∉ f.outside model) ∧
    (f.outerVariables model).Pairwise
      (fun a b => (f.outside model).idxOf a < (f.outside model).idxOf b) ∧
    (f.innerVariables model).Pairwise
      (fun a b => (f.inside model).idxOf a < (f.inside model).idxOf b) ∧
    (∀ weights : Option Weights, (∀ w ∈ weights, w.Whole) →
      (FunctionMetric.usage .all weights).value model f = (do
        let outer ← (FunctionMetric.usage .outer weights).value model f
        let inner ← (FunctionMetric.usage .inner weights).value model f
        addQuantity outer inner)) ∧
    ∀ {M : Type} [AddMonoid M] (weight : String → Except Failure M),
      exactSum weight (f.variablesIn model .all) = (do
        let outer ← exactSum weight (f.variablesIn model .outer)
        let inner ← exactSum weight (f.variablesIn model .inner)
        return outer + inner) := by
  have hall : ∀ name, name ∈ f.allVariables model ↔
      (name ∈ f.outside model ∨ name ∈ f.inside model) ∧ counts model name := by
    intro name
    rw [allVariables_eq, List.mem_append, mem_outerVariables, mem_innerVariables_iff]
    by_cases houtside : name ∈ f.outside model <;> simp [houtside]
  have hvariables : f.variablesIn model .all =
      f.variablesIn model .outer ++ f.variablesIn model .inner := f.allVariables_eq model
  refine ⟨hvariables, f.nodup_allVariables model, hall, fun name => ?_, fun name => ?_, ?_, ?_,
    fun weights h => ?_, fun weight => ?_⟩
  · rw [hall, mem_outerVariables]
    tauto
  · rw [hall, mem_innerVariables_iff]
    tauto
  · rw [outerVariables_eq]
    exact (pairwise_firstOccurrences _).filter _
  · rw [innerVariables_eq]
    exact (pairwise_firstOccurrences _).filter _
  · rw [FunctionMetric.value, hvariables]
    exact weigh_append h _ _
  · rw [hvariables]
    exact exactSum_append weight _ _

def twoSpellings : Function :=
  let block (condition : Option Formula) : Block := ⟨.first, condition, condition, 1, 1, none, false⟩
  let children := .block (block (some (.conj (.var "A") (.var "C_MODULE"))))
    (.block (block (some (.disj (.var "E") (.neg (.var "D_MODULE"))))) .nil .nil) <|
    .block (block none) .nil <| .block (block (some (.conj (.var "C") (.var "D")))) .nil .nil
  { name := "f"
    lineStart := 1
    lineEnd := 9
    presence := some (.conj (.var "A_MODULE") (.var "B"))
    children
    blocks := children.walk }

theorem variables_partition_twoSpellings :
    let model := some (Model.ofList (["A", "B", "C", "C_MODULE", "D"].map fun name => ⟨name, "tristate"⟩))
    let weights : Weights := ⟨[("A", .whole 5)], some (.whole 2)⟩
    twoSpellings.outerVariables model = ["A", "B"] ∧
    twoSpellings.innerVariables model = ["C_MODULE", "D", "C"] ∧
    weights.Whole ∧
    (FunctionMetric.usage .all (some weights)).value model twoSpellings = .ok (.whole (7 + 6)) := by
  intro model weights
  have hwhole : weights.Whole := by
    intro name q hfound
    by_cases hname : name = "A"
    · subst hname
      exact ⟨5, (Option.some.inj hfound).symm⟩
    · have hdefault : weights.find? name = some (.whole 2) := by
        simp [Weights.find?, weights, Ne.symm hname]
      exact ⟨2, Option.some.inj (hfound.symm.trans hdefault)⟩
  obtain ⟨-, -, -, -, -, -, -, hsum, -⟩ := variables_partition model twoSpellings
  refine ⟨by decide +kernel, by decide +kernel, hwhole, ?_⟩
  rw [hsum (some weights) fun w hw => Option.mem_some.1 hw ▸ hwhole]
  decide +kernel

end Code.Function
end Variability
