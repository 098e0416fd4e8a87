import Mathlib.Algebra.Order.BigOperators.Group.List
import Mathlib.Algebra.Order.Field.Basic
import Mathlib.Algebra.Order.Field.Rat
import Variability.Metric.PerFunction
import Variability.Proofs.Keyed
import Variability.Proofs.Metric.Fresh

set_option autoImplicit false

namespace Variability

open Code.Function (freshChains)

theorem foldl_max_le_iff {ds : List Nat} {a n : Nat} :
    ds.foldl max a ≤ n ↔ a ≤ n ∧ ∀ d ∈ ds, d ≤ n := by
  induction ds generalizing a with
  | nil => simp
  | cons d ds ih => simp [ih, and_assoc]

theorem le_foldl_max {ds : List Nat} {a d : Nat} (h : d ∈ ds) : d ≤ ds.foldl max a :=
  (foldl_max_le_iff.1 (Nat.le_refl _)).2 d h

theorem average_mem {ds : List Nat} (hne : ds ≠ []) (hpos : ∀ d ∈ ds, 1 ≤ d) :
    1 ≤ (ds.sum : ℚ) / ds.length ∧ (ds.sum : ℚ) / ds.length ≤ (ds.foldl max 0 : Nat) := by
  have hlength : (0 : ℚ) < ds.length := by exact_mod_cast List.length_pos_iff.2 hne
  have hlow : ds.length ≤ ds.sum := List.length_le_sum_of_one_le ds hpos
  have hhigh : ds.sum ≤ ds.foldl max 0 * ds.length := by
    rw [Nat.mul_comm]
    exact List.sum_le_card_nsmul ds _ fun d hd => le_foldl_max hd
  exact ⟨(one_le_div hlength).2 (by exact_mod_cast hlow),
    (div_le_iff₀ hlength).2 (by exact_mod_cast hhigh)⟩

theorem length_countedIn_le {model : Option Model} {c c' : Option Formula}
    (h : ∀ name ∈ conditionNames c, name ∈ conditionNames c') :
    (countedIn model c).length ≤ (countedIn model c').length := by
  refine (List.subperm_of_subset (nodup_countedIn model c) fun name hname => ?_).length_le
  simp only [countedIn, mentionedIn, List.mem_filter, mem_firstOccurrences, List.mem_map] at hname ⊢
  obtain ⟨⟨n, hn, hnormal⟩, hcounts⟩ := hname
  exact ⟨⟨n, h n hn, hnormal⟩, hcounts⟩

namespace Code

variable {model : Option Model} {f : Function}

theorem Forest.depths_eq_map_routes (model : Option Model) (enclosing : List Fork)
    (chain : List Block) (f : Forest) :
    f.depths model (enclosing.countP (·.taken.isPoint model)) =
      ((f.routes enclosing chain).filter (·.last.taken.isPoint model)).map
        fun r => r.enclosing.countP (·.taken.isPoint model) + 1 := by
  induction f generalizing enclosing chain with
  | nil => rfl
  | block b children next hchildren hnext =>
    have hinside := hchildren (enclosing ++ [⟨b.branch.earlier chain, b⟩]) []
    have hbehind := hnext enclosing (b.branch.earlier chain ++ [b])
    rw [List.countP_append, List.countP_singleton] at hinside
    rw [depths, routes, List.filter_cons, List.filter_append]
    by_cases hb : b.isPoint model
    · rw [if_pos hb] at hinside
      rw [if_pos hb, if_pos hb, List.map_cons, List.map_append, ← hinside, ← hbehind]
    · rw [if_neg hb] at hinside
      rw [if_neg hb, if_neg hb, List.map_append, ← hinside, ← hbehind]
      rfl

theorem Forest.mem_depths {outer : Nat} {f : Forest} :
    ∀ d ∈ f.depths model outer, outer < d ∧ d ≤ outer + (f.depths model outer).length := by
  induction f generalizing outer with
  | nil => simp [depths]
  | block b children next hchildren hnext =>
    intro d hd
    rw [depths] at hd ⊢
    split at hd
    · next hb =>
      rw [if_pos hb, List.length_cons, List.length_append]
      rcases List.mem_cons.1 hd with rfl | hd
      · omega
      · rcases List.mem_append.1 hd with hd | hd
        · have := hchildren d hd
          omega
        · have := hnext d hd
          omega
    · next hb =>
      rw [if_neg hb, List.length_append]
      rcases List.mem_append.1 hd with hd | hd
      · have := hchildren d hd
        omega
      · have := hnext d hd
        omega

namespace Function

def averageDepth (model : Option Model) (f : Function) : ℚ :=
  ((f.children.depths model 0).sum : ℚ) / (f.children.depths model 0).length

def deepest (model : Option Model) (f : Function) : Nat := (f.children.depths model 0).foldl max 0

theorem deepest_le (model : Option Model) (f : Function) :
    f.deepest model ≤ (f.children.depths model 0).length :=
  foldl_max_le_iff.2 ⟨Nat.zero_le _, fun d hd => by simpa using (Forest.mem_depths d hd).2⟩

theorem averageDepth_mem (h : f.children.depths model 0 ≠ []) :
    1 ≤ f.averageDepth model ∧ f.averageDepth model ≤ f.deepest model :=
  average_mem h fun d hd => (Forest.mem_depths d hd).1

theorem depths_vanish (model : Option Model) (f : Function) :
    (f.deepest model = 0 ↔ (f.children.depths model 0).length = 0) ∧
      (f.averageDepth model = 0 ↔ (f.children.depths model 0).length = 0) := by
  by_cases hds : f.children.depths model 0 = []
  · simp [deepest, averageDepth, hds]
  · obtain ⟨hone, hdeepest⟩ := averageDepth_mem hds
    have haverage : 0 < f.averageDepth model := lt_of_lt_of_le one_pos hone
    have hpos : 0 < f.deepest model := by exact_mod_cast lt_of_lt_of_le haverage hdeepest
    have hlength : (f.children.depths model 0).length ≠ 0 := by simpa using hds
    exact ⟨iff_of_false hpos.ne' hlength, iff_of_false haverage.ne' hlength⟩

theorem nesting_average (model : Option Model) (f : Function) :
    f.nesting model .average = if (f.children.depths model 0).length = 0 then .zero else
      .real ((Double.ofInt (f.children.depths model 0).sum).div
        (.ofInt (f.children.depths model 0).length)) := by
  unfold nesting
  cases hds : f.children.depths model 0 with
  | nil => rfl
  | cons d ds => rw [if_neg (by simp), List.sum_eq_foldl_nat]

theorem nesting_deepest (model : Option Model) (f : Function) :
    f.nesting model .deepest = .whole (f.deepest model) := by
  unfold nesting deepest
  cases f.children.depths model 0 <;> rfl

theorem length_tangled_le (model : Option Model) (f : Function) :
    (f.tangled model .visible).length ≤ (f.tangled model .full).length := by
  rw [tangled, tangled, List.length_flatMap, List.length_flatMap]
  refine List.sum_le_sum fun ⟨b, earlier⟩ _ => length_countedIn_le fun name hname => ?_
  obtain ⟨c, hc, hname⟩ := mem_conditionNames.1 hname
  have hown : some c ∈ earlier.map (fun f => some f.negate) ++ [b.condition] :=
    List.mem_append_right _ (List.mem_singleton.2 hc.symm)
  exact mem_conditionNames.2 ⟨_, rfl, Formula.mem_occurrences_conjunction.2 ⟨c, hown, hname⟩⟩

theorem length_innerVariables_le (model : Option Model) (hf : f.blocks = f.children.walk) :
    (f.innerVariables model).length ≤ (f.tangled model .visible).length := by
  have hbranches : f.tangled model .visible = f.blocks.flatMap fun b => countedIn model b.condition := by
    rw [hf, ← Forest.map_fst_withEarlier [], List.flatMap_map]
    rfl
  rw [hbranches, innerVariables]
  exact (List.filter_sublist.trans (firstOccurrences_sublist _)).length_le

theorem blockCount_chain_le (model : Option Model) (f : Function) :
    f.blockCount model .chain ≤ f.blockCount model .branch ∧
      f.blockCount model .chain + 1 ≤ f.complexity := by
  constructor
  · refine List.countP_mono_left fun b _ hb => ?_
    exact (Bool.and_eq_true_iff.1 hb).1
  · rw [complexity, Nat.add_comm]
    refine Nat.add_le_add_left (List.countP_mono_left fun b _ hb => ?_) 1
    have hfirst : b.branch = .first := by simpa using (Bool.and_eq_true_iff.1 hb).2
    simp [hfirst]

end Function
end Code

theorem FunctionMetric.values_consistent (model : Option Model) (f : Code.Function)
    (hf : f.blocks = f.children.walk) :
    ∃ separate asOne complexity deepest inner visible full : Nat,
      (blocks .branch).value model f = .ok (.whole separate) ∧
      (blocks .chain).value model f = .ok (.whole asOne) ∧
      FunctionMetric.complexity.value model f = .ok (.whole complexity) ∧
      (nesting .deepest).value model f = .ok (.whole deepest) ∧
      (nesting .average).value model f = .ok (if separate = 0 then .zero else
        .real ((Double.ofInt (f.children.depths model 0).sum).div (.ofInt separate))) ∧
      (usage .inner none).value model f = .ok (.whole inner) ∧
      (tangling .visible none).value model f = .ok (.whole visible) ∧
      (tangling .full none).value model f = .ok (.whole full) ∧
      (f.children.depths model 0).length = separate ∧
      f.children.depths model 0 =
        ((f.children.routes [] []).filter (·.last.taken.isPoint model)).map
          (fun r => r.enclosing.countP (·.taken.isPoint model) + 1) ∧
      asOne ≤ separate ∧ asOne ≤ complexity - 1 ∧ deepest ≤ separate ∧
      (deepest = 0 ↔ separate = 0) ∧ (f.averageDepth model = 0 ↔ separate = 0) ∧
      (separate ≠ 0 → 1 ≤ f.averageDepth model ∧ f.averageDepth model ≤ deepest) ∧
      inner ≤ visible ∧ visible ≤ full := by
  have hdepths : (f.children.depths model 0).length = f.blockCount model .branch := by
    rw [Code.Forest.length_depths, Code.Function.blockCount, hf]
  obtain ⟨hchains, hcomplexity⟩ := f.blockCount_chain_le model
  obtain ⟨hdeepest, haverage⟩ := f.depths_vanish model
  have hnesting := f.nesting_average model
  rw [hdepths] at hdeepest haverage hnesting
  refine ⟨_, _, _, _, _, _, _, rfl, rfl, rfl, congrArg Except.ok (f.nesting_deepest model),
    congrArg Except.ok hnesting, rfl, rfl, rfl, hdepths, Code.Forest.depths_eq_map_routes model [] [] _,
    hchains, by omega, hdepths ▸ f.deepest_le model, hdeepest, haverage, fun hne => ?_,
    f.length_innerVariables_le model hf, f.length_tangled_le model⟩
  exact f.averageDepth_mem fun hnil => hne (by rw [← hdepths, hnil]; rfl)

theorem FunctionMetric.values_consistent_freshChains :
    freshChains.blocks = freshChains.children.walk ∧
    ∃ separate asOne complexity deepest inner visible full : Nat,
      (blocks .branch).value none freshChains = .ok (.whole separate) ∧
      (blocks .chain).value none freshChains = .ok (.whole asOne) ∧
      FunctionMetric.complexity.value none freshChains = .ok (.whole complexity) ∧
      (nesting .deepest).value none freshChains = .ok (.whole deepest) ∧
      (nesting .average).value none freshChains = .ok (if separate = 0 then .zero else
        .real ((Double.ofInt (freshChains.children.depths none 0).sum).div (.ofInt separate))) ∧
      (usage .inner none).value none freshChains = .ok (.whole inner) ∧
      (tangling .visible none).value none freshChains = .ok (.whole visible) ∧
      (tangling .full none).value none freshChains = .ok (.whole full) ∧
      (freshChains.children.depths none 0).length = separate ∧
      freshChains.children.depths none 0 =
        ((freshChains.children.routes [] []).filter (·.last.taken.isPoint none)).map
          (fun r => r.enclosing.countP (·.taken.isPoint none) + 1) ∧
      asOne ≤ separate ∧ asOne ≤ complexity - 1 ∧ deepest ≤ separate ∧
      (deepest = 0 ↔ separate = 0) ∧ (freshChains.averageDepth none = 0 ↔ separate = 0) ∧
      (separate ≠ 0 → 1 ≤ freshChains.averageDepth none ∧ freshChains.averageDepth none ≤ deepest) ∧
      inner ≤ visible ∧ visible ≤ full :=
  ⟨rfl, values_consistent none freshChains rfl⟩

end Variability
