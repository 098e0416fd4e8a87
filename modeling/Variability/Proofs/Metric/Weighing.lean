import Variability.Proofs.Code.Unfolding
import Variability.Proofs.Metric.Weighted

/-!
A weighing of several files as a whole. Weights are doubles when they are added, so an integer that
is too large for one ends the weighing where it is met.
-/

set_option autoImplicit false

namespace Variability

/-- The exact value of a quantity. What is infinite or no number has none. -/
def Quantity.rational? : Quantity → Option ℚ
  | .whole n => some n
  | .real (.finite negative units) => some (Double.signed negative units / (Double.one : ℚ))
  | .real _ => none

/-- All occurrences of variables in the conditions of a file, going over its blocks with a stack. -/
def Code.SourceFile.mentioned (f : Code.SourceFile) : List String :=
  f.iterBlocks.flatMap fun b => (b.condition.map Formula.occurrences).getD []

theorem Code.SourceFile.mentioned_eq (f : Code.SourceFile) : f.mentioned = f.occurrences := by
  rw [mentioned, Code.iterBlocks_eq_walk, occurrences]

namespace Weights

variable (w : Weights)

def rational? (name : String) : Option ℚ := ((w.find? name).getD .zero).rational?

def exactSum? (names : List String) : Option ℚ :=
  addWeights (fun sum x => some (sum + x)) w.rational? 0 names

theorem exactSum?_from {names : List String} {exact : String → ℚ}
    (h : ∀ n ∈ names, w.rational? n = some (exact n)) (start : ℚ) :
    addWeights (fun sum x => some (sum + x)) w.rational? start names =
      some (start + (names.map exact).sum) := by
  induction names generalizing start with
  | nil => exact congrArg some (add_zero start).symm
  | cons name names ih =>
    obtain ⟨hname, hnames⟩ := List.forall_mem_cons.1 h
    rw [addWeights_cons, hname, List.map_cons, List.sum_cons, ← add_assoc]
    exact ih hnames (start + exact name)

theorem exactSum?_eq {names : List String} {exact : String → ℚ}
    (h : ∀ n ∈ names, w.rational? n = some (exact n)) :
    w.exactSum? names = some (∑ n ∈ names.toFinset, names.count n * exact n) := by
  rw [exactSum?, w.exactSum?_from h, zero_add, Finset.sum_list_map_count]
  simp only [nsmul_eq_mul]

theorem sum_map_count (names : List String) (weight : String → Nat) :
    (names.map weight).sum = ∑ n ∈ names.toFinset, names.count n * weight n := by
  rw [Finset.sum_list_map_count]
  simp only [smul_eq_mul]

theorem doubleOf_whole {name : String} {k : Nat} (h : (w.find? name).getD .zero = .whole k)
    (hsmall : k < 2 ^ Double.precision) : w.doubleOf name = .ofInt k := by
  unfold doubleOf double?
  cases hfound : w.find? name with
  | none =>
    obtain rfl : 0 = k := by simpa [hfound, Quantity.zero, eq_comm] using h
    exact Double.ofInt_zero.symm
  | some q =>
    obtain rfl : q = .whole k := by simpa [hfound] using h
    rw [Option.getD_some, Quantity.toDouble?, Double.ofInt?_natCast hsmall, Option.getD_some]

/-- Where names weigh natural numbers or nothing, a small sum is not rounded. -/
theorem sumOf_whole {names : List String} {weight : String → Nat}
    (h : ∀ n ∈ names, (w.find? n).getD .zero = .whole (weight n))
    (hsmall : ∑ n ∈ names.toFinset, names.count n * weight n < 2 ^ Double.precision) :
    sumOf (names.map w.doubleOf) =
      .ofInt (∑ n ∈ names.toFinset, names.count n * weight n : Nat) := by
  rw [← sum_map_count] at hsmall ⊢
  have hdouble : ∀ n ∈ names, w.doubleOf n = .ofInt (weight n) := fun n hn =>
    w.doubleOf_whole (h n hn)
      (Nat.lt_of_le_of_lt (List.le_sum_of_mem (List.mem_map_of_mem hn)) hsmall)
  rw [List.map_congr_left hdouble, ← Double.sumOf_natCast hsmall]
  simp only [List.map_map, Function.comp_def]

end Weights

/-- The weighing of some files. Up to the first weight beyond the range of doubles, each file has the sum of
its occurrences in their order, and each name without a weight is told when it first comes. In exact
arithmetic a file has the weights of its variables, each as often as it occurs. -/
theorem weighted_files (name : String) (w : Weights) (nameOf : Code.SourceFile → String)
    (files : List Code.SourceFile) :
    let stream := weightedStream name w nameOf files
    let inRange (n : String) : Bool := (w.double? n).isSome
    (∀ n, w.double? n = match w.find? n with
      | none => some .zero
      | some (.real x) => some x
      | some (.whole k) => Double.ofInt? k) ∧
    stream.findings = (files.takeWhile fun f => f.mentioned.all inRange).map (fun f =>
      weightedFinding (nameOf f) (sumOf (f.mentioned.map w.doubleOf))) ∧
    stream.failure = (if files.all fun f => f.mentioned.all inRange then none else some .outOfRange) ∧
    stream.messages = (firstOccurrences (((files.flatMap Code.SourceFile.mentioned).takeWhile
      inRange).filter fun n => w.find? n = none)).map .unknownWeight ∧
    ∀ f ∈ files,
      (∀ exact : String → ℚ, (∀ n ∈ f.mentioned, w.rational? n = some (exact n)) →
        w.exactSum? f.mentioned = some (∑ n ∈ f.mentioned.toFinset, f.mentioned.count n * exact n)) ∧
      ∀ weight : String → Nat, (∀ n ∈ f.mentioned, (w.find? n).getD .zero = .whole (weight n)) →
        ∑ n ∈ f.mentioned.toFinset, f.mentioned.count n * weight n < 2 ^ Double.precision →
          sumOf (f.mentioned.map w.doubleOf) =
            .ofInt (∑ n ∈ f.mentioned.toFinset, f.mentioned.count n * weight n : Nat) := by
  intro stream inRange
  have hrange : ∀ f : Code.SourceFile, f.mentioned.all inRange = true ↔ w.InRange f.occurrences :=
    fun f => by rw [f.mentioned_eq, List.all_eq_true]; rfl
  have hstream : stream = _ := weightedStream_eq name w nameOf files
  refine ⟨fun n => ?_, ?_, ?_, ?_, fun f _ => ⟨fun exact => w.exactSum?_eq, fun weight => w.sumOf_whole⟩⟩
  · unfold Weights.double?
    cases w.find? n with
    | none => rfl
    | some q => cases q <;> rfl
  · have hfinding : w.findingOf nameOf = fun f =>
        weightedFinding (nameOf f) (sumOf (f.mentioned.map w.doubleOf)) := by
      funext f
      rw [f.mentioned_eq, Weights.findingOf]
    rw [hstream, Weights.weighed]
    simp only [← hrange, Bool.decide_eq_true, hfinding]
  · rw [hstream]
    simp only [List.all_eq_true, hrange]
  · rw [hstream, funext Code.SourceFile.mentioned_eq]
    rfl

/-- A weight that is too large for a double has an exact sum, but its file has no value. -/
theorem no_value_beyond_range :
    let condition := Formula.var "A"
    let file : Code.SourceFile := ⟨"a.c", "a.c",
      .block ⟨.first, some condition, some condition, 1, 1, none, false⟩ .nil .nil, []⟩
    let w : Weights := .ofList [("A", .whole (10 ^ 309))] none
    w.exactSum? file.mentioned = some (10 ^ 309) ∧
      ¬ ∃ x, (weightedStream "" w (·.path) [file]).findings = [weightedFinding "a.c" x] := by
  intro condition file w
  have hmentioned : file.mentioned = ["A"] := file.mentioned_eq
  have hnone : (weightedStream "" w (·.path) [file]).findings = [] := by decide +kernel
  refine ⟨?_, ?_⟩
  · have hexact : ∀ n ∈ ["A"], w.rational? n = some (10 ^ 309 : ℚ) := by
      intro n hn
      obtain rfl := List.mem_singleton.1 hn
      have hfound : w.find? "A" = some (.whole (10 ^ 309)) := rfl
      rw [Weights.rational?, hfound]
      exact congrArg some (by simp only [Int.cast_pow, Int.cast_ofNat])
    rw [hmentioned, w.exactSum?_eq hexact]
    simp
  · rintro ⟨x, hx⟩
    rw [hnone] at hx
    cases hx

end Variability
