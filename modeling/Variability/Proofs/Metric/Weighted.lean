import Variability.Metric.PerFile
import Variability.Proofs.Number.Exact
import Variability.Proofs.Scattering.Count

set_option autoImplicit false

namespace Variability

theorem firstOccurrences_told {α : Type} [DecidableEq α] (before : List α) (a : α) :
    (if a ∈ firstOccurrences before then firstOccurrences before
      else firstOccurrences before ++ [a]) = firstOccurrences (before ++ [a]) := by
  simp only [firstOccurrences_concat, mem_firstOccurrences]

theorem Weighing.run_bind {α β : Type} (x : Weighing α) (f : α → Weighing β) (told : List String) :
    (x >>= f).run told =
      match x.run told with
      | (.ok a, told) => (f a).run told
      | (.error e, told) => (.error e, told) := by
  change ExceptT.bindCont f (x.run told).1 (x.run told).2 = _
  obtain ⟨r, told⟩ := x.run told
  cases r <;> rfl

theorem addWeights_cons {m : Type → Type} [Monad m] {α β : Type} (add : α → β → m α)
    (weight : String → m β) (start : α) (name : String) (names : List String) :
    addWeights add weight start (name :: names) =
      (weight name >>= add start) >>= fun sum => addWeights add weight sum names :=
  List.foldlM_cons

def weightedFinding (name : String) (x : Double) : Finding :=
  ⟨⟨.text name, .absent, .absent, .absent⟩, .number (.real x)⟩

namespace Weights

variable (w : Weights)

/-- The weight that is added for a name; there is none if it is beyond the range of doubles. -/
def double? (name : String) : Option Double := ((w.find? name).getD (.real .zero)).toDouble?

def doubleOf (name : String) : Double := (w.double? name).getD .zero

def unknown (names : List String) : List String := names.filter fun name => w.find? name = none

def InRange (names : List String) : Prop := ∀ name ∈ names, (w.double? name).isSome

instance (names : List String) : Decidable (w.InRange names) :=
  inferInstanceAs (Decidable (∀ name ∈ names, (w.double? name).isSome))

/-- The names before the first one whose weight is beyond the range of doubles. -/
def met (names : List String) : List String := names.takeWhile fun name => (w.double? name).isSome

theorem met_cons {name : String} (h : (w.double? name).isSome) (names : List String) :
    w.met (name :: names) = name :: w.met names := by
  simp [met, h]

theorem met_append {ms : List String} (h : w.InRange ms) (ns : List String) :
    w.met (ms ++ ns) = ms ++ w.met ns :=
  List.takeWhile_append_of_pos h

theorem met_append_of_not {ms : List String} (h : ¬ w.InRange ms) (ns : List String) :
    w.met (ms ++ ns) = w.met ms := by
  induction ms with
  | nil => exact absurd (fun _ hn => absurd hn List.not_mem_nil) h
  | cons name ms ih =>
    by_cases hname : (w.double? name).isSome
    · have hrest : ¬ w.InRange ms := fun hms => h (List.forall_mem_cons.2 ⟨hname, hms⟩)
      rw [List.cons_append, w.met_cons hname, w.met_cons hname, ih hrest]
    · simp [met, hname]

theorem met_of_inRange {names : List String} (h : w.InRange names) : w.met names = names := by
  simpa [met] using w.met_append h []

theorem run_step (sum : Double) (name : String) (before : List String) :
    (w.find name >>= addToDouble sum).run (firstOccurrences before) =
      (match w.double? name with
        | some x => .ok (sum.add x)
        | none => .error .outOfRange,
      firstOccurrences (before ++ w.unknown [name])) := by
  unfold find double? unknown
  cases hfound : w.find? name with
  | none =>
    rw [List.filter_cons_of_pos (by simpa using hfound), List.filter_nil, ← firstOccurrences_told]
    rfl
  | some q =>
    rw [List.filter_cons_of_neg (by simp [hfound]), List.filter_nil, List.append_nil]
    simp only [Option.getD_some, pure_bind, addToDouble]
    cases q.toDouble? <;> rfl

theorem unknown_append (ms ns : List String) :
    w.unknown (ms ++ ns) = w.unknown ms ++ w.unknown ns :=
  List.filter_append ms ns

theorem run_addWeights (names : List String) (sum : Double) (before : List String) :
    (addWeights addToDouble w.find sum names).run (firstOccurrences before) =
      (if w.InRange names then .ok ((names.map w.doubleOf).foldl Double.add sum) else .error .outOfRange,
        firstOccurrences (before ++ w.unknown (w.met names))) := by
  induction names generalizing sum before with
  | nil =>
    have hnone : w.InRange [] := fun _ hn => absurd hn List.not_mem_nil
    rw [if_pos hnone, w.met_of_inRange hnone]
    simp [addWeights, unknown]
    rfl
  | cons name names ih =>
    rw [addWeights_cons, Weighing.run_bind, run_step]
    cases hx : w.double? name with
    | none =>
      have hout : ¬ w.InRange (name :: names) := fun h => by
        simpa [hx] using h name List.mem_cons_self
      have hmet : w.met (name :: names) = [] := by simp [met, hx]
      have hknown : w.unknown [name] = [] := by
        refine List.filter_cons_of_neg ?_
        rw [decide_eq_true_iff]
        intro hfound
        simp [double?, hfound, Quantity.toDouble?] at hx
      rw [if_neg hout, hmet, hknown]
      rfl
    | some x =>
      have hdouble : w.doubleOf name = x := by simp [doubleOf, hx]
      have hmet : w.met (name :: names) = [name] ++ w.met names := w.met_cons (by simp [hx]) names
      have hrange : w.InRange (name :: names) ↔ w.InRange names := by simp [InRange, hx]
      simp only [ih, hmet, unknown_append, List.append_assoc, hrange, List.map_cons, List.foldl_cons,
        hdouble]

variable (nameOf : Code.SourceFile → String)

def findingOf (f : Code.SourceFile) : Finding :=
  weightedFinding (nameOf f) (sumOf (f.occurrences.map w.doubleOf))

def weighed (files : List Code.SourceFile) : List Code.SourceFile :=
  files.takeWhile fun f => w.InRange f.occurrences

theorem ofFiles_eq (files : List Code.SourceFile) (before : List String) :
    w.ofFiles nameOf (firstOccurrences before) files =
      ((w.weighed files).map (w.findingOf nameOf),
        firstOccurrences (before ++ w.unknown (w.met (files.flatMap Code.SourceFile.occurrences))),
        if ∀ f ∈ files, w.InRange f.occurrences then none else some .outOfRange) := by
  induction files generalizing before with
  | nil => simp [ofFiles, unknown, weighed, met]
  | cons f files ih =>
    rw [ofFiles, ofFile, run_addWeights, List.flatMap_cons]
    by_cases hf : w.InRange f.occurrences
    · have hfiles : (∀ g ∈ f :: files, w.InRange g.occurrences) ↔
          ∀ g ∈ files, w.InRange g.occurrences := by simp [hf]
      have hweighed : w.weighed (f :: files) = f :: w.weighed files := by simp [weighed, hf]
      simp only [if_pos hf, ih, w.met_append hf, unknown_append, List.append_assoc, hfiles, hweighed,
        w.met_of_inRange hf]
      rfl
    · have hfiles : ¬ ∀ g ∈ f :: files, w.InRange g.occurrences :=
        fun h => hf (h f List.mem_cons_self)
      have hweighed : w.weighed (f :: files) = [] := by simp [weighed, hf]
      rw [if_neg hf, if_neg hfiles, w.met_append_of_not hf, hweighed]
      rfl

end Weights

theorem weightedStream_eq (name : String) (w : Weights) (nameOf : Code.SourceFile → String)
    (files : List Code.SourceFile) :
    weightedStream name w nameOf files = {
      name
      findings := (w.weighed files).map (w.findingOf nameOf)
      messages := (firstOccurrences
        (w.unknown (w.met (files.flatMap Code.SourceFile.occurrences)))).map .unknownWeight
      failure := if ∀ f ∈ files, w.InRange f.occurrences then none else some .outOfRange } := by
  have hrun := w.ofFiles_eq nameOf files []
  rw [show firstOccurrences ([] : List String) = [] from rfl, List.nil_append] at hrun
  rw [weightedStream, hrun]

/-- Weights that are in range give every file the sum of its occurrences and tell each name without
one once. -/
theorem weightedStream_ok (name : String) {w : Weights} (nameOf : Code.SourceFile → String)
    {files : List Code.SourceFile} (h : ∀ f ∈ files, w.InRange f.occurrences) :
    weightedStream name w nameOf files = {
      name
      findings := files.map (w.findingOf nameOf)
      messages := (firstOccurrences (w.unknown (files.flatMap Code.SourceFile.occurrences))).map
        .unknownWeight } := by
  have hall : w.InRange (files.flatMap Code.SourceFile.occurrences) := fun n hn => by
    obtain ⟨f, hf, hoccurs⟩ := List.mem_flatMap.1 hn
    exact h f hf n hoccurs
  have hweighed : w.weighed files = files :=
    List.takeWhile_eq_self_iff.2 fun f hf => decide_eq_true (h f hf)
  rw [weightedStream_eq, if_pos h, w.met_of_inRange hall, hweighed]

theorem weightedStream_failure (name : String) (w : Weights) (nameOf : Code.SourceFile → String)
    (files : List Code.SourceFile) :
    (weightedStream name w nameOf files).failure = none ↔ ∀ f ∈ files, w.InRange f.occurrences := by
  rw [weightedStream_eq]
  simp

def degreeWeights (degrees : Degrees) : Weights :=
  .ofList (degrees.toList.map fun d => (d.name, .whole d.ifdefs)) none

theorem ofStream_scattering (degrees : Degrees) :
    Weights.ofStream (VariableMetric.scattering degrees .directives).stream =
      ⟨[], .ok (degreeWeights degrees)⟩ := by
  simp [Weights.ofStream, VariableMetric.stream, List.filterMap_map, Function.comp_def,
    VariableMetric.finding, Finding.weight?, VariableMetric.degreeOf, degreeWeights]

theorem find?_degreeWeights {degrees : Degrees} (h : (degrees.toList.map Degree.name).Nodup)
    (name : String) :
    (degreeWeights degrees).find? name = (degrees.find? name).map fun d => .whole d.ifdefs := by
  have hnodup : ((degrees.toList.map fun d => (d.name, Quantity.whole d.ifdefs)).map
      Prod.fst).Nodup := by simpa [Function.comp_def] using h
  rw [degreeWeights, Weights.ofList, lastByKey_eq_self hnodup, Weights.find?, List.find?_map,
    Degrees.find?]
  simp only [Function.comp_def]
  cases degrees.toList.find? (·.name = name) <;> rfl

section

variable {model : Option Model} {files : List Code.SourceFile} {f : Code.SourceFile} {name : String}

theorem Code.SourceFile.mentions_of_occurrence (h : name ∈ f.occurrences) :
    f.Mentions model (normalizeName model name) := by
  obtain ⟨b, hb, hname⟩ := List.mem_flatMap.1 h
  cases hcondition : b.condition with
  | none => simp [hcondition] at hname
  | some g => exact ⟨b, hb, g, hcondition, name, by simpa [hcondition] using hname, rfl⟩

theorem normalizeName_of_declares (h : model.any (·.declares name)) :
    normalizeName model name = name := by
  simp [normalizeName, h]

theorem directivesWith_occurrence (hf : f ∈ files) (h : name ∈ f.occurrences) :
    0 < directivesWith model files (normalizeName model name) :=
  directivesWith_pos_iff.2 ⟨f, hf, Code.SourceFile.mentions_of_occurrence h⟩

theorem listed_occurrence (hf : f ∈ files) (h : name ∈ f.occurrences) :
    Listed model files name ↔ directivesWith model files name ≠ 0 := by
  refine ⟨fun hlisted => ?_, fun hpos => .inr (Nat.pos_of_ne_zero hpos)⟩
  have hpos : 0 < directivesWith model files (normalizeName model name) :=
    directivesWith_occurrence hf h
  rcases hlisted with hdeclared | hpositive
  · rw [normalizeName_of_declares hdeclared] at hpos
    exact hpos.ne'
  · exact hpositive.ne'

theorem filter_degree_plain (h : ∀ f ∈ files, ∀ n ∈ f.occurrences, normalizeName model n = n) :
    (files.flatMap Code.SourceFile.occurrences).filter (directivesWith model files · = 0) = [] := by
  refine List.filter_eq_nil_iff.2 fun n hn => ?_
  obtain ⟨f, hf, hoccurs⟩ := List.mem_flatMap.1 hn
  have hpos : 0 < directivesWith model files (normalizeName model n) :=
    directivesWith_occurrence hf hoccurs
  rw [h f hf n hoccurs] at hpos
  simpa using hpos.ne'

theorem directivesWith_of_not_listed (h : ¬ Listed model files name) :
    directivesWith model files name = 0 :=
  Nat.eq_zero_of_not_pos (mt Or.inr h)

theorem directivesWith_le (name : String) :
    directivesWith model files name ≤ (files.flatMap fun f => f.blocks.walk).length :=
  List.countP_le_length

variable (hmodel : ∀ m ∈ model, (m.toList.map Variable.name).Nodup)
include hmodel

theorem get_countDegrees (name : String) :
    ((countDegrees model files).get name).ifdefs = directivesWith model files name := by
  rw [Degrees.get, find?_countDegrees files hmodel]
  split
  · rfl
  · next h =>
    rw [directivesWith_of_not_listed h]
    rfl

theorem find?_countedWeights (name : String) :
    (degreeWeights (countDegrees model files)).find? name =
      if Listed model files name then some (.whole (directivesWith model files name)) else none := by
  have hnodup : ((countDegrees model files).toList.map Degree.name).Nodup :=
    Degrees.nodup_names_ofList _
  rw [find?_degreeWeights hnodup, find?_countDegrees files hmodel]
  split <;> rfl

theorem double?_countedWeights (name : String) :
    (degreeWeights (countDegrees model files)).double? name =
      Double.ofInt? (directivesWith model files name) := by
  rw [Weights.double?, find?_countedWeights hmodel]
  split
  · rfl
  · next h =>
    have hrange := Double.ofInt?_natCast (Nat.two_pow_pos Double.precision)
    rw [directivesWith_of_not_listed h, hrange, Double.ofInt_zero]
    rfl

theorem inRange_countedWeights (names : List String) :
    (degreeWeights (countDegrees model files)).InRange names ↔
      ∀ n ∈ names, (Double.ofInt? (directivesWith model files n)).isSome := by
  simp only [Weights.InRange, double?_countedWeights hmodel]

theorem doubleOf_countedWeights {name : String}
    (h : (Double.ofInt? (directivesWith model files name)).isSome) :
    (degreeWeights (countDegrees model files)).doubleOf name =
      .ofInt (directivesWith model files name) := by
  obtain ⟨x, hx⟩ := Option.isSome_iff_exists.1 h
  rw [Weights.doubleOf, double?_countedWeights hmodel, hx, Option.getD_some]
  exact Double.ofInt?_eq_some hx

theorem unknown_countedWeights :
    (degreeWeights (countDegrees model files)).unknown (files.flatMap Code.SourceFile.occurrences) =
      (files.flatMap Code.SourceFile.occurrences).filter fun n =>
        directivesWith model files n = 0 := by
  refine List.filter_congr fun n hn => ?_
  obtain ⟨f, hf, hoccurs⟩ := List.mem_flatMap.1 hn
  rw [find?_countedWeights hmodel, decide_eq_decide]
  have hlisted : Listed model files n ↔ directivesWith model files n ≠ 0 :=
    listed_occurrence hf hoccurs
  by_cases h : Listed model files n
  · simp [h, hlisted.1 h]
  · simp [h, directivesWith_of_not_listed h]

/-- Every name is weighed and told as it is spelled. -/
theorem weightedStream_counted (name : String) (nameOf : Code.SourceFile → String)
    (h : ∀ f ∈ files, ∀ n ∈ f.occurrences, (Double.ofInt? (directivesWith model files n)).isSome) :
    weightedStream name (degreeWeights (countDegrees model files)) nameOf files = {
      name
      findings := files.map fun f => weightedFinding (nameOf f)
        (sumOf (f.occurrences.map fun n => .ofInt (directivesWith model files n)))
      messages := (firstOccurrences ((files.flatMap Code.SourceFile.occurrences).filter fun n =>
        directivesWith model files n = 0)).map .unknownWeight } := by
  have hdoubles : ∀ f ∈ files, f.occurrences.map (degreeWeights (countDegrees model files)).doubleOf =
      f.occurrences.map fun n => .ofInt (directivesWith model files n) := fun f hf =>
    List.map_congr_left fun n hn => doubleOf_countedWeights hmodel (h f hf n hn)
  have hfindings : files.map ((degreeWeights (countDegrees model files)).findingOf nameOf) =
      files.map fun f => weightedFinding (nameOf f)
        (sumOf (f.occurrences.map fun n => .ofInt (directivesWith model files n))) :=
    List.map_congr_left fun f hf => by rw [Weights.findingOf, hdoubles f hf]
  have hrange : ∀ f ∈ files, (degreeWeights (countDegrees model files)).InRange f.occurrences :=
    fun f hf => (inRange_countedWeights hmodel _).2 (h f hf)
  rw [weightedStream_ok name nameOf hrange, unknown_countedWeights hmodel, hfindings]

end

/-- Weighing files with the degrees counted in them. Each variable of the files has a degree, but a name
weighs the degree of its spelling: one whose spelling no directive counts is told and weighs nothing.
Where every name is spelled as it is counted, nothing is told and each file has the sum of the degrees
of its variables. -/
theorem weighted_by_own_degrees (declared : Option (List Variable)) (files : List Code.SourceFile)
    (name : String) (nameOf : Code.SourceFile → String) :
    let model := declared.map Model.ofList
    let degrees := countDegrees model files
    let degree := directivesWith model files
    let plain := ∀ f ∈ files, ∀ n ∈ f.occurrences, normalizeName model n = n
    ∃ w, Weights.ofStream (VariableMetric.scattering degrees .directives).stream = ⟨[], .ok w⟩ ∧
      (∀ n, (degrees.get n).ifdefs = degree n) ∧
      (∀ f ∈ files, ∀ n ∈ f.occurrences, 0 < degree (normalizeName model n)) ∧
      let stream := weightedStream name w nameOf files
      (stream.failure = none ↔ ∀ f ∈ files, ∀ n ∈ f.occurrences, (Double.ofInt? (degree n)).isSome) ∧
      ((files.flatMap fun f => f.blocks.walk).length < 2 ^ 53 → stream.failure = none) ∧
      (stream.failure = none →
        stream.messages = (firstOccurrences ((files.flatMap Code.SourceFile.occurrences).filter
          fun n => degree n = 0)).map .unknownWeight ∧
        stream.findings = files.map (fun f =>
          weightedFinding (nameOf f) (sumOf (f.occurrences.map fun n => .ofInt (degree n)))) ∧
        (plain → stream.messages = [] ∧ stream.findings = files.map fun f =>
          weightedFinding (nameOf f)
            (sumOf (f.occurrences.map fun n => .ofInt (degree (normalizeName model n)))))) ∧
      ∀ f ∈ files, (f.occurrences.map degree).sum < 2 ^ 53 →
        sumOf (f.occurrences.map fun n => .ofInt (degree n)) =
          .ofInt ((f.occurrences.map degree).sum : Nat) := by
  intro model degrees degree plain
  have hmodel : ∀ m ∈ model, (m.toList.map Variable.name).Nodup := nodup_names_declared declared
  have hpositive : ∀ f ∈ files, ∀ n ∈ f.occurrences, 0 < degree (normalizeName model n) :=
    fun f hf n hn => directivesWith_occurrence hf hn
  have hrange : (weightedStream name (degreeWeights degrees) nameOf files).failure = none ↔
      ∀ f ∈ files, ∀ n ∈ f.occurrences, (Double.ofInt? (degree n)).isSome := by
    rw [weightedStream_failure]
    exact forall₂_congr fun f _ => inRange_countedWeights hmodel f.occurrences
  refine ⟨degreeWeights degrees, ofStream_scattering degrees, get_countDegrees hmodel, hpositive,
    hrange, fun hfew => ?_, fun hnone => ?_, fun f _ hsum => ?_⟩
  · refine hrange.2 fun f _ n _ => ?_
    rw [Double.ofInt?_natCast (Nat.lt_of_le_of_lt (directivesWith_le n) hfew)]
    rfl
  · have hstream := weightedStream_counted hmodel name nameOf (hrange.1 hnone)
    rw [hstream]
    refine ⟨rfl, rfl, fun hplain => ⟨?_, ?_⟩⟩
    · rw [filter_degree_plain hplain]
      rfl
    · have hfolded : ∀ f ∈ files, f.occurrences.map (fun n => Double.ofInt (degree n)) =
          f.occurrences.map fun n => .ofInt (degree (normalizeName model n)) := fun f hf =>
        List.map_congr_left fun n hn => by rw [hplain f hf n hn]
      exact List.map_congr_left fun f hf => by rw [hfolded f hf]
  · simpa [List.map_map, Function.comp_def] using Double.sumOf_natCast hsum

example :
    let file : Code.SourceFile := ⟨"a.c", "a.c",
      .block ⟨.first, some (.var "A_MODULE"), some (.var "A_MODULE"), 1, 2, none, false⟩ .nil .nil, []⟩
    let degrees := countDegrees none [file]
    (degrees.get "A").ifdefs = 1 ∧
      (weightedStream "" (degreeWeights degrees) (·.path) [file]).messages =
        [.unknownWeight "A_MODULE"] := by
  decide +kernel

end Variability
