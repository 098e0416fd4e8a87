import Variability.Code.Document
import Variability.Metric.Counted
import Variability.Proofs.Code.Origin
import Variability.Proofs.Scattering.Count

set_option autoImplicit false

namespace Variability

theorem mem_countedIn {model : Option Model} {condition : Option Formula} {name : String} :
    name ∈ countedIn model condition ↔
      (∃ n ∈ conditionNames condition, normalizeName model n = name) ∧ counts model name := by
  simp [countedIn, mentionedIn, mem_firstOccurrences]

namespace Code

variable {model : Option Model} {file : SourceFile}

theorem SourceFile.Asks.mentions {name : String} (h : file.Asks name) :
    file.Mentions model (normalizeName model name) := by
  obtain ⟨b, hb, hname⟩ := h
  obtain ⟨f, hf, hname⟩ := mem_conditionNames.1 hname
  exact ⟨b, hb, f, hf, name, hname, rfl⟩

theorem mentions_of_countedIn {condition : Option Formula}
    (h : ∀ name ∈ conditionNames condition, file.Asks name) {name : String}
    (hname : name ∈ countedIn model condition) : file.Mentions model name := by
  obtain ⟨⟨n, hn, rfl⟩, -⟩ := mem_countedIn.1 hname
  exact (h n hn).mentions

section

variable [ParserStack]

theorem Function.mentions_of_allVariables {path : String} {d : Xml.Document}
    (hread : (ofDocument path d).result = .ok file) {f : Function} (hf : f ∈ file.functions)
    {name : String} (hname : name ∈ f.allVariables model) : file.Mentions model name := by
  obtain ⟨houtside, hinside⟩ := asks_of_function hread hf
  rw [f.allVariables_eq] at hname
  rcases List.mem_append.1 hname with hname | hname
  · exact mentions_of_countedIn houtside hname
  · obtain ⟨⟨b, hb, hname⟩, -⟩ := mem_innerVariables.1 hname
    exact mentions_of_countedIn (fun n hn => ⟨b, hinside b hb, hn⟩) hname

/-- Every variable of every function of some files has a degree that is not zero, in directives and in
files. -/
theorem Function.allVariables_counted (declared : Option (List Variable)) {files : List SourceFile}
    (hread : ∀ file ∈ files, ∃ path d, (ofDocument path d).result = .ok file) :
    let model := declared.map Model.ofList
    ∀ file ∈ files, ∀ f ∈ file.functions, ∀ name ∈ f.allVariables model,
      ∃ d, (countDegrees model files).find? name = some d ∧ 1 ≤ d.files ∧ 1 ≤ d.ifdefs := by
  intro model file hfile f hf name hname
  have hmodel := nodup_names_declared declared
  obtain ⟨path, d, hresult⟩ := hread file hfile
  have hdirectives : 0 < directivesWith model files name :=
    directivesWith_pos_iff.2 ⟨file, hfile, f.mentions_of_allVariables hresult hf hname⟩
  have hfiles : 0 < filesWith model files name := by
    have := mt filesWith_eq_zero_iff.1 (Nat.pos_iff_ne_zero.1 hdirectives)
    omega
  refine ⟨degreeIn model files name, ?_, ?_, ?_⟩
  · rw [find?_countDegrees files hmodel, if_pos (.inr hdirectives)]
  · simp only [degreeIn]
    omega
  · simp only [degreeIn]
    omega

end

def functionInBranch : Xml.Document :=
  let cpp (label : String) (line : Nat) (children next : Xml.Content) : Xml.Content :=
    .element ⟨⟨some "http://www.srcML.org/srcML/cpp", label⟩, [], line⟩ children next
  let src (label : String) (line : Nat) (children next : Xml.Content) : Xml.Content :=
    .element ⟨⟨some "http://www.srcML.org/srcML/src", label⟩, [], line⟩ children next
  let text (cs : String) : Xml.Content := cpp "directive" 1 .nil (.text cs.toList .nil)
  ⟨⟨⟨some "http://www.srcML.org/srcML/src", "unit"⟩, [], 1⟩,
    cpp "ifdef" 2 (text "A_MODULE") <| cpp "elif" 3 (text "!B") <|
    src "function" 4 (src "name" 4 (.text ['f'] .nil) <|
      cpp "ifndef" 5 (text "C_MODULE") <| cpp "endif" 6 .nil .nil) <|
    cpp "endif" 7 .nil .nil⟩

theorem Function.allVariables_counted_inBranch :
    ∃ file, (ofDocument "f.c.xml" functionInBranch).result = .ok file ∧
      ∃ f ∈ file.functions, f.allVariables none = ["A", "B", "C"] ∧
        ∀ name ∈ ["A", "B", "C"], ∃ d, (countDegrees none [file]).find? name = some d ∧
          1 ≤ d.files ∧ 1 ≤ d.ifdefs := by
  have hfunctions : (ofDocument "f.c.xml" functionInBranch).result.toOption.any fun file =>
      file.functions.any fun f => f.allVariables none = ["A", "B", "C"] := by decide +kernel
  cases h : (ofDocument "f.c.xml" functionInBranch).result with
  | error fault => rw [h] at hfunctions; cases hfunctions
  | ok file =>
    rw [h] at hfunctions
    obtain ⟨f, hf, hvariables⟩ := List.any_eq_true.1 hfunctions
    have hvariables : f.allVariables none = ["A", "B", "C"] := of_decide_eq_true hvariables
    have hread : ∀ file' ∈ [file], ∃ path d, (ofDocument path d).result = .ok file' :=
      fun file' hfile => ⟨_, _, List.mem_singleton.1 hfile ▸ h⟩
    refine ⟨file, rfl, f, hf, hvariables, fun name hname => ?_⟩
    exact Function.allVariables_counted none hread file (List.mem_singleton_self file) f hf name
      (hvariables ▸ hname)

end Code
end Variability
