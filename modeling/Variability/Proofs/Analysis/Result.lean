import Variability.Proofs.Analysis.Parsing

set_option autoImplicit false

namespace Variability

namespace Script

variable {α β : Type} {allowed : String → Prop} {path text : String}

theorem bind_eq_ok {s : Script α} {f : α → Script β} {b : β} (h : (s >>= f).result = .ok b) :
    ∃ a, s.result = .ok a ∧ (f a).result = .ok b := by
  cases hs : s.result with
  | error e => simp [result_bind_error hs] at h
  | ok a => exact ⟨a, rfl, result_bind_ok hs f ▸ h⟩

theorem steps_bind_ok {s : Script α} {a : α} (h : s.result = .ok a) (f : α → Script β) :
    (s >>= f).steps = s.steps ++ (f a).steps := by
  simp [Bind.bind, Script.bind, h]

theorem result_mapM (f : α → Script β) (as : List α) :
    (as.mapM f).result = as.mapM fun a => (f a).result := by
  suffices h : ∀ acc : List β, (List.mapM.loop f as acc).result =
      List.mapM.loop (fun a => (f a).result) as acc from h []
  induction as with
  | nil => exact fun _ => rfl
  | cons a as ih =>
    intro acc
    rw [List.mapM.loop, List.mapM.loop]
    cases ha : (f a).result with
    | error e => exact result_bind_error ha _
    | ok b => exact (result_bind_ok ha _).trans (ih (b :: acc))

/-- A text is written to a path, and behind that nothing but what is allowed. -/
def Leaves (allowed : String → Prop) (path text : String) (s : Script α) : Prop :=
  ∃ before after, s.steps = before ++ .write path text :: after ∧
    ∀ other content, .write other content ∈ after → allowed other

theorem leaves_write : (write path text).Leaves allowed path text :=
  ⟨[], [], rfl, fun _ _ h => nomatch h⟩

theorem Leaves.mono {other : String → Prop} {s : Script α} (h : s.Leaves allowed path text)
    (hsub : ∀ p, allowed p → other p) : s.Leaves other path text := by
  obtain ⟨before, after, hsteps, hafter⟩ := h
  exact ⟨before, after, hsteps, fun p content hmem => hsub p (hafter p content hmem)⟩

theorem leaves_bind {s : Script α} {f : α → Script β} {a : α} (ha : s.result = .ok a)
    (hf : (f a).Leaves allowed path text) : (s >>= f).Leaves allowed path text := by
  obtain ⟨before, after, hsteps, hafter⟩ := hf
  exact ⟨s.steps ++ before, after, by rw [steps_bind_ok ha, hsteps, List.append_assoc], hafter⟩

theorem Leaves.bind {s : Script α} {f : α → Script β} {a : α} (h : s.Leaves allowed path text)
    (ha : s.result = .ok a) (hf : (f a).Writes allowed) : (s >>= f).Leaves allowed path text := by
  obtain ⟨before, after, hsteps, hafter⟩ := h
  refine ⟨before, after ++ (f a).steps, ?_, fun other content hmem => ?_⟩
  · rw [steps_bind_ok ha, hsteps, List.append_assoc, List.cons_append]
  · exact (List.mem_append.1 hmem).elim (hafter other content) (hf other content)

end Script

namespace Disk

variable {d d' : Disk} {working path text : String}

theorem perform_append (d : Disk) (working : String) (before after : List Step) :
    d.perform working (before ++ after) =
      match d.perform working before with
      | (.error e, d') => (.error e, d')
      | (.ok (), d') => d'.perform working after := by
  induction before generalizing d with
  | nil => rfl
  | cons step before ih =>
    cases step with
    | tell message => exact ih d
    | write path text =>
      rw [List.cons_append, perform, perform]
      cases d.write working path text with
      | error e => rfl
      | ok d' => exact ih d'

theorem node?_of_leaves {s : Script Unit} {allowed : String → Prop} (h : s.Leaves allowed path text)
    (hother : ∀ other, allowed other → placeOf working other ≠ placeOf working path)
    (hok : (d.runScript working s).1 = .ok ()) :
    (d.runScript working s).2.node? (placeOf working path) = some (.file text) := by
  obtain ⟨before, after, hsteps, hafter⟩ := h
  rw [disk_runScript]
  rw [runScript, hsteps, perform_append] at hok
  rw [hsteps, perform_append]
  rcases hbefore : d.perform working before with ⟨result, e⟩
  rw [hbefore] at hok
  cases result with
  | error failure => cases hok
  | ok u =>
    simp only [perform] at hok ⊢
    cases hwrite : e.write working path text with
    | error failure =>
      rw [hwrite] at hok
      cases hok
    | ok e' =>
      have hwritten : e'.node? (placeOf working path) = some (.file text) := by
        obtain ⟨-, hroot, -, rfl⟩ := write_eq_ok hwrite
        exact node?_put_self e hroot _
      have hagree : Agree (· ≠ placeOf working path) e' (e'.perform working after).2 :=
        agree_perform fun other content hmem => hother other (hafter other content hmem)
      exact (hagree.kept _ (not_not_intro rfl)).trans hwritten

end Disk

namespace Inputs

variable {o : Options} {k : Kind} {i : Inputs} {model : Option Model} {files : List Code.SourceFile}

def tableText (streams : List Stream) : Except Failure String := do
  let (sheet, _, failure) := Sheet.collect {} streams
  failure.elim (.ok ()) .error
  let table ← sheet.table
  let (text, failure) := table.write
  failure.elim (.ok ()) .error
  return text

/-- The degrees in the cache, or else those of the source files. -/
def degreesFor (i : Inputs) (o : Options) (model : Option Model) (files : List Code.SourceFile) :
    Except Failure Degrees :=
  match o.cachePath, i.cache with
  | some path, some text => (Degrees.read path model text).result
  | _, _ => .ok (countDegrees model files)

def typeMetric (model : Option Model) : List VariableMetric :=
  match model with
  | none => []
  | some m => [.type (some m)]

theorem leaves_writeTable {things : String} {streams : List Stream}
    (h : (i.writeTable k things streams).result = .ok ()) :
    ∃ text, tableText streams = .ok text ∧
      (i.writeTable k things streams).Leaves (fun _ => False) (i.resultPath k) text := by
  unfold writeTable at h ⊢
  obtain ⟨_, hcollected, h⟩ := Script.bind_eq_ok h
  obtain ⟨table, htable, h⟩ := Script.bind_eq_ok h
  obtain ⟨_, hwritten, h⟩ := Script.bind_eq_ok h
  obtain ⟨_, hcomplete, h⟩ := Script.bind_eq_ok h
  have hcollect : (Sheet.collect {} streams).2.2.elim (.ok ()) .error = (.ok () : Except Failure Unit) :=
    hcollected
  have htable' : (Sheet.collect {} streams).1.table = .ok table := htable
  have hcomplete' : table.write.2.elim (.ok ()) .error = (.ok () : Except Failure Unit) := hcomplete
  refine ⟨table.write.1, ?_, ?_⟩
  · simp only [tableText, hcollect, htable', hcomplete', bind, Except.bind]
    rfl
  · refine Script.leaves_bind hcollected (Script.leaves_bind htable ?_)
    refine Script.leaves_write.bind hwritten ?_
    exact Script.writes_bind (Script.writes_of_steps_nil rfl) fun _ => (Script.silent_tell _)

theorem result_degrees {degrees : Degrees} (h : (i.degrees o.cachePath model files).result = .ok degrees) :
    i.degreesFor o model files = .ok degrees := by
  unfold Inputs.degrees at h
  unfold degreesFor
  split at h
  · next path text hpath hcache =>
    obtain ⟨_, -, h⟩ := Script.bind_eq_ok h
    rw [hpath, hcache]
    exact h
  · next path hpath hcache =>
    obtain ⟨_, -, h⟩ := Script.bind_eq_ok h
    obtain ⟨_, -, h⟩ := Script.bind_eq_ok h
    rw [hpath, hcache]
    exact h
  · next hpath =>
    rw [hpath]
    exact h

theorem result_weighing (m : VariableMetric) (f : Weights → Stream) :
    (Script.ofOutcome (Weights.ofStream m.stream) >>= fun weights => pure (f weights)).result =
      ((Weights.ofStream m.stream).result >>= fun weights => pure (f weights)) := by
  rcases Weights.ofStream m.stream with ⟨messages, result⟩
  cases result <;> rfl

variable [ParserStack]

def filesUnlessCached (i : Inputs) : Except Failure (List Code.SourceFile) :=
  if i.cache.isSome then .ok [] else parsedFiles i.sources

def resultText (i : Inputs) (o : Options) : Kind → Except Failure String
  | .scattering => do
    let files ← parsedFiles i.sources
    let model ← i.readModel.result
    return (countDegrees model files).write.1
  | .perFunction => do
    let files ← parsedFiles i.sources
    let model ← i.readModel.result
    let metrics ← functionMetrics o
    tableText (metrics.map fun m => m.stream model (i.nameOf o.naming) files)
  | .perVariable => do
    let model ← i.readModel.result
    let files ← i.filesUnlessCached
    let degrees ← i.degreesFor o model files
    let metrics := [VariableMetric.scattering degrees .directives, .scattering degrees .files]
    tableText ((metrics ++ typeMetric model).map VariableMetric.stream)
  | .perFile => do
    let files ← parsedFiles i.sources
    let model ← i.readModel.result
    let degrees ← i.degreesFor o model files
    let metrics := VariableMetric.scattering degrees .directives :: typeMetric model
    let streams ← metrics.mapM fun m => do
      let weights ← (Weights.ofStream m.stream).result
      return weightedStream (weightedBy m.name) weights (i.nameOf o.naming) files
    tableText streams

theorem result_sourceFiles (i : Inputs) : i.sourceFiles.result = parsedFiles i.sources :=
  result_parseSources _ _ _

theorem result_filesUnlessCached (i : Inputs) :
    (if i.cache.isSome then pure [] else i.sourceFiles : Script (List Code.SourceFile)).result =
      i.filesUnlessCached := by
  unfold filesUnlessCached
  split
  · rfl
  · exact i.result_sourceFiles

/-- What an analysis that succeeds leaves: the text of its kind, and behind it at most the cache. -/
def LeavesResult (i : Inputs) (o : Options) (k : Kind) : Prop :=
  ∃ text, i.resultText o k = .ok text ∧
    (i.analyse o k).Leaves (fun path => o.cachePath = some path) (i.resultPath k) text

theorem leaves_scattering (h : (i.analyse o .scattering).result = .ok ()) :
    i.LeavesResult o .scattering := by
  rw [scattering_eq] at h
  rw [LeavesResult, scattering_eq]
  obtain ⟨files, hfiles, h⟩ := Script.bind_eq_ok h
  obtain ⟨model, hmodel, h⟩ := Script.bind_eq_ok h
  obtain ⟨_, hsaved, -⟩ := Script.bind_eq_ok h
  refine ⟨(countDegrees model files).write.1, ?_,
    Script.leaves_bind hfiles (Script.leaves_bind hmodel ?_)⟩
  · simp only [resultText, ← result_sourceFiles, hfiles, hmodel]
    rfl
  · refine Script.Leaves.bind ?_ hsaved (writes_report o _)
    exact Script.leaves_write.bind rfl (Script.writes_of_steps_nil rfl)

theorem leaves_perFunction (h : (i.analyse o .perFunction).result = .ok ()) :
    i.LeavesResult o .perFunction := by
  obtain ⟨files, hfiles, h⟩ := Script.bind_eq_ok h
  obtain ⟨model, hmodel, h⟩ := Script.bind_eq_ok h
  obtain ⟨metrics, hmetrics, h⟩ := Script.bind_eq_ok h
  obtain ⟨text, htext, hleaves⟩ := leaves_writeTable h
  have hmetrics' : functionMetrics o = .ok metrics := hmetrics
  refine ⟨text, ?_, Script.leaves_bind hfiles (Script.leaves_bind hmodel
    (Script.leaves_bind hmetrics (hleaves.mono fun _ => False.elim)))⟩
  rw [← htext]
  simp only [resultText, ← result_sourceFiles, hfiles, hmodel, hmetrics']
  rfl

theorem leaves_perVariable (h : (i.analyse o .perVariable).result = .ok ()) :
    i.LeavesResult o .perVariable := by
  rw [perVariable_eq] at h
  rw [LeavesResult, perVariable_eq]
  obtain ⟨model, hmodel, h⟩ := Script.bind_eq_ok h
  obtain ⟨files, hfiles, h⟩ := Script.bind_eq_ok h
  obtain ⟨degrees, hdegrees, h⟩ := Script.bind_eq_ok h
  obtain ⟨text, htext, hleaves⟩ := leaves_writeTable h
  refine ⟨text, ?_, Script.leaves_bind hmodel (Script.leaves_bind hfiles
    (Script.leaves_bind hdegrees (hleaves.mono fun _ => False.elim)))⟩
  rw [← htext]
  simp only [resultText, ← result_filesUnlessCached, hfiles, hmodel]
  change (i.degreesFor o model files >>= _) = _
  rw [result_degrees hdegrees]
  rfl

theorem leaves_perFile (h : (i.analyse o .perFile).result = .ok ()) : i.LeavesResult o .perFile := by
  rw [perFile_eq] at h
  rw [LeavesResult, perFile_eq]
  obtain ⟨files, hfiles, h⟩ := Script.bind_eq_ok h
  obtain ⟨model, hmodel, h⟩ := Script.bind_eq_ok h
  obtain ⟨degrees, hdegrees, h⟩ := Script.bind_eq_ok h
  obtain ⟨streams, hstreams, h⟩ := Script.bind_eq_ok h
  obtain ⟨text, htext, hleaves⟩ := leaves_writeTable h
  refine ⟨text, ?_, Script.leaves_bind hfiles (Script.leaves_bind hmodel
    (Script.leaves_bind hdegrees (Script.leaves_bind hstreams (hleaves.mono fun _ => False.elim))))⟩
  rw [Script.result_mapM] at hstreams
  simp only [result_weighing] at hstreams
  rw [← htext, resultText, ← result_sourceFiles, hfiles, hmodel]
  change (i.degreesFor o model files >>= _) = _
  rw [result_degrees hdegrees]
  exact congrArg (· >>= tableText) hstreams

/-- An analysis that succeeds leaves the table of its kind. -/
theorem leaves_analyse (h : (i.analyse o k).result = .ok ()) : i.LeavesResult o k := by
  cases k with
  | scattering => exact leaves_scattering h
  | perFunction => exact leaves_perFunction h
  | perVariable => exact leaves_perVariable h
  | perFile => exact leaves_perFile h

end Inputs
end Variability
