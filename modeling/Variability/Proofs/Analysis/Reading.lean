import Variability.Proofs.Analysis.Parsing
import Variability.Proofs.Analysis.Writes
import Variability.Proofs.Code.Mark

set_option autoImplicit false

namespace Variability

inductive Message.OnCondition : Message → Prop where
  | unreadable (signature : String) (column : Nat) : OnCondition (.unreadableCondition signature column)
  | exhausted (signature : String) : OnCondition (.exhaustedCondition signature)

namespace Code.Builder

variable {b b' : Builder}

def TellsConditions (b : Builder) : Prop := ∀ message ∈ b.messages, message.OnCondition

theorem TellsConditions.openBranch (h : b.TellsConditions) (branch : Branch) (line : Int) (c : Condition)
    (earlier : List (Option Formula)) : (b.openBranch branch line c earlier).TellsConditions := by
  unfold TellsConditions Builder.openBranch
  split
  · next signature column =>
    exact List.forall_mem_append.2 ⟨h, List.forall_mem_singleton.2 (.unreadable signature column)⟩
  · next signature =>
    exact List.forall_mem_append.2 ⟨h, List.forall_mem_singleton.2 (.exhausted signature)⟩
  · exact h

theorem TellsConditions.closeBranch (h : b.TellsConditions) {line : Int}
    {earlier : List (Option Formula)} (hclose : b.closeBranch line = .ok (earlier, b')) :
    b'.TellsConditions := by
  unfold Builder.closeBranch at hclose
  split at hclose
  · cases hclose
  · obtain ⟨-, rfl⟩ := Prod.mk.inj (Except.ok.inj hclose)
    exact h

variable [ParserStack]

theorem TellsConditions.step (h : b.TellsConditions) {m : Landmark} (hstep : b.step m = .ok b') :
    b'.TellsConditions := by
  cases m with
  | broken fault => cases hstep
  | functionStart name line =>
    cases hstep
    exact h
  | functionEnd lineFeeds =>
    rw [Builder.step] at hstep
    split at hstep <;> (cases hstep; exact h)
  | directive d line text =>
    obtain ⟨ms, hmarks, hpasses⟩ := passes_of_step hstep
    cases hpasses with
    | function => simp [Landmark.marks] at hmarks
    | opened line c => exact h.openBranch _ _ _ _
    | continued _ _ hclose => exact (h.closeBranch hclose).openBranch _ _ _ _
    | ended hclose => exact h.closeBranch hclose

theorem TellsConditions.run (h : b.TellsConditions) (landmarks : List Landmark) :
    (b.run landmarks).1.TellsConditions := by
  induction landmarks generalizing b with
  | nil => exact h
  | cons m landmarks ih =>
    rw [Builder.run]
    cases hstep : b.step m with
    | ok b₁ => exact ih (h.step hstep)
    | error fault => exact h

end Code.Builder

/-- A line without the numbers that depend on how many files there are. -/
def Message.unnumbered : Message → Message
  | .readFile _ _ path => .readFile 0 0 path
  | message => message

/-- The line behind the messages about the conditions of a file; none if the analysis stops there. -/
def endLine? (number total : Nat) (path : String) : Except Code.Fault Code.SourceFile → Option Message
  | .ok _ => some (.readFile number total path)
  | .error .illFormed => some (.unreadableFile path)
  | .error (.unbalanced line) => some (.unbalancedFile path (Code.unbalancedText line))
  | .error _ => none

theorem unnumbered_endLine? (number total : Nat) (path : String)
    (result : Except Code.Fault Code.SourceFile) :
    (endLine? number total path result).map Message.unnumbered = endLine? 0 0 path result := by
  unfold endLine?
  split <;> rfl

theorem exists_error_of_isOk_eq_false {ε α : Type} {r : Except ε α} (h : r.isOk = false) :
    ∃ e, r = .error e := by
  cases r with
  | ok a => simp [Except.isOk, Except.toBool] at h
  | error e => exact ⟨e, rfl⟩

namespace Inputs

theorem readModel_eq (i : Inputs) : i.readModel = Script.ofExcept i.readModel.result := by
  unfold readModel
  split <;> rfl

theorem writeTable_withSources (i : Inputs) (sources : List (String × Option String)) (k : Kind)
    (things : String) (streams : List Stream) :
    ({ i with sources := sources } : Inputs).writeTable k things streams = i.writeTable k things streams := by
  unfold writeTable
  rfl

theorem degrees_withSources (i : Inputs) (sources : List (String × Option String)) (cache : Option String)
    (model : Option Model) (files : List Code.SourceFile) :
    ({ i with sources := sources } : Inputs).degrees cache model files = i.degrees cache model files := by
  unfold degrees
  rfl

theorem measure_withSources (i : Inputs) (sources : List (String × Option String)) (o : Options) (k : Kind)
    (model : Option Model) (files : List Code.SourceFile) (degrees : Degrees) :
    ({ i with sources := sources } : Inputs).measure o k model files degrees =
      i.measure o k model files degrees := by
  unfold measure
  rfl

end Inputs

variable [ParserStack]

theorem messages_readSourceFile (path text : String) :
    ∀ message ∈ (Code.readSourceFile path text).messages, message.OnCondition := by
  have hnone : ∀ message ∈ ([] : List Message), message.OnCondition := by simp
  have hempty : ({} : Code.Builder).TellsConditions := hnone
  unfold Code.readSourceFile
  split
  · exact hnone
  · exact hnone
  · next d _ =>
    have hrun := hempty.run (Code.landmarks d.tag.line (.element d.tag d.children .nil))
    unfold Code.ofDocument Code.assemble
    split
    · next b fault hend =>
      rw [hend] at hrun
      exact hrun
    · next b hend =>
      rw [hend] at hrun
      split <;> exact hrun

theorem messages_loadSourceFile (path : String) (text : Option String) :
    ∀ message ∈ (Code.loadSourceFile path text).messages, message.OnCondition := by
  cases text with
  | none => simp [Code.loadSourceFile]
  | some text => exact messages_readSourceFile path text

def IsFatal (source : String × Option String) : Prop :=
  endLine? 0 0 source.1 (Code.loadSourceFile source.1 source.2).result = none

instance (source : String × Option String) : Decidable (IsFatal source) := by
  unfold IsFatal
  infer_instance

def upToFatal : List (String × Option String) → List (String × Option String)
  | [] => []
  | source :: rest => source :: if IsFatal source then [] else upToFatal rest

def sourceLines (source : String × Option String) : List Message :=
  let r := Code.loadSourceFile source.1 source.2
  r.messages ++ (endLine? 0 0 source.1 r.result).toList

/-- Lines about a file that is skipped: first messages about its conditions, then one error. -/
def IsSkipped (path : String) (lines : List Message) : Prop :=
  ∃ conditions error, lines = conditions ++ [error] ∧
    (∀ message ∈ conditions, message.OnCondition) ∧
    (error = .unreadableFile path ∨ ∃ reason, error = .unbalancedFile path reason)

namespace IsBroken

variable {source : String × Option String} (h : IsBroken source.2)

include h

theorem endLine?_eq :
    ∃ error : Message, endLine? 0 0 source.1 (Code.loadSourceFile source.1 source.2).result = some error ∧
      (error = .unreadableFile source.1 ∨ ∃ reason, error = .unbalancedFile source.1 reason) := by
  rcases (isBroken_iff source.1 source.2).1 h with hread | ⟨line, hread⟩
  · exact ⟨_, by rw [hread]; rfl, .inl rfl⟩
  · exact ⟨_, by rw [hread]; rfl, .inr ⟨_, rfl⟩⟩

theorem isSkipped : IsSkipped source.1 (sourceLines source) := by
  obtain ⟨error, hline, herror⟩ := h.endLine?_eq
  exact ⟨_, error, by rw [sourceLines, hline]; rfl, messages_loadSourceFile source.1 source.2, herror⟩

theorem not_fatal : ¬ IsFatal source := by
  obtain ⟨error, hline, -⟩ := h.endLine?_eq
  simp [IsFatal, hline]

end IsBroken

theorem upToFatal_filter {keep : String × Option String → Bool} {sources : List (String × Option String)}
    (h : ∀ source ∈ sources, keep source = false → IsBroken source.2) :
    upToFatal (sources.filter keep) = (upToFatal sources).filter keep := by
  induction sources with
  | nil => rfl
  | cons source rest ih =>
    obtain ⟨hsource, hrest⟩ := List.forall_mem_cons.1 h
    by_cases hkeep : keep source
    · rw [List.filter_cons_of_pos hkeep, upToFatal, upToFatal, List.filter_cons_of_pos hkeep, ih hrest]
      split <;> rfl
    · have hbroken := hsource (Bool.not_eq_true _ ▸ hkeep)
      rw [List.filter_cons_of_neg hkeep, upToFatal, if_neg hbroken.not_fatal, List.filter_cons_of_neg hkeep,
        ih hrest]

theorem steps_parseSources_cons (total number : Nat) (path : String) (text : Option String)
    (rest : List (String × Option String)) :
    (parseSources total number ((path, text) :: rest)).steps =
      (Code.loadSourceFile path text).messages.map .tell ++
        match endLine? number total path (Code.loadSourceFile path text).result with
        | none => []
        | some message => .tell message :: (parseSources total (number + 1) rest).steps := by
  rw [parseSources]
  cases (Code.loadSourceFile path text).result with
  | ok f =>
    simp only [Bind.bind, Script.bind, Script.ofOutcome, Script.tell, endLine?]
    cases (parseSources total (number + 1) rest).result <;> simp [Pure.pure]
  | error fault => cases fault <;> rfl

theorem steps_parseSources (total number : Nat) (sources : List (String × Option String)) :
    ∃ lines : List Message, (parseSources total number sources).steps = lines.map .tell ∧
      lines.map Message.unnumbered = ((upToFatal sources).flatMap sourceLines).map Message.unnumbered := by
  induction sources generalizing number with
  | nil => exact ⟨[], rfl, rfl⟩
  | cons source rest ih =>
    obtain ⟨path, text⟩ := source
    obtain ⟨lines, hsteps, hlines⟩ := ih (number + 1)
    have hnumber := unnumbered_endLine? number total path (Code.loadSourceFile path text).result
    have hfatal : IsFatal (path, text) ↔
        endLine? number total path (Code.loadSourceFile path text).result = none := by
      simp only [IsFatal, ← hnumber, Option.map_eq_none_iff]
    rw [steps_parseSources_cons, upToFatal, List.flatMap_cons, sourceLines, ← hnumber]
    cases hline : endLine? number total path (Code.loadSourceFile path text).result with
    | none =>
      rw [if_pos (hfatal.2 hline)]
      exact ⟨(Code.loadSourceFile path text).messages, by simp, by simp⟩
    | some message =>
      have hgoes : ¬ IsFatal (path, text) := fun h => by simp [hfatal.1 h] at hline
      have htwice : message.unnumbered.unnumbered = message.unnumbered := by cases message <;> rfl
      rw [if_neg hgoes]
      refine ⟨(Code.loadSourceFile path text).messages ++ message :: lines, by simp [hsteps], ?_⟩
      simp [hlines, htwice]

/-- Behind the lines about the source files, a computation only knows those that have been read. -/
theorem parseSources_bind (total number : Nat) (sources : List (String × Option String))
    (rest : List Code.SourceFile → Script Unit) :
    parseSources total number sources >>= rest =
      ⟨(parseSources total number sources).steps ++ (Script.ofExcept (parsedFiles sources) >>= rest).steps,
        (Script.ofExcept (parsedFiles sources) >>= rest).result⟩ := by
  rw [← result_parseSources total number]
  simp only [Bind.bind, Script.bind, Script.ofExcept]
  cases (parseSources total number sources).result <;> simp

/-- An analysis comes to all source files if it can go on behind them. -/
theorem upToFatal_of_parsed {sources : List (String × Option String)} {files : List Code.SourceFile}
    (h : parsedFiles sources = .ok files) : upToFatal sources = sources := by
  induction sources generalizing files with
  | nil => rfl
  | cons source rest ih =>
    obtain ⟨path, text⟩ := source
    suffices hgoes : ¬ IsFatal (path, text) ∧ ∃ others, parsedFiles rest = .ok others by
      obtain ⟨hgoes, others, hrest⟩ := hgoes
      rw [upToFatal, if_neg hgoes, ih hrest]
    unfold IsFatal
    rw [parsedFiles] at h
    cases hread : (Code.loadSourceFile path text).result with
    | ok f =>
      rw [hread] at h
      cases hrest : parsedFiles rest with
      | ok others => exact ⟨Option.some_ne_none _, others, rfl⟩
      | error e => simp [hrest, Except.map] at h
    | error fault =>
      rw [hread] at h
      cases fault with
      | illFormed => exact ⟨Option.some_ne_none _, files, h⟩
      | unbalanced line => exact ⟨Option.some_ne_none _, files, h⟩
      | _ => cases h

/-- What a log is made of: lines that are about no source file, and the lines about a source file. -/
inductive Passage where
  | line (message : Message)
  | source (path : String) (text : Option String)
  deriving DecidableEq, Repr

namespace Passage

def lines : Passage → List Message
  | .line message => [message]
  | .source path text => sourceLines (path, text)

def source? : Passage → Option (String × Option String)
  | .line _ => none
  | .source path text => some (path, text)

def isKept (working : String) (places : List Place) : Passage → Bool
  | .line _ => true
  | .source path _ => placeOf working path ∉ places

end Passage

/-- Apart from numbers, a log tells of these source files, and another one is the same without the passages
about files at the places. -/
def Omits (working : String) (places : List Place) (sources : List (String × Option String))
    (whole part : List Message) : Prop :=
  ∃ passages : List Passage, passages.filterMap Passage.source? = sources ∧
    whole.map Message.unnumbered = (passages.flatMap Passage.lines).map Message.unnumbered ∧
    part.map Message.unnumbered =
      ((passages.filter (Passage.isKept working places)).flatMap Passage.lines).map Message.unnumbered

namespace Omits

variable {working : String} {places : List Place} {sources more : List (String × Option String)}
  {whole part whole' part' : List Message}

theorem append (h : Omits working places sources whole part) (h' : Omits working places more whole' part') :
    Omits working places (sources ++ more) (whole ++ whole') (part ++ part') := by
  obtain ⟨passages, rfl, hwhole, hpart⟩ := h
  obtain ⟨passages', rfl, hwhole', hpart'⟩ := h'
  refine ⟨passages ++ passages', List.filterMap_append, ?_, ?_⟩
  · rw [List.map_append, hwhole, hwhole', List.flatMap_append, List.map_append]
  · rw [List.map_append, hpart, hpart', List.filter_append, List.flatMap_append, List.map_append]

theorem lines (working : String) (places : List Place) (messages : List Message) :
    Omits working places [] messages messages := by
  have hlines : (messages.map Passage.line).flatMap Passage.lines = messages := by
    induction messages with
    | nil => rfl
    | cons message messages ih => exact congrArg (message :: ·) ih
  have hkept : (messages.map Passage.line).filter (Passage.isKept working places) =
      messages.map Passage.line := by
    refine List.filter_eq_self.2 fun passage hpassage => ?_
    obtain ⟨message, -, rfl⟩ := List.mem_map.1 hpassage
    rfl
  refine ⟨messages.map .line, ?_, by rw [hlines], by rw [hkept, hlines]⟩
  rw [List.filterMap_map]
  exact List.filterMap_eq_nil_iff.2 fun _ _ => rfl

theorem readings (working : String) (places : List Place) {all : List (String × Option String)}
    (hbroken : ∀ source ∈ all, placeOf working source.1 ∈ places → IsBroken source.2)
    (hwhole : whole.map Message.unnumbered = ((upToFatal all).flatMap sourceLines).map Message.unnumbered)
    (hpart : part.map Message.unnumbered =
      ((upToFatal (all.filter fun source => placeOf working source.1 ∉ places)).flatMap sourceLines).map
        Message.unnumbered) :
    Omits working places (upToFatal all) whole part := by
  have hlines : ∀ ss : List (String × Option String),
      (ss.map fun source => Passage.source source.1 source.2).flatMap Passage.lines =
        ss.flatMap sourceLines := fun ss => List.flatMap_map ..
  refine ⟨(upToFatal all).map fun source => .source source.1 source.2, ?_, ?_, ?_⟩
  · rw [List.filterMap_map]
    exact List.filterMap_some
  · rw [hwhole, hlines]
  · rw [hpart, upToFatal_filter fun source hsource hout => hbroken source hsource (by simpa using hout),
      List.filter_map, hlines]
    rfl

end Omits

namespace Inputs

variable {i : Inputs} {o : Options} {k : Kind}

theorem perFunction_eq (i : Inputs) (o : Options) :
    i.analyse o .perFunction = i.sourceFiles >>= fun files => i.readModel >>= fun model =>
      Script.ofExcept (functionMetrics o) >>= fun metrics => i.writeTable .perFunction "functions"
        (metrics.map fun m => m.stream model (i.nameOf o.naming) files) := rfl

/-- An analysis first reads the source files, an analysis of variables behind its model, and then knows
nothing else of them. -/
theorem analyse_eq_reading (hcache : i.cache = none) (o : Options) (k : Kind)
    (hmodel : k = .perVariable → i.readModel.result.isOk) :
    ∃ rest : List Code.SourceFile → Script Unit, ∀ sources,
      ({ i with sources := sources } : Inputs).analyse o k =
        parseSources sources.length 1 sources >>= rest := by
  cases k with
  | scattering =>
    exact ⟨fun files => i.readModel >>= fun model =>
      (countDegrees model files).save (i.resultPath .scattering) >>= fun _ =>
        report o (countDegrees model files), fun _ => rfl⟩
  | perFunction =>
    refine ⟨fun files => i.readModel >>= fun model => Script.ofExcept (functionMetrics o) >>= fun metrics =>
      i.writeTable .perFunction "functions"
        (metrics.map fun m => m.stream model (i.nameOf o.naming) files), fun sources => ?_⟩
    have hname : ({ i with sources := sources } : Inputs).nameOf o.naming = i.nameOf o.naming := rfl
    simp only [perFunction_eq, writeTable_withSources, hname]
    rfl
  | perFile =>
    refine ⟨fun files => i.readModel >>= fun model =>
      i.degrees o.cachePath model files >>= i.measure o .perFile model files, fun sources => ?_⟩
    simp only [perFile_eq, degrees_withSources, funext (measure_withSources i sources o .perFile _ _)]
    rfl
  | perVariable =>
    obtain ⟨model, hread⟩ : ∃ model, i.readModel = pure model := by
      have hok := hmodel rfl
      rw [readModel_eq]
      cases hresult : i.readModel.result with
      | ok model => exact ⟨model, rfl⟩
      | error e => simp [hresult, Except.isOk, Except.toBool] at hok
    refine ⟨fun files => i.degrees o.cachePath model files >>= i.measure o .perVariable model files,
      fun sources => ?_⟩
    have hsame : ({ i with sources := sources } : Inputs).readModel = pure model := hread
    rw [perVariable_eq, hsame, Script.pure_bind]
    have hnone : i.cache.isSome = false := congrArg Option.isSome hcache
    simp only [hnone, Bool.false_eq_true, if_false, degrees_withSources,
      funext (measure_withSources i sources o .perVariable model _)]
    rfl

theorem analyse_eq_fail {e : Failure} (hmodel : i.readModel.result = .error e) (o : Options) :
    i.analyse o .perVariable = Script.fail e := by
  rw [perVariable_eq, readModel_eq, hmodel]
  rfl

/-- The source files that an analysis comes to; an analysis of variables reads its model before. -/
def filesRead (i : Inputs) (k : Kind) : List (String × Option String) :=
  if k = .perVariable ∧ i.readModel.result.isOk = false then [] else upToFatal i.sources

end Inputs

end Variability
