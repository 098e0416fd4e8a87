import Variability.Proofs.Analysis.Effect

set_option autoImplicit false

namespace Variability

namespace Script

variable {α β : Type} {allowed : String → Prop}

/-- All paths that are written are allowed. -/
def Writes (allowed : String → Prop) (s : Script α) : Prop :=
  ∀ path text, .write path text ∈ s.steps → allowed path

abbrev Silent (s : Script α) : Prop := s.Writes fun _ => False

theorem Writes.mono {more : String → Prop} {s : Script α} (h : s.Writes allowed)
    (hmore : ∀ path, allowed path → more path) : s.Writes more :=
  fun path text hstep => hmore path (h path text hstep)

theorem Silent.writes {s : Script α} (h : s.Silent) : s.Writes allowed := h.mono fun _ => False.elim

theorem writes_of_steps_nil {s : Script α} (h : s.steps = []) : s.Writes allowed := by
  intro path text hstep
  simp [h] at hstep

theorem silent_ofOutcome (o : Outcome α) : (ofOutcome o).Silent := by
  intro path text hstep
  simp [ofOutcome] at hstep

theorem writes_write {path text : String} (h : allowed path) : (write path text).Writes allowed := by
  intro other content hstep
  obtain ⟨rfl, -⟩ : other = path ∧ content = text := by simpa [write] using hstep
  exact h

theorem silent_tell (message : Message) : (tell message).Silent := by
  intro path text hstep
  simp [tell] at hstep

theorem writes_bind {s : Script α} {f : α → Script β} (hs : s.Writes allowed)
    (hf : ∀ a, (f a).Writes allowed) : (s >>= f).Writes allowed := by
  intro path text hstep
  cases hresult : s.result with
  | error e =>
    refine hs path text ?_
    simpa [Bind.bind, Script.bind, hresult] using hstep
  | ok a =>
    have hboth : .write path text ∈ s.steps ++ (f a).steps := by
      simpa [Bind.bind, Script.bind, hresult] using hstep
    rcases List.mem_append.1 hboth with h | h
    · exact hs path text h
    · exact hf a path text h

theorem writes_mapM {f : α → Script β} (hf : ∀ a, (f a).Writes allowed) (as : List α) :
    (as.mapM f).Writes allowed := by
  suffices h : ∀ (as : List α) (acc : List β), (List.mapM.loop f as acc).Writes allowed from h as []
  intro as
  induction as with
  | nil => exact fun _ => writes_of_steps_nil rfl
  | cons a as ih => exact fun acc => writes_bind (hf a) fun b => ih (b :: acc)

/-- The script fails and writes nothing before. -/
structure Fails (s : Script α) : Prop where
  silent : s.Silent
  failed : ∀ a, s.result ≠ .ok a

theorem fails_fail (e : Failure) : (fail e : Script α).Fails :=
  ⟨writes_of_steps_nil rfl, fun a => by simp [fail]⟩

theorem Fails.bind {s : Script α} (hs : s.Fails) (f : α → Script β) : (s >>= f).Fails := by
  cases hresult : s.result with
  | ok a => exact absurd hresult (hs.failed a)
  | error e =>
    have hbind : s >>= f = ⟨s.steps, .error e⟩ := by simp [Bind.bind, Script.bind, hresult]
    exact hbind ▸ ⟨hs.silent, fun b => by simp⟩

theorem fails_bind {s : Script α} {f : α → Script β} (hs : s.Silent) (hf : ∀ a, (f a).Fails) :
    (s >>= f).Fails := by
  refine ⟨writes_bind hs fun a => (hf a).silent, fun b => ?_⟩
  cases hresult : s.result with
  | error e => simp [Bind.bind, Script.bind, hresult]
  | ok a => simpa [Bind.bind, Script.bind, hresult] using (hf a).failed b

end Script

namespace Disk

variable {d d' : Disk} {working : String} {written : Place → Prop}

theorem perform_keeps {P : Disk → Prop} {steps : List Step}
    (hstep : ∀ d d' path text, .write path text ∈ steps → d.write working path text = .ok d' → P d → P d')
    (h : P d) : P (d.perform working steps).2 := by
  induction steps generalizing d with
  | nil => exact h
  | cons step steps ih =>
    have hsteps : ∀ d d' path text, .write path text ∈ steps → d.write working path text = .ok d' →
        P d → P d' := fun d d' path text hmem => hstep d d' path text (List.mem_cons_of_mem _ hmem)
    cases step with
    | tell message => exact ih hsteps h
    | write path text =>
      rw [perform]
      cases hwrite : d.write working path text with
      | error e => exact h
      | ok d' => exact ih hsteps (hstep d d' path text List.mem_cons_self hwrite h)

theorem agree_perform {steps : List Step}
    (h : ∀ path text, .write path text ∈ steps → written (placeOf working path)) :
    Agree written d (d.perform working steps).2 :=
  perform_keeps (P := Agree written d)
    (fun _ _ path text hmem hwrite hagree => hagree.trans (agree_write hwrite (h path text hmem)))
    (.refl _ _)

theorem disk_runScript (d : Disk) (working : String) (s : Script Unit) :
    (d.runScript working s).2 = (d.perform working s.steps).2 := by
  rw [runScript]
  split <;> simp_all

theorem agree_runScript {s : Script Unit} (h : s.Writes fun path => written (placeOf working path)) :
    Agree written d (d.runScript working s).2 :=
  disk_runScript d working s ▸ agree_perform h

theorem perform_silent_append {steps : List Step} (h : ∀ path text, .write path text ∉ steps)
    (more : List Step) : d.perform working (steps ++ more) = d.perform working more := by
  induction steps with
  | nil => rfl
  | cons step steps ih =>
    cases step with
    | tell message => exact ih fun path text hstep => h path text (List.mem_cons_of_mem _ hstep)
    | write path text => exact absurd List.mem_cons_self (h path text)

theorem runScript_fails {s : Script Unit} (h : s.Fails) :
    d.runScript working s = (s.result, d) := by
  have hperform : d.perform working (s.steps ++ []) = d.perform working [] :=
    perform_silent_append h.silent []
  rw [List.append_nil] at hperform
  rw [runScript, hperform]
  rfl

theorem runScript_bind_ok {α : Type} {s : Script α} {a : α} (hs : s.Silent) (h : s.result = .ok a)
    (f : α → Script Unit) : d.runScript working (s >>= f) = d.runScript working (f a) := by
  have hbind : s >>= f = ⟨s.steps ++ (f a).steps, (f a).result⟩ := by
    simp [Bind.bind, Script.bind, h]
  rw [hbind, runScript, runScript, perform_silent_append hs]

theorem runScript_write_bind (path text : String) (f : Unit → Script Unit) :
    d.runScript working (Script.write path text >>= f) =
      match d.write working path text with
      | .error e => (.error (.file e), d)
      | .ok d' => d'.runScript working (f ()) := by
  have hbind : Script.write path text >>= f = ⟨.write path text :: (f ()).steps, (f ()).result⟩ := rfl
  rw [hbind, runScript, perform]
  cases d.write working path text <;> rfl

/-- On disks with the same folders the same steps leave the same at a place or leave it alone. -/
theorem SameFolders.perform (h : SameFolders d d') (working : String) (steps : List Step) :
    ((d.perform working steps).1 = .ok () ↔ (d'.perform working steps).1 = .ok ()) ∧
      ∀ place, (d.perform working steps).2.node? place = (d'.perform working steps).2.node? place ∨
        (d.perform working steps).2.node? place = d.node? place ∧
          (d'.perform working steps).2.node? place = d'.node? place := by
  induction steps generalizing d d' with
  | nil => exact ⟨Iff.rfl, fun _ => .inr ⟨rfl, rfl⟩⟩
  | cons step steps ih =>
    cases step with
    | tell message => exact ih h
    | write path text =>
      cases htarget : d.target working path with
      | error e =>
        cases htarget' : d'.target working path with
        | error e' => simp [Disk.perform, write, htarget, htarget', Except.map]
        | ok place => simp [h.target_iff.2 htarget'] at htarget
      | ok place =>
        have htarget' := h.target_iff.1 htarget
        have hroot : place ≠ [] := by
          rintro rfl
          exact (target_eq_ok_iff.1 htarget).2.2 rfl
        have hput : Agree (fun _ => True) d (d.put place (.file text)) :=
          agree_put hroot (target_eq_ok_iff.1 htarget).2.2 trivial
        have hput' : Agree (fun _ => True) d' (d'.put place (.file text)) :=
          agree_put hroot (target_eq_ok_iff.1 htarget').2.2 trivial
        obtain ⟨hok, hnode⟩ := ih ((hput.folders.symm.trans h).trans hput'.folders)
        simp only [Disk.perform, write, htarget, htarget', Except.map]
        refine ⟨hok, fun other => ?_⟩
        rcases hnode other with hsame | ⟨hleft, hright⟩
        · exact .inl hsame
        · by_cases hplace : place = other
          · subst hplace
            rw [node?_put_self d hroot] at hleft
            rw [node?_put_self d' hroot] at hright
            exact .inl (hleft.trans hright.symm)
          · rw [node?_put_other d hplace] at hleft
            rw [node?_put_other d' hplace] at hright
            exact .inr ⟨hleft, hright⟩

theorem SameFolders.runScript (h : SameFolders d d') (s : Script Unit) :
    ((d.runScript working s).1 = .ok () ↔ (d'.runScript working s).1 = .ok ()) ∧
      ∀ place, (d.runScript working s).2.node? place = (d'.runScript working s).2.node? place ∨
        (d.runScript working s).2.node? place = d.node? place ∧
          (d'.runScript working s).2.node? place = d'.node? place := by
  obtain ⟨hok, hnode⟩ := h.perform working s.steps
  refine ⟨?_, fun place => ?_⟩
  · unfold Disk.runScript
    rcases hperform : d.perform working s.steps with ⟨result, e⟩
    rcases hperform' : d'.perform working s.steps with ⟨result', e'⟩
    simp only [hperform, hperform'] at hok
    cases result <;> cases result' <;> simp_all
  · rw [disk_runScript, disk_runScript]
    exact hnode place

/-- A script that is run again leaves what is there. -/
theorem runScript_again (d : Disk) (working : String) (s : Script Unit) (place : Place) :
    ((d.runScript working s).2.runScript working s).2.node? place =
      (d.runScript working s).2.node? place := by
  have hagree : Agree (fun _ => True) d (d.runScript working s).2 :=
    agree_runScript fun _ _ _ => trivial
  rcases (hagree.folders.runScript s).2 place with hsame | ⟨-, halone⟩
  · exact hsame.symm
  · exact halone

end Disk

namespace Inputs

open Script

variable {o : Options} {k : Kind}

theorem silent_readModel (i : Inputs) : i.readModel.Silent := by
  unfold readModel
  split <;> exact writes_of_steps_nil rfl

theorem writes_save (degrees : Degrees) (path : String) : (degrees.save path).Writes (· = path) :=
  writes_bind (writes_write rfl) fun _ => writes_of_steps_nil rfl

theorem writes_degrees (i : Inputs) (cache : Option String) (model : Option Model)
    (files : List Code.SourceFile) :
    (i.degrees cache model files).Writes fun path => cache = some path := by
  unfold degrees
  split
  · exact writes_bind (silent_tell _).writes fun _ => (silent_ofOutcome _).writes
  · refine writes_bind (silent_tell _).writes fun _ => writes_bind ?_ fun _ => writes_of_steps_nil rfl
    exact (writes_save _ _).mono fun _ hpath => congrArg some hpath.symm
  · exact writes_of_steps_nil rfl

theorem writes_writeTable (i : Inputs) (k : Kind) (things : String) (streams : List Stream) :
    (i.writeTable k things streams).Writes fun path => path = i.resultPath k := by
  unfold writeTable
  refine writes_bind (silent_ofOutcome _).writes fun _ => writes_bind (writes_of_steps_nil rfl) fun _ => ?_
  exact writes_bind (writes_write rfl) fun _ => writes_bind (writes_of_steps_nil rfl) fun _ =>
    (silent_tell _).writes

def measure (i : Inputs) (o : Options) (k : Kind) (model : Option Model) (files : List Code.SourceFile)
    (degrees : Degrees) : Script Unit :=
  let types := match model with
    | none => []
    | some m => [VariableMetric.type (some m)]
  match k with
  | .perFile => do
    let metrics := VariableMetric.scattering degrees .directives :: types
    let streams ← metrics.mapM fun m => do
      let weights ← Script.ofOutcome (Weights.ofStream m.stream)
      return weightedStream (weightedBy m.name) weights (i.nameOf o.naming) files
    i.writeTable .perFile "files" streams
  | _ =>
    i.writeTable .perVariable "variables"
      (([VariableMetric.scattering degrees .directives, .scattering degrees .files] ++ types).map
        VariableMetric.stream)

def report (o : Options) (degrees : Degrees) : Script Unit := do
  if let some path := o.cachePath then
    Script.tell (.writingCache path)
    degrees.save path
  match degrees.statistics? with
  | none => Script.fail .outOfRange
  | some s =>
    let text := Number.renderFixed 2
    Script.tell (.degreeStatistics degrees.size (text s.ifdefMean) (text s.ifdefDeviation)
      (text s.fileMean) (text s.fileDeviation))

theorem writes_report (o : Options) (degrees : Degrees) :
    (report o degrees).Writes fun path => o.cachePath = some path := by
  unfold report
  cases hpath : o.cachePath with
  | none =>
    dsimp only
    split
    · exact writes_of_steps_nil rfl
    · exact (silent_tell _).writes
  | some path =>
    refine writes_bind (silent_tell _).writes fun _ =>
      writes_bind ((writes_save _ path).mono fun _ h => h ▸ rfl) fun _ => ?_
    split
    · exact writes_of_steps_nil rfl
    · exact (silent_tell _).writes

theorem writes_measure (hk : k = .perVariable ∨ k = .perFile) (i : Inputs) (o : Options)
    (model : Option Model) (files : List Code.SourceFile) (degrees : Degrees) :
    (i.measure o k model files degrees).Writes fun path => path = i.resultPath k := by
  rcases hk with rfl | rfl
  · exact i.writes_writeTable _ _ _
  · refine writes_bind (writes_mapM (fun m => ?_) _) fun _ => i.writes_writeTable _ _ _
    exact writes_bind (silent_ofOutcome _).writes fun _ => writes_of_steps_nil rfl

def Target (i : Inputs) (o : Options) (k : Kind) (path : String) : Prop :=
  path = i.resultPath k ∨ o.cachePath = some path

end Inputs

variable [ParserStack]

theorem silent_parseSources (total number : Nat) (sources : List (String × Option String)) :
    (parseSources total number sources).Silent := by
  induction sources generalizing number with
  | nil => exact Script.writes_of_steps_nil rfl
  | cons source rest ih =>
    obtain ⟨path, text⟩ := source
    have htold : ∀ o : Outcome Unit, (Script.ofOutcome o).Silent := Script.silent_ofOutcome
    rw [parseSources]
    split
    · exact Script.writes_bind (htold _) fun _ => Script.writes_bind (Script.silent_tell _) fun _ =>
        Script.writes_bind (ih _) fun _ => Script.writes_of_steps_nil rfl
    · exact Script.writes_bind (htold _) fun _ => Script.writes_bind (Script.silent_tell _) fun _ => ih _
    · exact Script.writes_bind (htold _) fun _ => Script.writes_bind (Script.silent_tell _) fun _ => ih _
    · exact Script.writes_bind (htold _) fun _ => Script.writes_of_steps_nil rfl

namespace Inputs

open Script

theorem silent_sourceFiles (i : Inputs) : i.sourceFiles.Silent := silent_parseSources _ _ _

theorem perVariable_eq (i : Inputs) (o : Options) :
    i.analyse o .perVariable = i.readModel >>= fun model =>
      (if i.cache.isSome then pure [] else i.sourceFiles) >>= fun files =>
        i.degrees o.cachePath model files >>= i.measure o .perVariable model files := by
  change i.perVariable o = _
  unfold perVariable
  cases i.cache <;> rfl

theorem perFile_eq (i : Inputs) (o : Options) :
    i.analyse o .perFile = i.sourceFiles >>= fun files => i.readModel >>= fun model =>
      i.degrees o.cachePath model files >>= i.measure o .perFile model files := rfl

theorem scattering_eq (i : Inputs) (o : Options) :
    i.analyse o .scattering = i.sourceFiles >>= fun files => i.readModel >>= fun model =>
      (countDegrees model files).save (i.resultPath .scattering) >>= fun _ =>
        report o (countDegrees model files) := rfl

theorem writes_analyse (i : Inputs) (o : Options) (k : Kind) :
    (i.analyse o k).Writes (i.Target o k) := by
  have hresult : ∀ {s : Script Unit}, s.Writes (fun path => path = i.resultPath k) →
      s.Writes (i.Target o k) := fun h => h.mono fun _ => .inl
  have hcache : ∀ {s : Script Degrees}, s.Writes (fun path => o.cachePath = some path) →
      s.Writes (i.Target o k) := fun h => h.mono fun _ => .inr
  have hfiles : i.sourceFiles.Writes (i.Target o k) := i.silent_sourceFiles.writes
  have hmodel : i.readModel.Writes (i.Target o k) := i.silent_readModel.writes
  cases k with
  | scattering =>
    rw [scattering_eq]
    exact writes_bind hfiles fun _ => writes_bind hmodel fun _ =>
      writes_bind (hresult (writes_save _ _)) fun _ => (writes_report o _).mono fun _ => .inr
  | perFunction =>
    exact writes_bind hfiles fun _ => writes_bind hmodel fun _ =>
      writes_bind (writes_of_steps_nil rfl) fun _ => hresult (i.writes_writeTable _ _ _)
  | perVariable =>
    rw [perVariable_eq]
    refine writes_bind hmodel fun model => writes_bind ?_ fun files => ?_
    · split
      · exact writes_of_steps_nil rfl
      · exact hfiles
    · exact writes_bind (hcache (i.writes_degrees _ _ _)) fun _ =>
        hresult (i.writes_measure (.inl rfl) _ _ _ _)
  | perFile =>
    exact writes_bind hfiles fun _ => writes_bind hmodel fun _ =>
      writes_bind (hcache (i.writes_degrees _ _ _)) fun _ =>
        hresult (i.writes_measure (.inr rfl) _ _ _ _)

theorem fails_analyse {i : Inputs} {e : FileError} (h : i.model = some (.error e)) (o : Options)
    (k : Kind) : (i.analyse o k).Fails := by
  have hmodel : i.readModel.Fails := by
    rw [readModel, h]
    exact fails_fail _
  cases k with
  | perVariable => exact hmodel.bind _
  | scattering => exact fails_bind i.silent_sourceFiles fun _ => hmodel.bind _
  | perFunction => exact fails_bind i.silent_sourceFiles fun _ => hmodel.bind _
  | perFile => exact fails_bind i.silent_sourceFiles fun _ => hmodel.bind _

theorem analyse_withCache {k : Kind} (h : k = .scattering ∨ k = .perFunction) (i : Inputs)
    (o : Options) (cache : Option String) :
    ({ i with cache := cache } : Inputs).analyse o k = i.analyse o k := by
  rcases h with rfl | rfl <;> rfl

end Inputs
end Variability
