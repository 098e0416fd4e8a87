import Variability.Proofs.Analysis.Jobs
import Variability.Proofs.Analysis.Parsing
import Variability.Proofs.Scattering.Cache

/-!
The cache of scattering degrees. The first command counts the degrees and writes the cache, the next
one reads it.
-/

set_option autoImplicit false

namespace Variability

theorem Model.nodup_names_read {text : String} {m : Model} (h : Model.read text = .ok m) :
    (m.toList.map Variable.name).Nodup := by
  unfold Model.read at h
  split at h
  · cases h
    exact List.nodup_nil
  · split at h
    · cases h
    · cases h
      exact Model.nodup_names_ofList _

namespace Inputs

variable {i : Inputs} {o : Options} {k : Kind} {model : Option Model} {files : List Code.SourceFile}

theorem nodup_of_readModel (h : i.readModel.result = .ok model) :
    ∀ m ∈ model, (m.toList.map Variable.name).Nodup := by
  intro m hm
  unfold readModel at h
  split at h
  · cases h
    cases hm
  · next text _ =>
    have hread : (Model.read text).map some = .ok model := h
    cases hmodel : Model.read text with
    | error e =>
      rw [hmodel] at hread
      cases hread
    | ok m' =>
      rw [hmodel] at hread
      cases hread
      cases hm
      exact Model.nodup_names_read hmodel
  · cases h

theorem degrees_uncached (hcache : i.cache = none) (path : String) :
    i.degrees (some path) model files = Script.tell (.writingCache path) >>= fun _ =>
      (countDegrees model files).save path >>= fun _ => pure (countDegrees model files) := by
  simp only [degrees, hcache]

theorem degrees_cached {text : String} (hcache : i.cache = some text) (path : String) :
    i.degrees (some path) model files = Script.tell (.readingCache path) >>= fun _ =>
      Script.ofOutcome (Degrees.read path model text) := by
  simp only [degrees, hcache]

variable [ParserStack]

/-- The degrees that the analysis counts can be kept in a cache and are known when they are read. -/
def Keeps (i : Inputs) : Prop :=
  ∀ model files, i.readModel.result = .ok model → i.sourceFiles.result = .ok files →
    ∀ name, Listed model files name →
      Cacheable name ∧ Known model name ∧ directivesWith model files name < 10 ^ Number.digitLimit

theorem keeps_iff : i.Keeps ↔
    ∀ model ∈ i.readModel.result.toOption, ∀ files ∈ i.sourceFiles.result.toOption,
      ∀ d ∈ (countDegrees model files).toList, Cacheable d.name ∧ Known model d.name ∧
        directivesWith model files d.name < 10 ^ Number.digitLimit := by
  have hoption : ∀ {α : Type} (r : Except Failure α) (a : α), a ∈ r.toOption ↔ r = .ok a := by
    intro α r a
    cases r <;> simp [Except.toOption]
  constructor
  · intro h model hmodel files hfiles d hd
    rw [hoption] at hmodel hfiles
    exact h model files hmodel hfiles d.name ((mem_countDegrees (nodup_of_readModel hmodel)).1 hd).1
  · intro h model files hmodel hfiles name hlisted
    have hname := name_degreeIn model files name
    have hd : degreeIn model files name ∈ (countDegrees model files).toList :=
      (mem_countDegrees (nodup_of_readModel hmodel)).2 (by simpa [hname] using hlisted)
    have hdegree := h model ((hoption _ _).2 hmodel) files ((hoption _ _).2 hfiles) _ hd
    rwa [hname] at hdegree

instance (i : Inputs) : Decidable i.Keeps := decidable_of_iff' _ keeps_iff

theorem fails_uncached (hk : k = .perVariable ∨ k = .perFile) (hcache : i.cache = none)
    (h : ¬ ∃ model files, i.readModel.result = .ok model ∧ i.sourceFiles.result = .ok files) :
    (i.analyse o k).Fails := by
  cases hmodel : i.readModel.result with
  | error e =>
    have hfails : i.readModel.Fails := ⟨i.silent_readModel, fun model => by simp [hmodel]⟩
    rcases hk with rfl | rfl
    · exact hfails.bind _
    · exact Script.fails_bind i.silent_sourceFiles fun _ => hfails.bind _
  | ok model =>
    have hfails : i.sourceFiles.Fails :=
      ⟨i.silent_sourceFiles, fun files hfiles => h ⟨model, files, hmodel, hfiles⟩⟩
    rcases hk with rfl | rfl
    · rw [perVariable_eq, hcache]
      exact Script.fails_bind i.silent_readModel fun _ => hfails.bind _
    · exact hfails.bind _

end Inputs

namespace Disk

open Inputs

variable {d d' : Disk} {working : String} {i : Inputs} {o : Options} {k : Kind} {path : String}
  {model : Option Model} {files : List Code.SourceFile}

theorem runScript_save_bind {degrees : Degrees} (hshort : degrees.write.2 = none)
    (f : Unit → Script Unit) :
    d.runScript working (degrees.save path >>= f) =
      match d.write working path degrees.write.1 with
      | .error e => (.error (.file e), d)
      | .ok d' => d'.runScript working (f ()) := by
  have hsave : degrees.save path = Script.write path degrees.write.1 >>= fun _ => pure () := by
    simp only [Degrees.save, hshort]
    rfl
  rw [hsave, Script.bind_assoc, runScript_write_bind]
  rfl

theorem write_new {text : String} (habsent : d.node? (placeOf working path) = none)
    (h : d.write working path text = .ok d') :
    placeOf working path ≠ [] ∧ d' = d.put (placeOf working path) (.file text) ∧
      d'.cacheText working path = some text := by
  have hroot : placeOf working path ≠ [] := by
    intro hroot
    simp [hroot, node?] at habsent
  have hagree : Agree (fun _ => True) d d' := agree_write h trivial
  unfold write at h
  cases htarget : d.target working path with
  | error e => simp [htarget, Except.map] at h
  | ok place =>
    obtain ⟨-, hlocate, -⟩ := target_eq_ok_iff.1 htarget
    obtain rfl := locate_eq_ok hlocate
    obtain rfl : d.put (placeOf working path) (.file text) = d' := by
      simpa [htarget, Except.map] using h
    have hnode := node?_put_self d hroot (.file text)
    have hlocate' := hagree.folders.locate_ok hlocate
    have hread := read_eq_ok_iff.2 ⟨_, hlocate', hnode⟩
    have hfile := isFile_iff.2 ⟨_, _, hlocate', hnode⟩
    exact ⟨hroot, rfl, by simp [cacheText, hfile, hread, Except.toOption]⟩

theorem cacheText_absent (h : d.node? (placeOf working path) = none) :
    d.cacheText working path = none := by
  refine if_neg fun hfile => ?_
  obtain ⟨place, text, hlocate, hnode⟩ := isFile_iff.1 hfile
  rw [locate_eq_ok hlocate, h] at hnode
  cases hnode

theorem readable_of_readModel {folder : String}
    (h : (d.inputs working o folder).readModel.result = .ok model) :
    ∀ path ∈ o.modelPath, ∃ text, d.read working path = .ok text := by
  intro path hpath
  cases hread : d.read working path with
  | ok text => exact ⟨text, rfl⟩
  | error e =>
    simp [readModel, inputs, Option.mem_def.1 hpath, hread, Script.fail] at h

variable [ParserStack]

theorem runScript_uncached (hk : k = .perVariable ∨ k = .perFile) (hcache : i.cache = none)
    (hpath : o.cachePath = some path) (hmodel : i.readModel.result = .ok model)
    (hfiles : i.sourceFiles.result = .ok files) (hshort : (countDegrees model files).write.2 = none) :
    d.runScript working (i.analyse o k) =
      match d.write working path (countDegrees model files).write.1 with
      | .error e => (.error (.file e), d)
      | .ok d' => d'.runScript working (i.measure o k model files (countDegrees model files)) := by
  have hdegrees : ∀ f : Degrees → Script Unit,
      d.runScript working (i.degrees o.cachePath model files >>= f) =
        match d.write working path (countDegrees model files).write.1 with
        | .error e => (.error (.file e), d)
        | .ok d' => d'.runScript working (f (countDegrees model files)) := by
    intro f
    rw [hpath, degrees_uncached hcache, Script.bind_assoc,
      runScript_bind_ok (Script.silent_tell _) rfl, Script.bind_assoc, runScript_save_bind hshort]
    rfl
  rcases hk with rfl | rfl
  · rw [perVariable_eq, runScript_bind_ok i.silent_readModel hmodel, hcache]
    exact (runScript_bind_ok i.silent_sourceFiles hfiles _).trans (hdegrees _)
  · rw [perFile_eq, runScript_bind_ok i.silent_sourceFiles hfiles,
      runScript_bind_ok i.silent_readModel hmodel, hdegrees]

/-- With a cache the analysis measures the degrees in it. -/
theorem runScript_cached (hk : k = .perVariable ∨ k = .perFile) {text : String} {degrees : Degrees}
    (hcache : i.cache = some text) (hpath : o.cachePath = some path)
    (hread : (Degrees.read path model text).result = .ok degrees)
    (hmodel : i.readModel.result = .ok model) (hfiles : i.sourceFiles.result = .ok files) :
    d.runScript working (i.analyse o k) =
      d.runScript working (i.measure o k model files degrees) := by
  have hdegrees : ∀ (fs : List Code.SourceFile) (f : Degrees → Script Unit),
      d.runScript working (i.degrees o.cachePath model fs >>= f) =
        d.runScript working (f degrees) := by
    intro fs f
    rw [hpath, degrees_cached hcache, Script.bind_assoc,
      runScript_bind_ok (Script.silent_tell _) rfl,
      runScript_bind_ok (Script.silent_ofOutcome _) hread]
  rcases hk with rfl | rfl
  · rw [perVariable_eq, runScript_bind_ok i.silent_readModel hmodel, hcache]
    exact hdegrees [] _
  · rw [perFile_eq, runScript_bind_ok i.silent_sourceFiles hfiles,
      runScript_bind_ok i.silent_readModel hmodel, hdegrees]

theorem analyse_uncached {folder : String} (hk : k = .perVariable ∨ k = .perFile)
    (hpath : o.cachePath = some path) (habsent : d.node? (placeOf working path) = none)
    (hkeeps : (d.inputs working o folder).Keeps) :
    let i := d.inputs working o folder
    (d.analyse working o k folder).2 = d ∨ ∃ model files d',
      i.readModel.result = .ok model ∧ i.sourceFiles.result = .ok files ∧
        d.write working path (countDegrees model files).write.1 = .ok d' ∧
        d.analyse working o k folder =
          d'.runScript working (i.measure o k model files (countDegrees model files)) := by
  intro i
  have hcache : i.cache = none := by
    simp only [i, inputs, hpath, Option.bind_some, cacheText_absent habsent]
  by_cases hready : ∃ model files, i.readModel.result = .ok model ∧ i.sourceFiles.result = .ok files
  · obtain ⟨model, files, hmodel, hfiles⟩ := hready
    have hshort := (Degrees.read_write_countDegrees (nodup_of_readModel hmodel) path
      (hkeeps model files hmodel hfiles)).1
    have hrun : d.analyse working o k folder = _ :=
      runScript_uncached hk hcache hpath hmodel hfiles hshort
    cases hwrite : d.write working path (countDegrees model files).write.1 with
    | error e => exact .inl (by rw [hrun, hwrite])
    | ok d' => exact .inr ⟨model, files, d', hmodel, hfiles, hwrite, by rw [hrun, hwrite]⟩
  · exact .inl (congrArg Prod.snd (runScript_fails (fails_uncached hk hcache hready)))

section Again

variable {project cache : String}

/-- After the cache and the result have been written, an analysis finds the cache and the same model and
source files as before. -/
theorem inputs_again {d₁ : Disk} {text : String} (hworking : Path.isAbsolute working)
    (hnames : d.ProperNames) (hpath : o.cachePath = some cache)
    (habsent : d.node? (placeOf working cache) = none)
    (hresult : ∀ path ∈ o.commonFiles, placeOf working path ≠ resultPlace working project k)
    (hplain : ∀ source, (Code.readSourceFile source text).result = .error .illFormed)
    (hmodel : ∀ path ∈ o.modelPath, ∃ text, d.read working path = .ok text)
    (hwrite : d.write working cache text = .ok d')
    (hagree : Agree (· = resultPlace working project k) d' d₁)
    (hreadable : ∀ source ∈ d₁.sources working (Path.join project sourceFolder),
      placeOf working source.1 = placeOf working cache → source.2 ≠ none) :
    let i := d.inputs working o (Path.join project sourceFolder)
    let j := d₁.inputs working o (Path.join project sourceFolder)
    j.cache = some text ∧ j.readModel = i.readModel ∧
      j.sourceFiles.result = i.sourceFiles.result := by
  intro i j
  obtain ⟨hroot, hput, htext⟩ := write_new habsent hwrite
  have hcacheResult := hresult cache (by simp [Options.commonFiles, hpath])
  refine ⟨?_, ?_, ?_⟩
  · have hsame := hagree.folders.cacheText_eq (hagree.kept _ hcacheResult).symm
    simp only [j, inputs, hpath, Option.bind_some, ← hsame, htext]
  · have hboth : Agree (Written working o project k) d d₁ := by
      refine (agree_write hwrite (.inr ⟨cache, hpath, rfl⟩)).trans (hagree.mono fun _ h => .inl h)
    have hkept : ∀ path ∈ o.modelPath, ¬ Written working o project k (placeOf working path) ∧
        ∃ text, d.read working path = .ok text := by
      refine fun path hmem => ⟨?_, hmodel path hmem⟩
      obtain ⟨content, hread⟩ := hmodel path hmem
      rintro (hplace | hplace)
      · exact hresult path (by simp [Options.commonFiles, Option.mem_def.1 hmem]) hplace
      · exact not_cachePlace_of_read (by simpa [hpath] using habsent) hread hplace
    simp only [j, i, readModel, inputs, hboth.model_eq hkept]
  · have hproper : d'.ProperNames := hput ▸ hnames.put (fun _ => isName_of_mem_placeOf) _
    have hsources := hagree.sources_eq hproper hworking fun place hplace => by
      rw [placeOf_sourceFolder, hplace]
      exact result_not_source working project k
    have hparsed : ∀ e : Disk, (e.inputs working o (Path.join project sourceFolder)).sourceFiles.result =
        parsedFiles (e.sources working (Path.join project sourceFolder)) :=
      fun e => result_parseSources _ _ _
    rw [hsources, hput] at hreadable
    simp only [j, i, hparsed, hsources, hput,
      parsedFiles_put_new hnames hworking hroot habsent hplain hreadable]

/-- The second analysis succeeds if the first one does, and leaves the same result. -/
theorem runJob_again (hworking : Path.isAbsolute working)
    (hnames : d.ProperNames) (hk : k = .perVariable ∨ k = .perFile) (hpath : o.cachePath = some cache)
    (habsent : d.node? (placeOf working cache) = none)
    (hresult : ∀ path ∈ o.commonFiles, placeOf working path ≠ resultPlace working project k)
    (hkeeps : (d.inputs working o (Path.join project sourceFolder)).Keeps)
    (hreadable : ∀ source ∈ (d.runJob working o (k, project)).2.sources working
      (Path.join project sourceFolder), placeOf working source.1 = placeOf working cache → source.2 ≠ none) :
    let first := d.runJob working o (k, project)
    let second := first.2.runJob working o (k, project)
    (second.1 = .ok () ↔ first.1 = .ok ()) ∧
      second.2.node? (resultPlace working project k) = first.2.node? (resultPlace working project k) := by
  intro first second
  have hsame : first.2 = d → (second.1 = .ok () ↔ first.1 = .ok ()) ∧
      second.2.node? (resultPlace working project k) =
        first.2.node? (resultPlace working project k) := by
    intro hdisk
    have hsecond : second = first := by simp only [second, hdisk, first]
    exact hsecond ▸ ⟨Iff.rfl, rfl⟩
  rcases analyse_uncached hk hpath habsent hkeeps with hdisk | ⟨model, files, d', hmodel, hfiles, hwrite, hfirst⟩
  · exact hsame hdisk
  · have hagree : Agree (· = resultPlace working project k) d' first.2 := by
      rw [show first = _ from hfirst]
      exact agree_runScript ((writes_measure hk _ _ _ _ _).mono fun path hwritten =>
        hwritten ▸ placeOf_resultPath rfl working k)
    have hplain : ∀ source, (Code.readSourceFile source
        (countDegrees model files).write.1).result = .error .illFormed := by
      obtain ⟨rest, hrest⟩ := Degrees.toList_write (countDegrees model files)
      exact Code.readSourceFile_plain (by decide) hrest
    obtain ⟨hcached, hmodel', hfiles'⟩ := inputs_again hworking hnames hpath habsent hresult hplain
      (readable_of_readModel hmodel) hwrite hagree hreadable
    have hread := (Degrees.read_write_countDegrees (nodup_of_readModel hmodel) cache
      (hkeeps model files hmodel hfiles)).2
    -- the second analysis measures what the first one has measured
    let measured := (d.inputs working o (Path.join project sourceFolder)).measure o k model files
      (countDegrees model files)
    have hsecond : second = first.2.runScript working measured := by
      have hcachedRun : second = _ :=
        runScript_cached hk hcached hpath (congrArg Outcome.result hread) (hmodel' ▸ hmodel)
          (hfiles'.trans hfiles)
      exact hcachedRun
    have hok : (d'.runScript working measured).1 = .ok () ↔
        (first.2.runScript working measured).1 = .ok () := (hagree.folders.runScript measured).1
    have hnode := runScript_again d' working measured (resultPlace working project k)
    rw [← show first = _ from hfirst] at hok hnode
    rw [hsecond]
    exact ⟨hok.symm, hnode⟩

end Again
end Disk

section Command

variable [ParserStack]

/-- If the cache, which is not there at first, the list and the model are not the result, the cache keeps
the degrees that are counted, and it can be read where it is found among the source files, then a command for
the variables or the files of a project that is given again ends well if it did before, and leaves the same
result. -/
theorem command_again (o : Options) (s : Session) (k : Kind) (project cache : String)
    (hworking : Path.isAbsolute s.working) (hnames : s.disk.ProperNames) (hsingle : o.single = none)
    (hall : o.allKinds = false) (hkind : o.kind = .value k) (hk : k = .perVariable ∨ k = .perFile)
    (hproject : s.disk.projects s.working o.list = [project]) (hpath : o.cachePath = some cache)
    (habsent : s.disk.node? (placeOf s.working cache) = none)
    (hresult : ∀ path ∈ o.commonFiles, placeOf s.working path ≠ resultPlace s.working project k)
    (hkeeps : (s.disk.inputs s.working o (Path.join project sourceFolder)).Keeps)
    (hreadable : ∀ source ∈ (s.command o).2.disk.sources s.working (Path.join project sourceFolder),
      placeOf s.working source.1 = placeOf s.working cache → source.2 ≠ none) :
    let first := s.command o
    let second := first.2.command o
    (second.1 = .exit 0 ↔ first.1 = .exit 0) ∧
      second.2.disk.node? (resultPlace s.working project k) =
        first.2.disk.node? (resultPlace s.working project k) := by
  intro first second
  have hkinds : o.kinds = [.value k] := by simp [Options.kinds, hall, hkind]
  have hsome : s.disk.projects s.working o.list ≠ [] := by simp [hproject]
  have hlist : ¬ Disk.Written s.working o project k (placeOf s.working o.list) := by
    obtain ⟨-, text, -, hnode⟩ := Disk.file_of_projects hworking hsome
    rintro (hplace | hplace)
    · exact hresult o.list List.mem_cons_self hplace
    · exact Disk.not_cachePlace_file (by simpa [hpath] using habsent) hnode hplace
  obtain ⟨hending, hfolder, hdisk⟩ := command_eq_runJob hworking hsingle hkinds hproject hlist
  -- the second command finds the list as it was
  have hprojects : first.2.disk.projects first.2.working o.list = [project] := by
    have hagree := Disk.agree_analyse s.disk s.working o k project
    rw [hfolder, hdisk, ← hproject]
    exact hagree.projects_eq hworking hlist hsome
  obtain ⟨hending', -, hdisk'⟩ := command_eq_runJob (hfolder ▸ hworking) hsingle hkinds hprojects
    (hfolder ▸ hlist)
  have hagain := Disk.runJob_again hworking hnames hk hpath habsent hresult hkeeps (hdisk ▸ hreadable)
  rw [hfolder, hdisk] at hending' hdisk'
  rw [hending, hending', Ending.of_eq_exit_zero, Ending.of_eq_exit_zero, hdisk', hdisk]
  exact hagain

end Command

def modelledProject : Session where
  disk := {
    entries := [
      (["r"], .folder), (["r", "p"], .folder), (["r", "p", sourceFolder], .folder),
      (["r", "p", sourceFolder, "a.c.xml"], .file ("<unit xmlns=\"http://www.srcML.org/srcML/cpp\">" ++
        "<ifdef>#<directive>ifdef</directive> <name>A</name></ifdef><endif/></unit>")),
      (["r", "list"], .file "p\n"), (["r", "whole"], .file "Name;Type\nA;bool\n"),
      (["r", "empty"], .file "Name;Type\n")] }
  working := "/r"
  temporary := "/tmp"

def modelledOptions (model : String) : Options :=
  { kind := .value .perVariable, list := "list", model := .value (some model),
    cache := .value (some "cache.csv") }

theorem command_again_declared :
    let first := modelledProject.command (modelledOptions "whole")
    let second := first.2.command (modelledOptions "whole")
    (second.1 = .exit 0 ↔ first.1 = .exit 0) ∧
      second.2.disk.node? (resultPlace "/r" "p" .perVariable) =
        first.2.disk.node? (resultPlace "/r" "p" .perVariable) :=
  command_again (modelledOptions "whole") modelledProject .perVariable "p" "cache.csv" (by decide)
    (by decide +kernel) rfl rfl rfl (.inl rfl) (by decide +kernel) (by decide +kernel)
    (by decide +kernel) (by decide +kernel) (by decide +kernel) (by decide +kernel)

/-- A variable that the model does not declare is counted, but it is dropped when the cache is read. -/
theorem command_again_undeclared :
    let o := modelledOptions "empty"
    let first := modelledProject.command o
    let second := first.2.command o
    modelledProject.disk.projects "/r" o.list = ["p"] ∧ o.cachePath = some "cache.csv" ∧
      modelledProject.disk.node? (placeOf "/r" "cache.csv") = none ∧
      (∀ files ∈ (modelledProject.disk.inputs "/r" o
          (Path.join "p" sourceFolder)).sourceFiles.result.toOption,
        ∀ f ∈ files, ∀ b ∈ f.blocks.walk, ∀ name ∈ conditionNames b.condition, Cacheable name) ∧
      first.1 = .exit 0 ∧ second.1 = .exit 0 ∧
      first.2.disk.node? (resultPlace "/r" "p" .perVariable) = some (.file
        "Source File;Line No.;Element;#ifdef SD;File SD;Type Weight\n;;A;1.0;1.0;\n") ∧
      second.2.disk.node? (resultPlace "/r" "p" .perVariable) = some (.file
        "Source File;Line No.;Element;#ifdef SD;File SD;Type Weight\n") := by
  decide +kernel

end Variability
