import Variability.Proofs.Analysis.Reading
import Variability.Proofs.Analysis.Telling
import Variability.Proofs.Disk.Without

/-!
Broken source files in the projects of a command. Without them it ends the same and leaves the same
results, and what it tells is the same but for the numbers of files and the lines about the broken
ones.
-/

set_option autoImplicit false

namespace Variability

namespace Disk

variable {d : Disk} {working folder : String} {o : Options} {places : List Place} {place : Place}

theorem heard_without (hd : d.LeavesFolders places) {steps : List Step}
    (h : ∀ path text, .write path text ∈ steps → Clear working places path) :
    (d.without places).heard working steps = d.heard working steps := by
  induction steps generalizing d with
  | nil => rfl
  | cons step steps ih =>
    have hsteps : ∀ path text, .write path text ∈ steps → Clear working places path :=
      fun path text hstep => h path text (List.mem_cons_of_mem _ hstep)
    cases step with
    | tell message => exact congrArg (message :: ·) (ih hd hsteps)
    | write path text =>
      have hclear := h path text List.mem_cons_self
      rw [heard, heard, write_without hd hclear]
      cases hwrite : d.write working path text with
      | error e => rfl
      | ok d' => exact ih (hd.write hclear.avoids.placeOf hwrite) hsteps

theorem isListed_resultPlace (working project : String) (k : Kind) :
    isListed (resultPlace working project k) = false := by
  rw [resultPlace, isListed_concat]
  cases k <;> decide

variable [ParserStack]

def IsBrokenAt (d : Disk) (place : Place) : Prop :=
  isListed place ∧ match d.node? place with
    | some (.file text) => IsBroken (some text)
    | _ => False

instance (d : Disk) (place : Place) : Decidable (d.IsBrokenAt place) := by
  unfold IsBrokenAt
  refine @instDecidableAnd _ _ inferInstance ?_
  split <;> infer_instance

theorem isBrokenAt_iff : d.IsBrokenAt place ↔
    isListed place ∧ ∃ text, d.node? place = some (.file text) ∧ IsBroken (some text) := by
  unfold IsBrokenAt
  split
  · next text hnode => simp [hnode]
  · next hother => exact ⟨fun h => h.2.elim, fun ⟨_, text, hnode, _⟩ => (hother text hnode).elim⟩

structure OnlyBroken (d : Disk) (places : List Place) : Prop where
  names : d.ProperNames
  broken : ∀ place ∈ places, d.IsBrokenAt place

instance (d : Disk) (places : List Place) : Decidable (d.OnlyBroken places) :=
  decidable_of_iff (d.ProperNames ∧ ∀ place ∈ places, d.IsBrokenAt place)
    ⟨fun h => ⟨h.1, h.2⟩, fun h => ⟨h.names, h.broken⟩⟩

namespace OnlyBroken

variable (h : d.OnlyBroken places)

include h

theorem leavesFolders : d.LeavesFolders places := by
  intro place hplace hfolder
  obtain ⟨-, text, hnode, -⟩ := isBrokenAt_iff.1 (h.broken place hplace)
  rw [hfolder] at hnode
  cases hnode

theorem not_mem (hlisted : isListed place = false) : place ∉ places := by
  intro hplace
  have hbroken := (isBrokenAt_iff.1 (h.broken place hplace)).1
  rw [hlisted] at hbroken
  cases hbroken

theorem isBroken {source : String × Option String} (hsource : source ∈ d.sources working folder)
    (hreadable : source.2 ≠ none) (hplace : placeOf working source.1 ∈ places) : IsBroken source.2 := by
  obtain ⟨path, content⟩ := source
  cases content with
  | none => exact absurd rfl hreadable
  | some content =>
    obtain ⟨-, text, hnode, hbroken⟩ := isBrokenAt_iff.1 (h.broken _ hplace)
    rw [node?_of_mem_sources hsource] at hnode
    obtain rfl : content = text := by simpa using hnode
    exact hbroken

theorem told_once (hworking : Path.isAbsolute working) (hkeys : (d.entries.map Prod.fst).Nodup)
    {names : List String} {text : String} (hfolder : d.isFolder working folder)
    (hplace : placeOf working folder ++ names ∈ places)
    (hread : d.read working (listedPath working folder names) = .ok text) :
    (listedPath working folder names, some text) ∈ d.sources working folder ∧
      (d.sources working folder).countP
        (fun source => placeOf working source.1 = placeOf working folder ++ names) = 1 ∧
      IsSkipped (listedPath working folder names)
        (sourceLines (listedPath working folder names, some text)) := by
  obtain ⟨hlisted, broken, hnode, hbroken⟩ := isBrokenAt_iff.1 (h.broken _ hplace)
  have hentry := mem_entries_of_node? (h.leavesFolders.ne_root hplace) hnode
  have hpath : placeOf working (listedPath working folder names) = placeOf working folder ++ names :=
    placeOf_listedPath hworking folder fun name hname => h.names _ hentry name (List.mem_append_right _ hname)
  obtain rfl : broken = text := by
    obtain ⟨place, hlocate, hfile⟩ := read_eq_ok_iff.1 hread
    rw [locate_eq_ok hlocate, hpath, hnode] at hfile
    simpa using hfile
  have hne : names ≠ [] := by
    rintro rfl
    obtain ⟨place, hlocate, hnodeFolder⟩ := isFolder_iff.1 hfolder
    rw [locate_eq_ok hlocate] at hnodeFolder
    rw [List.append_nil, hnodeFolder] at hnode
    cases hnode
  have hmem := mem_sources h.names hfolder hentry (isListed_append _ hne ▸ hlisted) hread
  have honce := sources_once hkeys h.names hworking hmem
  rw [hpath] at honce
  have hskipped : IsSkipped (listedPath working folder names) _ :=
    IsBroken.isSkipped (show IsBroken (listedPath working folder names, some broken).2 from hbroken)
  exact ⟨hmem, honce, hskipped⟩

theorem runScript {s : Script Unit} (hs : s.Writes fun path => isListed (placeOf working path) = false) :
    (d.runScript working s).2.OnlyBroken places where
  names := h.names.runScript working s
  broken place hplace := by
    obtain ⟨hlisted, text, hnode, hbroken⟩ := isBrokenAt_iff.1 (h.broken place hplace)
    have hagree : Agree (fun place => isListed place = false) d (d.runScript working s).2 := agree_runScript hs
    have hkept := hagree.kept place (by simp [hlisted])
    exact isBrokenAt_iff.2 ⟨hlisted, text, hkept.trans hnode, hbroken⟩

end OnlyBroken

theorem clear_resultPath (hd : d.OnlyBroken places) (hworking : Path.isAbsolute working) {project : String}
    (hproject : Avoids working project (· ∈ places)) (k : Kind) :
    Clear working places (Path.beside (Path.join project sourceFolder) k.resultFile) := by
  have hsource : placeOf working project ++ [sourceFolder] ∉ places := hd.not_mem (by
    rw [isListed_concat]
    decide)
  have hresult : resultPlace working project k ∉ places := hd.not_mem (isListed_resultPlace ..)
  have hfolder : Avoids working (Path.join project sourceFolder) (· ∈ places) := by
    refine hproject.join hworking (by decide) fun place hvisits => ?_
    rcases hvisits.of_name isName_sourceFolder with rfl | rfl
    · exact hproject.placeOf
    · exact hsource
  have hback : placeOf working (Path.join (Path.join project sourceFolder) "..") = placeOf working project := by
    have hfolderPlace := placeOf_sourceFolder working project
    rw [placeOf] at hfolderPlace
    rw [placeOf, Path.resolve_join, hfolderPlace, Path.resolve_dots, List.dropLast_concat]
  have hup : Avoids working (Path.join (Path.join project sourceFolder) "..") (· ∈ places) := by
    refine hfolder.join hworking (by decide) fun place hvisits => ?_
    rcases hvisits.of_dots with rfl | rfl
    · exact hfolder.placeOf
    · rw [placeOf_sourceFolder, List.dropLast_concat]
      exact hproject.placeOf
  refine ⟨Avoids.normalize hworking (hup.join hworking (by cases k <;> decide) fun place hvisits => ?_),
    Path.getLast?_beside k.isName_resultFile⟩
  rw [hback] at hvisits
  rcases hvisits.of_name k.isName_resultFile with rfl | rfl
  · exact hproject.placeOf
  · exact hresult

theorem inputs_without (hd : d.OnlyBroken places) (hworking : Path.isAbsolute working)
    (hcache : o.cachePath = none) (hmodel : ∀ path ∈ o.modelPath, Avoids working path (· ∈ places))
    (folder : String) :
    (d.without places).inputs working o folder =
      { d.inputs working o folder with
        sources := (d.sources working folder).filter fun source => placeOf working source.1 ∉ places } := by
  have hread : o.modelPath.map ((d.without places).read working) = o.modelPath.map (d.read working) :=
    Option.map_congr fun path hpath => hd.leavesFolders.agree.extends.read_eq (hmodel path hpath)
  simp only [inputs, hread, hcache, hd.leavesFolders.sources_without hd.names hworking]
  rfl

section Continuing

variable (d working) (total number : Nat) (sources : List (String × Option String))
  (rest : List Code.SourceFile → Script Unit)

theorem runScript_reading :
    d.runScript working (parseSources total number sources >>= rest) =
      d.runScript working (Script.ofExcept (parsedFiles sources) >>= rest) := by
  obtain ⟨lines, hsteps, -⟩ := steps_parseSources total number sources
  have hsilent : ∀ path text, .write path text ∉ lines.map Step.tell := by simp
  rw [parseSources_bind, hsteps, runScript, runScript, perform_silent_append hsilent]

theorem heard_reading : ∃ lines : List Message,
    d.heard working (parseSources total number sources >>= rest).steps =
      lines ++ d.heard working (Script.ofExcept (parsedFiles sources) >>= rest).steps ∧
    lines.map Message.unnumbered = ((upToFatal sources).flatMap sourceLines).map Message.unnumbered := by
  obtain ⟨lines, hsteps, hlines⟩ := steps_parseSources total number sources
  exact ⟨lines, by rw [parseSources_bind, hsteps, heard_tells], hlines⟩

end Continuing

/-- Without broken files a computation on source files does and tells the same behind reading them. -/
theorem reading_without (hd : d.LeavesFolders places) {sources : List (String × Option String)}
    (hbroken : ∀ source ∈ sources, placeOf working source.1 ∈ places → IsBroken source.2)
    {rest : List Code.SourceFile → Script Unit} {whole part : Script Unit}
    (hwhole : whole = parseSources sources.length 1 sources >>= rest)
    (hpart : part =
      let left := sources.filter fun source => placeOf working source.1 ∉ places
      parseSources left.length 1 left >>= rest)
    (hwrites : whole.Writes (Clear working places)) :
    (d.without places).runScript working part =
        ((d.runScript working whole).1, (d.runScript working whole).2.without places) ∧
      Omits working places (upToFatal sources) (d.heard working whole.steps)
        ((d.without places).heard working part.steps) := by
  subst hwhole hpart
  have hparsed : parsedFiles (sources.filter fun source => placeOf working source.1 ∉ places) =
      parsedFiles sources :=
    parsedFiles_filter fun source hsource hplace => hbroken source hsource (by simpa using hplace)
  have hrest : (Script.ofExcept (parsedFiles sources) >>= rest).Writes (Clear working places) := by
    intro path text hstep
    refine hwrites path text ?_
    rw [parseSources_bind]
    exact List.mem_append_right _ hstep
  obtain ⟨lines, hheard, hlines⟩ := heard_reading d working sources.length 1 sources rest
  obtain ⟨lines', hheard', hlines'⟩ := heard_reading (d.without places) working _ 1
    (sources.filter fun source => placeOf working source.1 ∉ places) rest
  constructor
  · rw [runScript_reading, runScript_reading, hparsed, runScript_without hd hrest]
  · rw [hheard, hheard', hparsed, heard_without hd hrest]
    have homits := (Omits.readings working places hbroken hlines hlines').append
      (.lines working places (d.heard working (Script.ofExcept (parsedFiles sources) >>= rest).steps))
    rwa [List.append_nil] at homits

/-- An analysis that has been begun, and the source files that it comes to. -/
structure Begun where
  job : Job
  files : List (String × Option String)
  deriving DecidableEq, Repr

def sourcesOf (d : Disk) (working : String) (job : Job) : List (String × Option String) :=
  d.sources working (Path.join job.2 sourceFolder)

def begin (d : Disk) (working : String) (o : Options) (job : Job) : Begun where
  job := job
  files := (d.inputs working o (Path.join job.2 sourceFolder)).filesRead job.1

def CanRead (d : Disk) (working : String) (places : List Place) (begun : List Begun) : Prop :=
  ∀ b ∈ begun, ∀ source ∈ d.sourcesOf working b.job, placeOf working source.1 ∈ places → source.2 ≠ none

instance (d : Disk) (working : String) (places : List Place) (begun : List Begun) :
    Decidable (d.CanRead working places begun) := by
  unfold CanRead
  infer_instance

/-- A part of a run, with what it tells and the analyses that it begins, is not disturbed by broken files at
these places. -/
structure Undisturbed (working : String) (places : List Place) (run : Disk → Except Failure Unit × Disk)
    (told : Disk → List Message) (begun : Disk → List Begun) (d : Disk) : Prop where
  ends : run (d.without places) = ((run d).1, (run d).2.without places)
  omits : Omits working places ((begun d).flatMap (·.files)) (told d) (told (d.without places))
  broken : (run d).2.OnlyBroken places
  sources : ∀ folder, (run d).2.sources working folder = d.sources working folder
  reached : ∀ b ∈ begun d, b.files = upToFatal (d.sourcesOf working b.job) ∨
    b.files = [] ∧ b.job.1 = .perVariable
  complete : (run d).1 = .ok () → ∀ b ∈ begun d, b.files = d.sourcesOf working b.job

section OneJob

variable (hd : d.OnlyBroken places) (hworking : Path.isAbsolute working) (hcache : o.cachePath = none)
  {job : Job}

include hcache in
theorem writes_job (d : Disk) {P : String → Prop}
    (h : P (Path.beside (Path.join job.2 sourceFolder) job.1.resultFile)) :
    ((d.inputs working o (Path.join job.2 sourceFolder)).analyse o job.1).Writes P := by
  refine (Inputs.writes_analyse _ o job.1).mono fun path hpath => ?_
  rcases hpath with rfl | hcached
  · exact h
  · rw [hcache] at hcached
    cases hcached

include hd hworking hcache in
theorem job_without (hmodel : ∀ path ∈ o.modelPath, Avoids working path (· ∈ places))
    (hproject : Avoids working job.2 (· ∈ places))
    (hreadable : d.CanRead working places [d.begin working o job]) :
    let whole := (d.inputs working o (Path.join job.2 sourceFolder)).analyse o job.1
    let part := ((d.without places).inputs working o (Path.join job.2 sourceFolder)).analyse o job.1
    (d.without places).runScript working part =
        ((d.runScript working whole).1, (d.runScript working whole).2.without places) ∧
      Omits working places (d.begin working o job).files (d.heard working whole.steps)
        ((d.without places).heard working part.steps) := by
  intro whole part
  have hpart := congrArg (·.analyse o job.1)
    (inputs_without hd hworking hcache hmodel (Path.join job.2 sourceFolder))
  let i := d.inputs working o (Path.join job.2 sourceFolder)
  by_cases hvariables : job.1 = .perVariable ∧ i.readModel.result.isOk = false
  · obtain ⟨e, herror⟩ := exists_error_of_isOk_eq_false hvariables.2
    have hfails : ∀ sources, ({ i with sources := sources } : Inputs).analyse o job.1 = Script.fail e :=
      fun sources => by
        rw [hvariables.1]
        exact Inputs.analyse_eq_fail (i := { i with sources := sources }) herror o
    rw [begin, Inputs.filesRead, if_pos hvariables, show whole = Script.fail e from hfails _,
      show part = Script.fail e from hpart.trans (hfails _)]
    exact ⟨rfl, .lines working places []⟩
  · obtain ⟨rest, hrest⟩ := Inputs.analyse_eq_reading (i := i) (by simp [i, inputs, hcache]) o job.1
      fun hk => by simpa [hk] using hvariables
    rw [begin, Inputs.filesRead, if_neg hvariables]
    have hbroken : ∀ source ∈ d.sourcesOf working job,
        placeOf working source.1 ∈ places → IsBroken source.2 := fun source hsource hplace =>
      hd.isBroken hsource (hreadable _ (List.mem_singleton_self _) source hsource hplace) hplace
    exact reading_without hd.leavesFolders hbroken (hrest _) (hpart.trans (hrest _))
      (writes_job hcache d (clear_resultPath hd hworking hproject job.1))

include hcache in
theorem files_of_ok (hok : (d.runJob working o job).1 = .ok ()) :
    (d.begin working o job).files = d.sourcesOf working job := by
  let i := d.inputs working o (Path.join job.2 sourceFolder)
  rw [runJob, analyse] at hok
  have hmodel : job.1 = .perVariable → i.readModel.result.isOk := by
    intro hk
    by_contra hnot
    obtain ⟨e, herror⟩ := exists_error_of_isOk_eq_false (Bool.not_eq_true _ ▸ hnot)
    rw [hk, Inputs.analyse_eq_fail herror] at hok
    cases hok
  obtain ⟨rest, hrest⟩ := Inputs.analyse_eq_reading (i := i) (by simp [i, inputs, hcache]) o job.1 hmodel
  rw [show i.analyse o job.1 = _ from hrest (d.sourcesOf working job), runScript_reading] at hok
  have hreads : ¬ (job.1 = .perVariable ∧ i.readModel.result.isOk = false) := by
    rintro ⟨hk, hnot⟩
    rw [hmodel hk] at hnot
    cases hnot
  rw [begin, Inputs.filesRead, if_neg hreads]
  cases hparsed : parsedFiles (d.sourcesOf working job) with
  | ok files => exact upToFatal_of_parsed hparsed
  | error e =>
    rw [hparsed] at hok
    cases hok

theorem files_begin (d : Disk) (working : String) (o : Options) (job : Job) :
    (d.begin working o job).files = upToFatal (d.sourcesOf working job) ∨
      (d.begin working o job).files = [] ∧ job.1 = .perVariable := by
  rw [begin, Inputs.filesRead]
  split
  · next hvariables => exact .inr ⟨rfl, hvariables.1⟩
  · exact .inl rfl

include hd hworking hcache in
theorem undisturbed_runJob (hmodel : ∀ path ∈ o.modelPath, Avoids working path (· ∈ places))
    (hproject : Avoids working job.2 (· ∈ places))
    (hreadable : d.CanRead working places [d.begin working o job]) :
    Undisturbed working places (fun d => d.runJob working o job) (fun d => d.toldByJob working o job)
      (fun d => [d.begin working o job]) d := by
  obtain ⟨hends, homits⟩ := job_without hd hworking hcache hmodel hproject hreadable
  have hresult : isListed (placeOf working
      (Path.beside (Path.join job.2 sourceFolder) job.1.resultFile)) = false := by
    rw [placeOf, Path.resolve_beside _ _ job.1.isName_resultFile, ← placeOf, placeOf_sourceFolder,
      List.dropLast_concat]
    exact isListed_resultPlace working job.2 job.1
  have hwrites : ((d.inputs working o (Path.join job.2 sourceFolder)).analyse o job.1).Writes fun path =>
      isListed (placeOf working path) = false := writes_job hcache d hresult
  refine ⟨hends, ?_, hd.runScript hwrites, sources_runScript hd.names hworking hwrites,
    List.forall_mem_singleton.2 (files_begin d working o job),
    fun hok => List.forall_mem_singleton.2 (files_of_ok hcache hok)⟩
  simp only [List.flatMap_cons, List.flatMap_nil, toldByJob]
  have hstart := Omits.lines working places
    [Message.starting (Setting.label job.1) (Path.baseName (Path.normalize job.2))]
  have hfinish := Omits.lines working places
    [Message.finished (Setting.label job.1) (Path.baseName (Path.normalize job.2))]
  exact hstart.append (homits.append hfinish)

end OneJob

/-- The analyses that are begun, the last of which may fail. -/
def begunByJobs (d : Disk) (working : String) (o : Options) : List Job → List Begun
  | [] => []
  | job :: jobs =>
    [d.begin working o job] ++ behind (·.runJob working o job) (·.begunByJobs working o jobs) d

def begunByList (d : Disk) (working : String) (o : Options) (list : String) (k : Kind) : List Begun :=
  match d.read working list with
  | .error _ => []
  | .ok text => d.begunByJobs working o ((d.projectsIn working text).map fun project => (k, project))

def begunByKinds (d : Disk) (working : String) (o : Options) (list : String) : List Kind → List Begun
  | [] => []
  | k :: kinds =>
    d.begunByList working o list k ++
      behind (·.runList working o list k) (·.begunByKinds working o list kinds) d

theorem undisturbed_nothing (hd : d.OnlyBroken places) :
    Undisturbed working places (fun d => (.ok (), d)) (fun _ => []) (fun _ => []) d :=
  ⟨rfl, .lines working places [], hd, fun _ => rfl, by simp, by simp⟩

section Sequence

variable {run later : Disk → Except Failure Unit × Disk} {told toldLater : Disk → List Message}
  {begun begunLater : Disk → List Begun} {d' : Disk}

theorem Undisturbed.stopped (h : Undisturbed working places run told begun d) {e : Failure}
    (hrun : run d = (.error e, d')) :
    Undisturbed working places (Disk.andThen run later) (fun d => told d ++ behind run toldLater d)
      (fun d => begun d ++ behind run begunLater d) d := by
  have hends := h.ends
  rw [hrun] at hends
  have hboth : Disk.andThen run later d = (.error e, d') := by rw [Disk.andThen, hrun]
  refine ⟨?_, ?_, ?_, ?_, ?_, fun hok => ?_⟩
  · rw [hboth, Disk.andThen, hends]
  · simpa only [behind, hrun, hends, List.append_nil] using h.omits
  · simpa only [hboth, hrun] using h.broken
  · simpa only [hboth, hrun] using h.sources
  · simpa only [behind, hrun, List.append_nil] using h.reached
  · rw [hboth] at hok
    cases hok

theorem Undisturbed.continued (h : Undisturbed working places run told begun d)
    (hrun : run d = (.ok (), d')) (hnext : Undisturbed working places later toldLater begunLater d') :
    Undisturbed working places (Disk.andThen run later) (fun d => told d ++ behind run toldLater d)
      (fun d => begun d ++ behind run begunLater d) d := by
  have hends := h.ends
  have hsources := h.sources
  have hcomplete := h.complete
  simp only [hrun, forall_const] at hends hsources hcomplete
  have hsame : ∀ job, d'.sourcesOf working job = d.sourcesOf working job := fun job => hsources _
  have hboth : Disk.andThen run later d = later d' := by rw [Disk.andThen, hrun]
  have hbehind : behind run begunLater d = begunLater d' := by rw [behind, hrun]
  refine ⟨?_, ?_, hboth ▸ hnext.broken, fun folder => ?_, fun b hb => ?_, fun hok b hb => ?_⟩
  · rw [hboth, Disk.andThen, hends]
    exact hnext.ends
  · have homits := h.omits.append hnext.omits
    rw [← List.flatMap_append] at homits
    simpa only [behind, hrun, hends] using homits
  · rw [hboth, hnext.sources, hsources]
  · rw [hbehind] at hb
    rcases List.mem_append.1 hb with hfirst | hsecond
    · exact h.reached b hfirst
    · exact hsame b.job ▸ hnext.reached b hsecond
  · rw [hboth] at hok
    rw [hbehind] at hb
    rcases List.mem_append.1 hb with hfirst | hsecond
    · exact hcomplete b hfirst
    · exact hsame b.job ▸ hnext.complete hok b hsecond

theorem Undisturbed.andThen (h : Undisturbed working places run told begun d)
    (hreadable : d.CanRead working places (begun d ++ behind run begunLater d))
    (hlater : ∀ d, d.OnlyBroken places → d.CanRead working places (begunLater d) →
      Undisturbed working places later toldLater begunLater d) :
    Undisturbed working places (Disk.andThen run later) (fun d => told d ++ behind run toldLater d)
      (fun d => begun d ++ behind run begunLater d) d := by
  rcases hrun : run d with ⟨result, d'⟩
  cases result with
  | error e => exact h.stopped hrun
  | ok u =>
    have hbroken := h.broken
    have hsources := h.sources
    rw [hrun] at hbroken hsources
    refine h.continued hrun (hlater d' hbroken fun b hb => ?_)
    rw [show d'.sourcesOf working b.job = d.sourcesOf working b.job from hsources _]
    refine hreadable b (List.mem_append_right _ ?_)
    rw [behind, hrun]
    exact hb

end Sequence

variable (hworking : Path.isAbsolute working) (hcache : o.cachePath = none)
  (hmodel : ∀ path ∈ o.modelPath, Avoids working path (· ∈ places))

include hworking hcache hmodel

theorem undisturbed_runJobs (hd : d.OnlyBroken places) {jobs : List Job}
    (hprojects : ∀ job ∈ jobs, Avoids working job.2 (· ∈ places))
    (hreadable : d.CanRead working places (d.begunByJobs working o jobs)) :
    Undisturbed working places (·.runJobs working o jobs) (·.toldByJobs working o jobs)
      (·.begunByJobs working o jobs) d := by
  induction jobs generalizing d with
  | nil => exact undisturbed_nothing hd
  | cons job jobs ih =>
    obtain ⟨hproject, hrest⟩ := List.forall_mem_cons.1 hprojects
    have hfirst : d.CanRead working places [d.begin working o job] := fun b hb =>
      hreadable b (List.mem_append_left _ hb)
    exact (undisturbed_runJob hd hworking hcache hmodel hproject hfirst).andThen hreadable
      fun d hd hreadable => ih hd hrest hreadable

omit hcache hmodel in
theorem avoids_project (hd : d.OnlyBroken places) {text project : String}
    (hproject : project ∈ d.projectsIn working text) : Avoids working project (· ∈ places) := by
  obtain ⟨line, hline, rfl⟩ := List.mem_map.1 hproject
  obtain ⟨place, hlocate, hnode⟩ := isFolder_iff.1 (List.mem_filter.1 hline).2
  have hplace : place ∉ places := fun hmem => hd.leavesFolders place hmem hnode
  exact (avoids_of_locate hlocate hplace hd.leavesFolders).normalize hworking

theorem undisturbed_runList (hd : d.OnlyBroken places) {list : String}
    (hlist : Avoids working list (· ∈ places)) (k : Kind)
    (hreadable : d.CanRead working places (d.begunByList working o list k)) :
    Undisturbed working places (·.runList working o list k) (·.toldByList working o list k)
      (·.begunByList working o list k) d := by
  have hfolders := hd.leavesFolders.agree.folders
  have hread := hd.leavesFolders.agree.extends.read_eq hlist
  cases htext : d.read working list with
  | error e =>
    rw [htext] at hread
    constructor <;> simp only [runList, toldByList, begunByList, htext, hread]
    · exact .lines working places []
    · exact hd
    · exact fun _ => trivial
    · simp
    · intro hok
      cases hok
  | ok text =>
    rw [htext] at hread
    have hprojects := hfolders.projectsIn_eq working text
    have hskipped : (d.without places).skippedLines working text = d.skippedLines working text := by
      simp only [skippedLines, hfolders.isFolder_eq]
    have havoids : ∀ job ∈ (d.projectsIn working text).map fun project => (k, project),
        Avoids working job.2 (· ∈ places) := fun job hjob => by
      obtain ⟨project, hproject, rfl⟩ := List.mem_map.1 hjob
      exact avoids_project hworking hd hproject
    rw [begunByList, htext] at hreadable
    have hjobs := undisturbed_runJobs hworking hcache hmodel hd havoids hreadable
    constructor <;> simp only [runList, toldByList, begunByList, htext, hread, ← hprojects, hskipped]
    · exact hjobs.ends
    · have homits := (Omits.lines working places (d.skippedLines working text)).append hjobs.omits
      rwa [List.nil_append] at homits
    · exact hjobs.broken
    · exact hjobs.sources
    · exact hjobs.reached
    · exact hjobs.complete

theorem undisturbed_runKinds (hd : d.OnlyBroken places) {list : String}
    (hlist : Avoids working list (· ∈ places)) (kinds : List Kind)
    (hreadable : d.CanRead working places (d.begunByKinds working o list kinds)) :
    Undisturbed working places (·.runKinds working o list kinds) (·.toldByKinds working o list kinds)
      (·.begunByKinds working o list kinds) d := by
  induction kinds generalizing d with
  | nil => exact undisturbed_nothing hd
  | cons k kinds ih =>
    have hfirst : d.CanRead working places (d.begunByList working o list k) := fun b hb =>
      hreadable b (List.mem_append_left _ hb)
    exact (undisturbed_runList hworking hcache hmodel hd hlist k hfirst).andThen hreadable
      fun d hd hreadable => ih hd hreadable

end Disk

def Session.without (s : Session) (places : List Place) : Session :=
  { s with disk := s.disk.without places }

section Command

variable [ParserStack]

def Session.begun (s : Session) (o : Options) (kinds : List Kind) : List Disk.Begun :=
  s.disk.begunByKinds s.working o (Path.absolute s.working o.list) kinds

theorem Session.begun_single {s : Session} {o : Options} {project : String} (k : Kind)
    (h : s.disk.projects s.working o.list = [project]) :
    s.begun o [k] = [s.disk.begin s.working o (k, project)] := by
  unfold Disk.projects at h
  split at h
  · cases h
  · split at h
    · cases h
    · next text hread =>
      simp only [Session.begun, Disk.begunByKinds, Disk.begunByList, hread, h, List.map_cons, List.map_nil,
        Disk.begunByJobs, Disk.behind_nil, List.append_nil]

/-- What a command without a single file does and tells with and without broken files. -/
theorem undisturbed_command {s : Session} {o : Options} {kinds : List Kind} {places : List Place}
    (hworking : Path.isAbsolute s.working) (hsingle : o.single = none) (hcache : o.cachePath = none)
    (hkinds : o.kinds = kinds.map .value) (hsome : s.disk.projects s.working o.list ≠ [])
    (hbroken : s.disk.OnlyBroken places) (hlist : placeOf s.working o.list ∉ places)
    (hmodel : ∀ path ∈ o.modelPath, Disk.Avoids s.working path (· ∈ places))
    (hreadable : s.disk.CanRead s.working places (s.begun o kinds)) :
    ((s.without places).command o).1 = (s.command o).1 ∧
      ((s.without places).command o).2.disk = (s.command o).2.disk.without places ∧
      (∃ whole part, (s.command o).2.log = s.log ++ whole ∧
        ((s.without places).command o).2.log = s.log ++ part ∧
        Omits s.working places ((s.begun o kinds).flatMap (·.files)) whole part) ∧
      (∀ b ∈ s.begun o kinds, b.files = upToFatal (s.disk.sourcesOf s.working b.job) ∨
        b.files = [] ∧ b.job.1 = .perVariable) ∧
      ((s.command o).1 = .exit 0 → ∀ b ∈ s.begun o kinds, b.files = s.disk.sourcesOf s.working b.job) := by
  obtain ⟨hempty, text, hread, -⟩ := Disk.file_of_projects hworking hsome
  have hagree := hbroken.leavesFolders.agree
  have havoids : Disk.Avoids s.working (Path.absolute s.working o.list) (· ∈ places) := by
    obtain ⟨place, hlocate, -⟩ := Disk.read_eq_ok_iff.1 hread
    refine Disk.avoids_of_locate hlocate ?_ hbroken.leavesFolders
    rw [Disk.locate_eq_ok hlocate, placeOf_absolute hworking]
    exact hlist
  have hfile := Disk.isFile_iff_read.2 ⟨text, hread⟩
  have hfile' := (hagree.extends.isFile_eq havoids).trans hfile
  have hrun := Disk.undisturbed_runKinds hworking hcache hmodel hbroken havoids kinds hreadable
  obtain ⟨hend, -, hdisk⟩ := ends_run_list hsingle hempty hfile hkinds s rfl rfl
  obtain ⟨hend', -, hdisk'⟩ := ends_run_list hsingle hempty hfile' hkinds (s.without places) rfl rfl
  have htold := tells_run_list hsingle hempty hfile hkinds s rfl rfl
  have htold' := tells_run_list hsingle hempty hfile' hkinds (s.without places) rfl rfl
  have hends : (s.disk.without places).runKinds s.working o (Path.absolute s.working o.list) kinds = _ :=
    hrun.ends
  refine ⟨?_, ?_, ⟨_, _, htold, htold', ?_⟩, hrun.reached, fun hok => hrun.complete ?_⟩
  · exact hend'.trans ((congrArg (Ending.of ·.1) hends).trans hend.symm)
  · exact hdisk'.trans ((congrArg Prod.snd hends).trans (congrArg (·.without places) hdisk.symm))
  · rw [hends, ← List.append_nil (List.flatMap _ _)]
    exact hrun.omits.append (.lines s.working places _)
  · exact Ending.of_eq_exit_zero.1 (hend.symm.trans hok)

/-- Broken source files in the projects of a command do not disturb the rest. Without them the command ends
the same and leaves the same results. What it tells is made of the same passages but for those about the
broken files, which have their place among the source files that the command comes to; if it succeeds, it
comes to all of them. Each broken file is one of these once for each analysis of its project, and the lines
about it are one error behind messages about its conditions. -/
theorem command_without_broken {s : Session} {o : Options} {kinds : List Kind} {places : List Place}
    (hworking : Path.isAbsolute s.working) (hsingle : o.single = none) (hcache : o.cachePath = none)
    (hkinds : o.kinds = kinds.map .value) (hsome : s.disk.projects s.working o.list ≠ [])
    (hkeys : (s.disk.entries.map Prod.fst).Nodup) (hbroken : s.disk.OnlyBroken places)
    (hlist : placeOf s.working o.list ∉ places)
    (hmodel : ∀ path ∈ o.modelPath, Disk.Avoids s.working path (· ∈ places))
    (hreadable : s.disk.CanRead s.working places (s.begun o kinds)) :
    let whole := s.command o
    let part := (s.without places).command o
    part.1 = whole.1 ∧ part.2.disk = whole.2.disk.without places ∧
      (∀ project k, part.2.disk.node? (resultPlace s.working project k) =
        whole.2.disk.node? (resultPlace s.working project k)) ∧
      (∃ told told', whole.2.log = s.log ++ told ∧ part.2.log = s.log ++ told' ∧
        Omits s.working places ((s.begun o kinds).flatMap (·.files)) told told') ∧
      (∀ b ∈ s.begun o kinds, b.files = upToFatal (s.disk.sourcesOf s.working b.job) ∨
        b.files = [] ∧ b.job.1 = .perVariable) ∧
      (whole.1 = .exit 0 → ∀ b ∈ s.begun o kinds, b.files = s.disk.sourcesOf s.working b.job) ∧
      ∀ project names text,
        let folder := Path.join project sourceFolder
        let path := Disk.listedPath s.working folder names
        s.disk.isFolder s.working folder → placeOf s.working folder ++ names ∈ places →
          s.disk.read s.working path = .ok text →
          (path, some text) ∈ s.disk.sources s.working folder ∧
            (s.disk.sources s.working folder).countP
              (fun source => placeOf s.working source.1 = placeOf s.working folder ++ names) = 1 ∧
            IsSkipped path (sourceLines (path, some text)) := by
  intro whole part
  obtain ⟨hend, hdisk, htold, hreached, hcomplete⟩ :=
    undisturbed_command hworking hsingle hcache hkinds hsome hbroken hlist hmodel hreadable
  refine ⟨hend, hdisk, fun project k => ?_, htold, hreached, hcomplete, fun project names text => ?_⟩
  · rw [show part.2.disk = _ from hdisk]
    exact Disk.node?_without (hbroken.not_mem (Disk.isListed_resultPlace s.working project k))
  · exact hbroken.told_once hworking hkeys

end Command

def projectFolder : Place := ["r", "p", sourceFolder]

def projectSession (sources : List (String × String)) : Session where
  disk := {
    entries := [(["r"], .folder), (["r", "list"], .file "p\n"), (["r", "p"], .folder),
        (projectFolder, .folder), (projectFolder ++ ["sub"], .folder)] ++
      sources.map fun (name, text) => (projectFolder ++ Path.parts name, .file text) }
  working := "/r"
  temporary := "/tmp"

def mixedSession : Session := projectSession [
  ("a.c.xml", "<unit xmlns=\"http://www.srcML.org/srcML/cpp\">" ++
    "<ifdef>#<directive>ifdef</directive> <name>A</name></ifdef><endif/></unit>"),
  ("b.c.xml", ""),
  ("sub/c.c.xml", "<unit xmlns=\"http://www.srcML.org/srcML/cpp\">" ++
    "<if>#<directive>if</directive> <expr>(</expr></if></unit>")]

def mixedPlaces : List Place := [projectFolder ++ ["b.c.xml"], projectFolder ++ ["sub", "c.c.xml"]]

theorem command_without_broken_mixed :
    let o : Options := { kind := .value .perFunction, list := "list" }
    let whole := mixedSession.command o
    let part := (mixedSession.without mixedPlaces).command o
    part.1 = whole.1 ∧
      (∀ k : Kind, part.2.disk.node? ["r", "p", k.resultFile] = whole.2.disk.node? ["r", "p", k.resultFile]) ∧
      Omits "/r" mixedPlaces (upToFatal (mixedSession.disk.sources "/r" "p/_cppmetrics")) whole.2.log
        part.2.log ∧
      ("/r/p/_cppmetrics/b.c.xml", some "") ∈ mixedSession.disk.sources "/r" "p/_cppmetrics" ∧
      IsSkipped "/r/p/_cppmetrics/b.c.xml" (sourceLines ("/r/p/_cppmetrics/b.c.xml", some "")) := by
  intro o whole part
  have hkinds : o.kinds = [Kind.perFunction].map .value := rfl
  have hprojects : mixedSession.disk.projects mixedSession.working o.list = ["p"] := by decide +kernel
  have hbegun := Session.begun_single .perFunction hprojects
  have hfolder : Path.join "p" sourceFolder = "p/_cppmetrics" := by decide +kernel
  have hsources : mixedSession.disk.sourcesOf mixedSession.working (.perFunction, "p") =
      mixedSession.disk.sources "/r" "p/_cppmetrics" := by
    rw [Disk.sourcesOf, hfolder]
    rfl
  have hreadable : ∀ e ∈ mixedSession.disk.entries,
      ∀ names ∈ Disk.fileBelow? (placeOf "/r" "p/_cppmetrics") e,
        ∀ source ∈ mixedSession.disk.readListed "/r" "p/_cppmetrics" names, source.2 ≠ none := by
    decide +kernel
  have hcanRead : mixedSession.disk.CanRead mixedSession.working mixedPlaces
      (mixedSession.begun o [.perFunction]) := by
    rw [hbegun]
    refine List.forall_mem_singleton.2 fun source hsource _ => ?_
    rw [show (mixedSession.disk.begin mixedSession.working o (.perFunction, "p")).job = (.perFunction, "p")
      from rfl, hsources] at hsource
    obtain ⟨-, e, he, names, hnames, -, hread⟩ := Disk.mem_sources_iff.1 hsource
    exact hreadable e he names hnames source hread
  obtain ⟨hend, -, hresults, ⟨told, told', htold, htold', homits⟩, -, -, hfiles⟩ :=
    command_without_broken (s := mixedSession) (o := o) (by decide) rfl (by decide) hkinds
      (by decide +kernel) (by decide +kernel) (by decide +kernel) (by decide +kernel)
      (fun path hpath => nomatch hpath) hcanRead
  obtain ⟨hsource, -, hskipped⟩ :=
    hfiles "p" ["b.c.xml"] "" (by decide +kernel) (by decide +kernel) (by decide +kernel)
  have hpath : Disk.listedPath mixedSession.working (Path.join "p" sourceFolder) ["b.c.xml"] =
      "/r/p/_cppmetrics/b.c.xml" := by decide +kernel
  have hlog : mixedSession.log = [] := rfl
  rw [hpath] at hsource hskipped
  rw [hlog, List.nil_append] at htold htold'
  rw [← htold, ← htold', hbegun, List.flatMap_singleton] at homits
  exact ⟨hend, fun k => hresults "p" k, homits, hsource, hskipped⟩

/-- An analysis without its model stops before it comes to a broken file, and a broken file can be the model
or the list of a command. -/
theorem broken_disturbing :
    let stopping : Options := { kind := .value .perVariable, list := "list", model := .value (some "m.csv") }
    let modelled : Options :=
      { kind := .value .perFunction, list := "list", model := .value (some "p/_cppmetrics/b.xml") }
    let listed : Options := { kind := .value .perFunction, list := "p/_cppmetrics/b.xml" }
    let places := [projectFolder ++ ["b.xml"]]
    let s := projectSession [("b.xml", "Name;Type\nA;bool\n")]
    let t := projectSession [("b.xml", "p\n")]
    s.disk.OnlyBroken places ∧ t.disk.OnlyBroken places ∧
      (s.command stopping).2.log = ((s.without places).command stopping).2.log ∧
      (s.command modelled).1 = .exit 0 ∧
      ((s.without places).command modelled).1 = .failure (.file .missing) ∧
      (t.command listed).1 = .exit 0 ∧ ((t.without places).command listed).1 = .exit 1 := by
  decide +kernel

end Variability
