import Variability.Proofs.Analysis.Jobs

/-!
Projects of one list. If no project contains another and the files in common lie outside, the only
thing that passes from one project to another is the cache.
-/

set_option autoImplicit false

namespace Variability

/-- No project contains another, and the files lie outside all of them. -/
structure Apart (working : String) (projects files : List String) : Prop where
  disjoint : projects.Pairwise fun p q =>
    ¬ placeOf working p <+: placeOf working q ∧ ¬ placeOf working q <+: placeOf working p
  outside : ∀ p ∈ projects, ∀ path ∈ files, ¬ placeOf working p <+: placeOf working path

instance (working : String) (projects files : List String) :
    Decidable (Apart working projects files) :=
  decidable_of_iff
    ((projects.Pairwise fun p q =>
      ¬ placeOf working p <+: placeOf working q ∧ ¬ placeOf working q <+: placeOf working p) ∧
      ∀ p ∈ projects, ∀ path ∈ files, ¬ placeOf working p <+: placeOf working path)
    ⟨fun h => ⟨h.1, h.2⟩, fun h => ⟨h.disjoint, h.outside⟩⟩

namespace Apart

variable {working : String} {projects files : List String}

theorem eq_of_within (h : Apart working projects files) {p q : String} (hp : p ∈ projects)
    (hq : q ∈ projects) (hwithin : placeOf working p <+: placeOf working q) : p = q := by
  by_contra hne
  have hsymm : Std.Symm fun p q => ¬ placeOf working p <+: placeOf working q ∧
      ¬ placeOf working q <+: placeOf working p := ⟨fun _ _ => And.symm⟩
  exact (h.disjoint.forall hp hq hne).1 hwithin

theorem nodup (h : Apart working projects files) : projects.Nodup :=
  h.disjoint.imp fun hpq => by
    rintro rfl
    exact hpq.1 List.prefix_rfl

theorem job_eq (h : Apart working projects files) {p q : String} {j k : Kind} (hp : p ∈ projects)
    (hq : q ∈ projects) (hplace : resultPlace working p j = resultPlace working q k) :
    (j, p) = (k, q) := by
  obtain ⟨hprojects, hresults⟩ := List.append_inj' hplace rfl
  have hpq := h.eq_of_within hp hq (hprojects ▸ List.prefix_rfl)
  rw [hpq, Kind.resultFile_injective (List.cons.inj hresults).1]

theorem mono (h : Apart working projects files) {fewer : List String} (hfewer : fewer ⊆ files) :
    Apart working projects fewer :=
  ⟨h.disjoint, fun p hp path hpath => h.outside p hp path (hfewer hpath)⟩

theorem not_within_sources (h : Apart working projects files) {p q : String} {k : Kind}
    (hp : p ∈ projects) (hq : q ∈ projects) :
    ¬ placeOf working p ++ [sourceFolder] <+: resultPlace working q k := by
  intro hwithin
  obtain rfl := h.eq_of_within hp hq ((List.prefix_append _ _).trans (project_within hwithin))
  exact result_not_source working p k hwithin

end Apart

/-- The command with the kind and the list that are given. -/
def Options.only (o : Options) (k : Kind) (list : String) : Options :=
  { o with kind := .value k, allKinds := false, list := list }

namespace Disk

variable {d d' : Disk} {working : String} {o : Options}

theorem exists_withCache {written : Place → Prop} (h : Agree written d d')
    (habsent : ∀ cache ∈ o.cachePath, d.node? (placeOf working cache) = none) :
    ∃ e, Agree (o.CachePlace working) d e ∧
      ∀ cache ∈ o.cachePath, e.node? (placeOf working cache) = d'.node? (placeOf working cache) := by
  cases hpath : o.cachePath with
  | none => exact ⟨d, .refl _ _, by simp⟩
  | some cache =>
    have hnone := habsent cache hpath
    cases hnode : d'.node? (placeOf working cache) with
    | none => exact ⟨d, .refl _ _, by simp [hnone, hnode]⟩
    | some node =>
      cases node with
      | folder => simp [(h.folders _).2 hnode] at hnone
      | file text =>
        have hroot : placeOf working cache ≠ [] := by
          intro hroot
          simp [hroot, node?] at hnone
        refine ⟨d.put (placeOf working cache) (.file text),
          agree_put hroot (by simp [hnone]) ⟨cache, hpath, rfl⟩, ?_⟩
        simp [node?_put_self d hroot, hnode]

theorem Agree.inputs_eq {written : Place → Prop} (h : Agree written d d') (hnames : d.ProperNames)
    (hworking : Path.isAbsolute working) (folder : String)
    (hfolder : ∀ place, written place → ¬ placeOf working folder <+: place)
    (hmodel : ∀ path ∈ o.modelPath, ¬ written (placeOf working path) ∧
      ∃ text, d.read working path = .ok text) :
    d'.inputs working o folder =
      { d.inputs working o folder with cache := (d'.inputs working o folder).cache } := by
  simp only [inputs, h.sources_eq hnames hworking hfolder, h.model_eq hmodel]

section Jobs

variable {projects : List String} {kinds : List Kind} {k : Kind} {project : String}

theorem mem_jobsOf {job : Job} : job ∈ jobsOf kinds projects ↔ job.1 ∈ kinds ∧ job.2 ∈ projects :=
  List.mem_product

theorem nodup_jobsOf (hkinds : kinds.Nodup) (hprojects : projects.Nodup) :
    (jobsOf kinds projects).Nodup :=
  hkinds.product hprojects

theorem not_writtenBy (hapart : Apart working projects o.commonFiles) {jobs : List Job}
    (hjobs : ∀ job ∈ jobs, job.2 ∈ projects ∧ job ≠ (k, project)) (hproject : project ∈ projects) :
    ¬ WrittenBy working o jobs (resultPlace working project k) := by
  rintro ⟨job, hjob, hplace | ⟨cache, hcache, hplace⟩⟩
  · obtain ⟨hmem, hne⟩ := hjobs job hjob
    exact hne (hapart.job_eq hproject hmem hplace).symm
  · refine hapart.outside project hproject cache ?_ (hplace ▸ List.prefix_append _ _)
    simp [Options.commonFiles, Option.mem_def.1 hcache]

theorem not_writtenBy_list (hapart : Apart working projects o.commonFiles)
    (hcache : ¬ o.CachePlace working (placeOf working o.list)) :
    ¬ WrittenBy working o (jobsOf kinds projects) (placeOf working o.list) := by
  rintro ⟨job, hjob, hplace | hplace⟩
  · exact hapart.outside job.2 (mem_jobsOf.1 hjob).2 o.list List.mem_cons_self
      (hplace ▸ List.prefix_append _ _)
  · exact hcache hplace

theorem WrittenBy.not_source (hapart : Apart working projects o.commonFiles) {jobs : List Job}
    (hjobs : ∀ job ∈ jobs, job.2 ∈ projects) (hproject : project ∈ projects) {place : Place}
    (h : WrittenBy working o jobs place) :
    ¬ placeOf working (Path.join project sourceFolder) <+: place := by
  rw [placeOf_sourceFolder]
  obtain ⟨job, hjob, rfl | ⟨cache, hcache, rfl⟩⟩ := h
  · exact hapart.not_within_sources hproject (hjobs job hjob)
  · intro hwithin
    refine hapart.outside project hproject cache ?_ ((List.prefix_append _ _).trans hwithin)
    simp [Options.commonFiles, Option.mem_def.1 hcache]

variable [ParserStack]

theorem runJob_only (d : Disk) (working : String) (o : Options) (k : Kind) (list : String)
    (job : Job) : d.runJob working (o.only k list) job = d.runJob working o job := by
  obtain ⟨kind, project⟩ := job
  cases kind <;> rfl

/-- The jobs before one leave its result as it is, and so do those after it. -/
theorem runJobs_result (hapart : Apart working projects o.commonFiles) {before after : List Job}
    (hbefore : ∀ job ∈ before, job.2 ∈ projects ∧ job ≠ (k, project))
    (hafter : ∀ job ∈ after, job.2 ∈ projects ∧ job ≠ (k, project)) (hproject : project ∈ projects) :
    let run := d.runJobs working o (before ++ (k, project) :: after)
    let place := resultPlace working project k
    (run.1 ≠ .ok () ∧ run.2.node? place = d.node? place) ∨
      ∃ e, Agree (WrittenBy working o before) d e ∧ (before = [] → e = d) ∧
        run.2.node? place = (e.runJob working o (k, project)).2.node? place := by
  intro run place
  have hagree := agree_runJobs d working o before
  rcases hrun : d.runJobs working o before with ⟨result, e⟩
  rw [hrun] at hagree
  cases result with
  | error failure =>
    left
    simp only [run, runJobs_append_error hrun]
    exact ⟨by simp, hagree.kept place (not_writtenBy hapart hbefore hproject)⟩
  | ok u =>
    right
    refine ⟨e, hagree, ?_, ?_⟩
    · rintro rfl
      exact (congrArg Prod.snd hrun).symm
    · simp only [run, runJobs_append_ok hrun, runJobs]
      rcases hjob : e.runJob working o (k, project) with ⟨result, e'⟩
      cases result with
      | error failure => rfl
      | ok u =>
        exact (agree_runJobs e' working o after).kept place (not_writtenBy hapart hafter hproject)

theorem runJob_unreadable {path : String} {e : FileError} (hpath : o.modelPath = some path)
    (h : d.read working path = .error e) (job : Job) :
    (d.runJob working o job).2 = d ∧ (d.runJob working o job).1 ≠ .ok () := by
  have hfails : ((d.inputs working o (Path.join job.2 sourceFolder)).analyse o job.1).Fails :=
    Inputs.fails_analyse (e := e) (by simp [inputs, hpath, h]) o job.1
  rw [runJob, analyse, runScript_fails hfails]
  exact ⟨rfl, hfails.failed ()⟩

theorem runJobs_unreadable {path : String} {e : FileError} (hpath : o.modelPath = some path)
    (h : d.read working path = .error e) (jobs : List Job) :
    (d.runJobs working o jobs).2 = d := by
  cases jobs with
  | nil => rfl
  | cons job jobs =>
    obtain ⟨hdisk, hfailed⟩ := runJob_unreadable hpath h job
    rw [runJobs]
    split
    · next heq => rw [← hdisk, heq]
    · next heq => exact absurd (congrArg Prod.fst heq) hfailed

end Jobs

end Disk

theorem Options.kinds_eq {o : Options} {k : Kind} (h : o.allKinds ∨ o.kind = .value k) :
    ∃ kinds : List Kind, o.kinds = kinds.map .value ∧ kinds.Nodup ∧ k ∈ kinds ∧
      (o.allKinds = false → kinds = [k]) := by
  by_cases hall : o.allKinds
  · refine ⟨Setting.members, by simp [Options.kinds, hall], by decide, ?_, by simp [hall]⟩
    cases k <;> decide
  · have hk := h.resolve_left hall
    exact ⟨[k], by simp [Options.kinds, hall, hk], List.nodup_singleton k, List.mem_singleton_self k,
      fun _ => rfl⟩

theorem jobsOf_split {kinds : List Kind} {projects : List String} {k : Kind} {project : String}
    (hkinds : kinds.Nodup) (hprojects : projects.Nodup) (hk : k ∈ kinds) (hproject : project ∈ projects) :
    ∃ before after, jobsOf kinds projects = before ++ (k, project) :: after ∧
      (∀ job ∈ before ++ after, job.2 ∈ projects ∧ job ≠ (k, project)) ∧
      (kinds = [k] → projects.head? = some project → before = []) := by
  have hnodup := Disk.nodup_jobsOf hkinds hprojects
  have hmem : (k, project) ∈ jobsOf kinds projects := Disk.mem_jobsOf.2 ⟨hk, hproject⟩
  obtain ⟨before, after, hsplit⟩ := List.append_of_mem hmem
  rw [hsplit] at hnodup
  obtain ⟨hnot, -⟩ := List.nodup_cons.1 (List.perm_middle.nodup_iff.1 hnodup)
  refine ⟨before, after, hsplit, fun job hjob => ⟨?_, ?_⟩, fun hone hhead => ?_⟩
  · have hin : job ∈ jobsOf kinds projects := by
      rw [hsplit, List.perm_middle.mem_iff]
      exact List.mem_cons_of_mem _ hjob
    exact (Disk.mem_jobsOf.1 hin).2
  · rintro rfl
    exact hnot hjob
  · obtain ⟨rest, rfl⟩ := List.head?_eq_some_iff.1 hhead
    cases before with
    | nil => rfl
    | cons job before =>
      have hfirst : job = (k, project) := by
        have := congrArg List.head? hsplit
        simpa [hone, jobsOf] using this.symm
      exact absurd (hfirst ▸ List.mem_cons_self) hnot

section Result

variable {d e f : Disk} {working : String} {o : Options} {k : Kind} {project : String}
  {projects : List String}

theorem not_cachePlace_result (hapart : Apart working projects o.commonFiles)
    (hproject : project ∈ projects) : ¬ o.CachePlace working (resultPlace working project k) := by
  rintro ⟨cache, hcache, hplace⟩
  refine hapart.outside project hproject cache ?_ (hplace ▸ List.prefix_append _ _)
  simp [Options.commonFiles, Option.mem_def.1 hcache]

theorem not_cachePlace_source (hapart : Apart working projects o.commonFiles)
    (hproject : project ∈ projects) {place : Place} (hcache : o.CachePlace working place) :
    ¬ placeOf working (Path.join project sourceFolder) <+: place := by
  obtain ⟨cache, hpath, rfl⟩ := hcache
  rw [placeOf_sourceFolder]
  intro hwithin
  refine hapart.outside project hproject cache ?_ ((List.prefix_append _ _).trans hwithin)
  simp [Options.commonFiles, Option.mem_def.1 hpath]

theorem not_writtenBy_model (hapart : Apart working projects o.commonFiles) {jobs : List Job}
    (hjobs : ∀ job ∈ jobs, job.2 ∈ projects) {path : String} (hpath : path ∈ o.modelPath)
    (hcache : ¬ o.CachePlace working (placeOf working path)) :
    ¬ Disk.WrittenBy working o jobs (placeOf working path) := by
  rintro ⟨job, hjob, hplace | hplace⟩
  · refine hapart.outside job.2 (hjobs job hjob) path ?_ (hplace ▸ List.prefix_append _ _)
    simp [Options.commonFiles, Option.mem_def.1 hpath]
  · exact hcache hplace

variable [ParserStack]

/-- After other jobs a job leaves the result that it leaves on the disk from before, changed in the cache
only, if it does not read the cache or finds the same cache there. -/
theorem runJob_result_eq (hworking : Path.isAbsolute working) (hnames : d.ProperNames)
    (hapart : Apart working projects o.commonFiles) (hproject : project ∈ projects)
    (habsent : ∀ cache ∈ o.cachePath, d.node? (placeOf working cache) = none)
    (hmodel : ∀ path ∈ o.modelPath, ∃ text, d.read working path = .ok text) {before : List Job}
    (hbefore : ∀ job ∈ before, job.2 ∈ projects ∧ job ≠ (k, project))
    (he : Disk.Agree (Disk.WrittenBy working o before) d e)
    (hf : Disk.Agree (o.CachePlace working) d f)
    (hcache : (k = .scattering ∨ k = .perFunction) ∨
      ∀ cache ∈ o.cachePath, f.node? (placeOf working cache) = e.node? (placeOf working cache)) :
    (e.runJob working o (k, project)).2.node? (resultPlace working project k) =
      (f.runJob working o (k, project)).2.node? (resultPlace working project k) := by
  have hnotCache : ∀ path ∈ o.modelPath, ¬ o.CachePlace working (placeOf working path) := by
    intro path hpath
    obtain ⟨text, hread⟩ := hmodel path hpath
    exact Disk.not_cachePlace_of_read habsent hread
  -- only the cache can differ
  have heInputs := he.inputs_eq hnames hworking (Path.join project sourceFolder)
    (fun _ => Disk.WrittenBy.not_source hapart (fun job hjob => (hbefore job hjob).1) hproject)
    fun path hpath => ⟨not_writtenBy_model hapart (fun job hjob => (hbefore job hjob).1) hpath
      (hnotCache path hpath), hmodel path hpath⟩
  have hfInputs := hf.inputs_eq hnames hworking (Path.join project sourceFolder)
    (fun _ => not_cachePlace_source hapart hproject)
    fun path hpath => ⟨hnotCache path hpath, hmodel path hpath⟩
  have hinputs : e.inputs working o (Path.join project sourceFolder) =
      { f.inputs working o (Path.join project sourceFolder) with
        cache := (e.inputs working o (Path.join project sourceFolder)).cache } :=
    heInputs.trans (by rw [hfInputs])
  have hfolders : f.SameFolders e := hf.folders.symm.trans he.folders
  have hscript : (f.inputs working o (Path.join project sourceFolder)).analyse o k =
      (e.inputs working o (Path.join project sourceFolder)).analyse o k := by
    rcases hcache with hkind | hsame
    · rw [hinputs]
      exact (Inputs.analyse_withCache hkind _ o _).symm
    · have htext : o.cachePath.bind (f.cacheText working) = o.cachePath.bind (e.cacheText working) :=
        Option.bind_congr fun cache hcache => hfolders.cacheText_eq (hsame cache hcache)
      rw [hinputs]
      simp only [Disk.inputs, htext]
  have hnode : f.node? (resultPlace working project k) = e.node? (resultPlace working project k) := by
    rw [hf.kept _ (not_cachePlace_result hapart hproject),
      he.kept _ (Disk.not_writtenBy hapart hbefore hproject)]
  exact ((hfolders.analyse hscript).2 _ hnode).symm

/-- The jobs of a list leave for a project what its job alone leaves, but for the cache. -/
theorem runJobs_isolated {kinds : List Kind} (hworking : Path.isAbsolute working)
    (hnames : d.ProperNames) (hapart : Apart working projects o.commonFiles) (hkinds : kinds.Nodup)
    (hk : k ∈ kinds) (hproject : project ∈ projects)
    (habsent : ∀ cache ∈ o.cachePath, d.node? (placeOf working cache) = none) :
    let run := d.runJobs working o (jobsOf kinds projects)
    let place := resultPlace working project k
    run.1 ≠ .ok () ∧ run.2.node? place = d.node? place ∨
      (∃ f, Disk.Agree (o.CachePlace working) d f ∧
        run.2.node? place = (f.runJob working o (k, project)).2.node? place) ∧
      (o.cachePath = none ∨ k = .scattering ∨ k = .perFunction ∨
          kinds = [k] ∧ projects.head? = some project →
        run.2.node? place = (d.runJob working o (k, project)).2.node? place) := by
  intro run place
  by_cases hunreadable : ∃ path e, o.modelPath = some path ∧ d.read working path = .error e
  · obtain ⟨path, e, hpath, hread⟩ := hunreadable
    have hsame : run.2.node? place = (d.runJob working o (k, project)).2.node? place := by
      simp only [run, Disk.runJobs_unreadable hpath hread, (Disk.runJob_unreadable hpath hread _).1]
    exact .inr ⟨⟨d, .refl _ _, hsame⟩, fun _ => hsame⟩
  · have hmodel : ∀ path ∈ o.modelPath, ∃ text, d.read working path = .ok text := by
      intro path hpath
      cases hread : d.read working path with
      | error e => exact absurd ⟨path, e, hpath, hread⟩ hunreadable
      | ok text => exact ⟨text, rfl⟩
    obtain ⟨before, after, hsplit, hothers, hfirst⟩ := jobsOf_split hkinds hapart.nodup hk hproject
    have hbefore := fun job hjob => hothers job (List.mem_append_left after hjob)
    have hafter := fun job hjob => hothers job (List.mem_append_right before hjob)
    have hrun : run = d.runJobs working o (before ++ (k, project) :: after) := by rw [← hsplit]
    rcases Disk.runJobs_result (d := d) hapart hbefore hafter hproject with
      hfailed | ⟨e, he, hstart, hnode⟩
    · exact .inl (hrun ▸ hfailed)
    · rw [← hrun] at hnode
      have hresult := fun f => runJob_result_eq (f := f) hworking hnames hapart hproject habsent
        hmodel hbefore he
      refine .inr ⟨?_, fun hcache => hnode.trans ?_⟩
      · obtain ⟨f, hf, hsame⟩ := Disk.exists_withCache (o := o) he habsent
        exact ⟨f, hf, hnode.trans (hresult f hf (.inr hsame))⟩
      · rcases hcache with hnone | hkind | hkind | ⟨hone, hhead⟩
        · exact hresult d (.refl _ _) (.inr (by simp [hnone]))
        · exact hresult d (.refl _ _) (.inl (.inl hkind))
        · exact hresult d (.refl _ _) (.inl (.inr hkind))
        · rw [hstart (hfirst hone hhead)]

end Result

section Command

variable [ParserStack]

theorem command_only {s : Session} {o : Options} {k : Kind} {alone project : String}
    (hworking : Path.isAbsolute s.working) (hsingle : o.single = none)
    (halone : s.disk.projects s.working alone = [project])
    (hapart : ¬ placeOf s.working project <+: placeOf s.working alone)
    (hcache : ¬ o.CachePlace s.working (placeOf s.working alone)) :
    (s.command (o.only k alone)).2.disk = (s.disk.runJob s.working o (k, project)).2 := by
  have hsingle : (o.only k alone).single = none := hsingle
  have hlist : ¬ Disk.Written s.working (o.only k alone) project k (placeOf s.working alone) := by
    rintro (hplace | hplace)
    · exact hapart (hplace ▸ List.prefix_append _ _)
    · exact hcache hplace
  obtain ⟨-, -, hdisk⟩ := command_eq_runJob hworking hsingle rfl halone hlist
  rw [hdisk, Disk.runJob_only]

/-- If no project contains another, and the list, the model and the cache lie outside and there is no
cache yet, then a command that writes the result of a project writes what the command for this project
alone would write from the same disk, but for the cache. Where there is no cache, or the analysis does
not read it, or the project is the first one, the cache makes no difference. -/
theorem command_isolated (o : Options) (s : Session) (alone : String) (k : Kind) (project : String)
    (hworking : Path.isAbsolute s.working) (hnames : s.disk.ProperNames) (hsingle : o.single = none)
    (hkind : o.allKinds ∨ o.kind = .value k)
    (hproject : project ∈ s.disk.projects s.working o.list)
    (halone : s.disk.projects s.working alone = [project])
    (hapart : Apart s.working (s.disk.projects s.working o.list) (alone :: o.commonFiles))
    (habsent : ∀ cache ∈ o.cachePath, s.disk.node? (placeOf s.working cache) = none) :
    let place := resultPlace s.working project k
    let left := (s.command o).2.disk.node? place
    (s.command o).1 ≠ .exit 0 ∧ left = s.disk.node? place ∨
      (∃ d, Disk.Agree (o.CachePlace s.working) s.disk d ∧
        left = ({ s with disk := d }.command (o.only k alone)).2.disk.node? place) ∧
      (o.cachePath = none ∨ k = .scattering ∨ k = .perFunction ∨
          o.allKinds = false ∧ (s.disk.projects s.working o.list).head? = some project →
        left = (s.command (o.only k alone)).2.disk.node? place) := by
  intro place left
  obtain ⟨kinds, hkinds, hnodup, hk, hone⟩ := Options.kinds_eq hkind
  have hcommon : Apart s.working (s.disk.projects s.working o.list) o.commonFiles :=
    hapart.mono (List.subset_cons_self _ _)
  -- both commands are jobs on the same disk
  have hsome := List.ne_nil_of_mem hproject
  obtain ⟨-, listText, -, hlistNode⟩ := Disk.file_of_projects hworking hsome
  have hsomeAlone : s.disk.projects s.working alone ≠ [] := by simp [halone]
  obtain ⟨-, aloneText, -, haloneNode⟩ := Disk.file_of_projects hworking hsomeAlone
  obtain ⟨hending, -, hdisk⟩ := command_eq_runJobs hworking hsingle hkinds hsome
    (Disk.not_writtenBy_list hcommon (Disk.not_cachePlace_file habsent hlistNode))
  have hsingleJob : ∀ d, Disk.Agree (o.CachePlace s.working) s.disk d →
      ({ s with disk := d }.command (o.only k alone)).2.disk =
        (d.runJob s.working o (k, project)).2 := by
    intro d hd
    have hnot := Disk.not_cachePlace_file habsent haloneNode
    have hprojects := hd.projects_eq hworking hnot hsomeAlone
    exact command_only (s := { s with disk := d }) hworking hsingle (hprojects.trans halone)
      (hapart.outside project hproject alone List.mem_cons_self) hnot
  have hself := hsingleJob s.disk (.refl _ _)
  rcases runJobs_isolated hworking hnames hcommon hnodup hk hproject habsent with
    ⟨hfailed, hkept⟩ | ⟨⟨d, hd, hsame⟩, halike⟩
  · refine .inl ⟨?_, by rw [← hkept, ← hdisk]⟩
    rw [hending]
    exact mt Ending.of_eq_exit_zero.1 hfailed
  · rw [← hdisk] at hsame halike
    refine .inr ⟨⟨d, hd, by rw [hsingleJob d hd, ← hsame]⟩, fun hcache => ?_⟩
    rw [hself]
    exact halike (hcache.imp_right (Or.imp_right (Or.imp_right (And.imp_left hone))))

end Command

def twoProjects : Session where
  disk := {
    entries := [
      (["r"], .folder), (["r", "p"], .folder), (["r", "p", sourceFolder], .folder),
      (["r", "p", sourceFolder, "a.c.xml"], .file ("<unit xmlns=\"http://www.srcML.org/srcML/cpp\">" ++
        "<ifdef>#<directive>ifdef</directive> <name>A</name></ifdef><endif/></unit>")),
      (["r", "q"], .folder), (["r", "q", sourceFolder], .folder),
      (["r", "both"], .file "p\nq\n"), (["r", "second"], .file "q\n")] }
  working := "/r"
  temporary := "/tmp"

def cachedOptions (k : Kind) : Options :=
  { kind := .value k, list := "both", cache := .value (some "cache.csv") }

theorem command_isolated_scattering :
    (twoProjects.command (cachedOptions .scattering)).2.disk.node?
        (resultPlace "/r" "q" .scattering) =
      (twoProjects.command ((cachedOptions .scattering).only .scattering "second")).2.disk.node?
        (resultPlace "/r" "q" .scattering) := by
  have hprojects : twoProjects.disk.projects "/r" "both" = ["p", "q"] := by decide +kernel
  have halone : twoProjects.disk.projects "/r" "second" = ["q"] := by decide +kernel
  have hending : (twoProjects.command (cachedOptions .scattering)).1 = .exit 0 := by decide +kernel
  have hisolated := command_isolated (cachedOptions .scattering) twoProjects "second" .scattering "q"
    (by decide) (by decide +kernel) rfl (.inr rfl) (hprojects ▸ by decide) halone
    (hprojects ▸ by decide +kernel) (by decide +kernel)
  rcases hisolated with ⟨hfailed, -⟩ | ⟨-, hsame⟩
  · exact absurd hending hfailed
  · exact hsame (.inr (.inl rfl))

/-- With a cache the variables of the first project are listed for the second one. -/
theorem command_not_isolated :
    Apart "/r" (twoProjects.disk.projects "/r" "both")
        ("second" :: (cachedOptions .perVariable).commonFiles) ∧
      twoProjects.disk.node? (placeOf "/r" "cache.csv") = none ∧
      twoProjects.disk.projects "/r" "second" = ["q"] ∧
      "q" ∈ twoProjects.disk.projects "/r" "both" ∧
      (twoProjects.command (cachedOptions .perVariable)).1 = .exit 0 ∧
      (twoProjects.command (cachedOptions .perVariable)).2.disk.node?
        (resultPlace "/r" "q" .perVariable) =
          some (.file "Source File;Line No.;Element;#ifdef SD;File SD\n;;A;1.0;1.0\n") ∧
      (twoProjects.command ((cachedOptions .perVariable).only .perVariable "second")).2.disk.node?
        (resultPlace "/r" "q" .perVariable) =
          some (.file "Source File;Line No.;Element;#ifdef SD;File SD\n") := by
  decide +kernel

end Variability
