import Variability.Proofs.Analysis.Project

/-!
A run over a list of projects as a sequence of jobs, each of which is the analysis of one kind for
one project. The list is read for each kind again; it says the same unless a job before writes it.
-/

set_option autoImplicit false

namespace Variability

abbrev Job := Kind × String

namespace Disk

variable {d d' : Disk} {working : String} {o : Options}

def andThen (run later : Disk → Except Failure Unit × Disk) (d : Disk) : Except Failure Unit × Disk :=
  match run d with
  | (.error e, d) => (.error e, d)
  | (.ok (), d) => later d

def behind {α : Type} (run : Disk → Except Failure Unit × Disk) (later : Disk → List α) (d : Disk) :
    List α :=
  match run d with
  | (.error _, _) => []
  | (.ok (), d) => later d

@[simp] theorem behind_nil {α : Type} (run : Disk → Except Failure Unit × Disk) (d : Disk) :
    behind run (fun _ => ([] : List α)) d = [] := by
  unfold behind
  split <;> rfl

def projectsIn (d : Disk) (working text : String) : List String :=
  ((projectLines text).filter (d.isFolder working)).map Path.normalize

/-- The projects of a list; none if it cannot be read. -/
def projects (d : Disk) (working list : String) : List String :=
  if list = "" then []
  else
    match d.read working (Path.absolute working list) with
    | .error _ => []
    | .ok text => d.projectsIn working text

theorem SameFolders.projectsIn_eq (h : SameFolders d d') (working text : String) :
    d.projectsIn working text = d'.projectsIn working text := by
  rw [projectsIn, projectsIn, funext (h.isFolder_eq working)]

variable [ParserStack]

def runJob (d : Disk) (working : String) (o : Options) (job : Job) : Except Failure Unit × Disk :=
  d.analyse working o job.1 (Path.join job.2 sourceFolder)

def runJobs (d : Disk) (working : String) (o : Options) : List Job → Except Failure Unit × Disk
  | [] => (.ok (), d)
  | job :: jobs =>
    match d.runJob working o job with
    | (.error e, d) => (.error e, d)
    | (.ok (), d) => d.runJobs working o jobs

theorem runJobs_append_ok {before : List Job} (h : d.runJobs working o before = (.ok (), d'))
    (after : List Job) : d.runJobs working o (before ++ after) = d'.runJobs working o after := by
  induction before generalizing d with
  | nil =>
    obtain rfl : d = d' := congrArg Prod.snd h
    rfl
  | cons job jobs ih =>
    rw [runJobs] at h
    rw [List.cons_append, runJobs]
    split at h
    · simp at h
    · next hjob => simpa [hjob] using ih h

theorem runJobs_append_error {before : List Job} {e : Failure}
    (h : d.runJobs working o before = (.error e, d')) (after : List Job) :
    d.runJobs working o (before ++ after) = (.error e, d') := by
  induction before generalizing d with
  | nil => simp [runJobs] at h
  | cons job jobs ih =>
    rw [runJobs] at h
    rw [List.cons_append, runJobs]
    split at h
    · next hjob => simpa [hjob] using h
    · next hjob => simpa [hjob] using ih h

def WrittenBy (working : String) (o : Options) (jobs : List Job) (place : Place) : Prop :=
  ∃ job ∈ jobs, Written working o job.2 job.1 place

theorem agree_runJobs (d : Disk) (working : String) (o : Options) (jobs : List Job) :
    Agree (WrittenBy working o jobs) d (d.runJobs working o jobs).2 := by
  induction jobs generalizing d with
  | nil => exact .refl _ _
  | cons job jobs ih =>
    have hjob : Agree (WrittenBy working o (job :: jobs)) d (d.runJob working o job).2 :=
      (agree_analyse d working o job.1 job.2).mono fun _ hplace => ⟨job, List.mem_cons_self, hplace⟩
    rw [runJobs]
    split
    · next h => simpa [h] using hjob
    · next next h =>
      refine (show Agree _ d next by simpa [h] using hjob).trans ((ih next).mono ?_)
      exact fun place ⟨other, hother, hplace⟩ => ⟨other, List.mem_cons_of_mem _ hother, hplace⟩

def runList (d : Disk) (working : String) (o : Options) (list : String) (k : Kind) :
    Except Failure Unit × Disk :=
  match d.read working list with
  | .error e => (.error (.file e), d)
  | .ok text => d.runJobs working o ((d.projectsIn working text).map fun project => (k, project))

def runKinds (d : Disk) (working : String) (o : Options) (list : String) :
    List Kind → Except Failure Unit × Disk
  | [] => (.ok (), d)
  | k :: kinds => andThen (·.runList working o list k) (·.runKinds working o list kinds) d

end Disk

def jobsOf (kinds : List Kind) (projects : List String) : List Job :=
  kinds.flatMap fun k => projects.map fun project => (k, project)

section Programs

variable {d : Disk} {working : String} {o : Options}

theorem ends_selectFolders (working : String) (d : Disk) (paths : List String) :
    Ends (selectFolders paths) working d
      (paths.filter (d.isFolder working), paths.filter fun path => !d.isFolder working path) d := by
  induction paths with
  | nil => exact .pure _
  | cons path paths ih =>
    refine (Ends.isFolder path).bind (ih.bind ?_)
    by_cases hfolder : d.isFolder working path <;> simpa [hfolder] using Ends.pure _

theorem ends_tellAll (messages : List Message) : Ends (tellAll messages) working d () d := by
  induction messages with
  | nil => exact .pure ()
  | cons message messages ih => exact (Ends.tell message).bind ih

theorem tasks_of_projects (d : Disk) (working text : String) :
    (((projectLines text).filter (d.isFolder working)).map fun folder =>
      Task.project (Path.normalize folder)) = (d.projectsIn working text).map .project := by
  simp [Disk.projectsIn]

def Ending.of : Except Failure Unit → Ending
  | .ok () => .exit 0
  | .error (.setUp _) => .exit 1
  | .error cause => .failure cause

theorem Ending.of_eq_exit_zero {r : Except Failure Unit} : Ending.of r = .exit 0 ↔ r = .ok () := by
  cases r with
  | ok u => simp [Ending.of]
  | error e => cases e <;> simp [Ending.of]

theorem ends_ofResult (r : Except Failure Unit) : Ends (Ending.ofResult r) working d (.of r) d := by
  cases r with
  | ok u => exact .pure _
  | error e =>
    cases e with
    | setUp cause => exact (Ends.tell _).bind (.pure _)
    | _ => exact .pure _

theorem Disk.Agree.list_kept {d' : Disk} {list text : String} {k next : Kind} {kinds : List Kind}
    (hagree : Disk.Agree (Disk.WrittenBy working o
      ((d.projectsIn working text).map fun project => (k, project))) d d')
    (h : d.read working list = .ok text)
    (hlist : ¬ Disk.WrittenBy working o (jobsOf (k :: next :: kinds).dropLast (d.projectsIn working text))
      (placeOf working list)) :
    d'.read working list = .ok text ∧
      ¬ Disk.WrittenBy working o (jobsOf (next :: kinds).dropLast (d'.projectsIn working text))
        (placeOf working list) := by
  have hjobs : jobsOf (k :: next :: kinds).dropLast (d.projectsIn working text) =
      (d.projectsIn working text).map (fun project => (k, project)) ++
        jobsOf (next :: kinds).dropLast (d.projectsIn working text) := List.flatMap_cons
  rw [hjobs] at hlist
  have hnode := hagree.kept (placeOf working list) fun ⟨job, hjob, hplace⟩ =>
    hlist ⟨job, List.mem_append_left _ hjob, hplace⟩
  refine ⟨(hagree.folders.read_iff hnode.symm text).1 h, fun ⟨job, hjob, hplace⟩ => ?_⟩
  rw [← hagree.folders.projectsIn_eq working text] at hjob
  exact hlist ⟨job, List.mem_append_right _ hjob, hplace⟩

variable [ParserStack]

theorem ends_runTasks (k : Kind) (folders : List String) :
    Ends (runTasks o (.value k) (folders.map .project)) working d
      (d.runJobs working o (folders.map fun folder => (k, folder))).1
      (d.runJobs working o (folders.map fun folder => (k, folder))).2 := by
  induction folders generalizing d with
  | nil => exact .pure _
  | cons folder folders ih =>
    refine (ends_project o k folder).bind ?_
    rw [List.map_cons, Disk.runJobs, Disk.runJob]
    rcases d.analyse working o k (Path.join folder sourceFolder) with ⟨result, d'⟩
    cases result with
    | error e => exact .pure _
    | ok u => exact ih

theorem ends_runList (list : String) (k : Kind) :
    Ends (runList o list (.value k)) working d (d.runList working o list k).1
      (d.runList working o list k).2 := by
  refine (Ends.read list).bind ?_
  rw [Disk.runList]
  cases d.read working list with
  | error e => exact .pure _
  | ok text =>
    refine (ends_selectFolders working d (projectLines text)).bind ((ends_tellAll _).bind ?_)
    simp only [tasks_of_projects]
    exact ends_runTasks k _

theorem ends_runKinds (list : String) (kinds : List Kind) :
    Ends (runKinds o list (kinds.map .value)) working d (d.runKinds working o list kinds).1
      (d.runKinds working o list kinds).2 := by
  induction kinds generalizing d with
  | nil => exact .pure _
  | cons k kinds ih =>
    refine (ends_runList list k).bind ?_
    rw [Disk.runKinds, Disk.andThen]
    rcases d.runList working o list k with ⟨result, d'⟩
    cases result with
    | error e => exact .pure _
    | ok u => exact ih

/-- Unless a job before the last kind writes the list, it says the same for all kinds. -/
theorem Disk.runKinds_eq_runJobs {list text : String} (h : d.read working list = .ok text) (kinds : List Kind)
    (hlist : ¬ Disk.WrittenBy working o (jobsOf kinds.dropLast (d.projectsIn working text))
      (placeOf working list)) :
    d.runKinds working o list kinds = d.runJobs working o (jobsOf kinds (d.projectsIn working text)) := by
  induction kinds generalizing d with
  | nil => rfl
  | cons k kinds ih =>
    have hagree := Disk.agree_runJobs d working o
      ((d.projectsIn working text).map fun folder => (k, folder))
    have hjobs : ∀ kinds, jobsOf (k :: kinds) (d.projectsIn working text) =
        (d.projectsIn working text).map (fun folder => (k, folder)) ++
          jobsOf kinds (d.projectsIn working text) := fun _ => List.flatMap_cons
    simp only [Disk.runKinds, Disk.andThen, Disk.runList, h, hjobs]
    rcases hrun : d.runJobs working o ((d.projectsIn working text).map fun folder => (k, folder)) with
      ⟨result, d'⟩
    rw [hrun] at hagree
    cases result with
    | error e => rw [Disk.runJobs_append_error hrun]
    | ok u =>
      rw [Disk.runJobs_append_ok hrun]
      cases kinds with
      | nil => rfl
      | cons next kinds =>
        obtain ⟨hread, hkept⟩ := hagree.list_kept h hlist
        rw [hagree.folders.projectsIn_eq working text]
        exact ih hread hkept

def Options.kinds (o : Options) : List (Given Kind) :=
  if o.allKinds then Setting.members.map .value else [o.kind]

theorem ends_run_list (hsingle : o.single = none) (hempty : o.list ≠ "")
    (hfile : d.isFile working (Path.absolute working o.list)) {kinds : List Kind}
    (hkinds : o.kinds = kinds.map .value) :
    Ends o.run working d (.of (d.runKinds working o (Path.absolute working o.list) kinds).1)
      (d.runKinds working o (Path.absolute working o.list) kinds).2 := by
  have hrun : Ends (runKinds o (Path.absolute working o.list) (kinds.map .value)) working d _ _ :=
    ends_runKinds (Path.absolute working o.list) kinds
  unfold Options.run
  refine Ends.workingFolder.bind ?_
  rw [hsingle]
  simp only [hempty, if_false]
  refine (Ends.isFile _).bind ?_
  rw [if_pos hfile]
  rw [← hkinds, Options.kinds] at hrun
  exact hrun.bind (ends_ofResult _)

end Programs

namespace Disk

variable {d d' : Disk} {working : String}

theorem file_of_projects (hworking : Path.isAbsolute working) {list : String}
    (h : d.projects working list ≠ []) :
    list ≠ "" ∧ ∃ text, d.read working (Path.absolute working list) = .ok text ∧
      d.node? (placeOf working list) = some (.file text) := by
  unfold projects at h
  split at h
  · exact absurd rfl h
  · next hempty =>
    cases hread : d.read working (Path.absolute working list) with
    | error e => simp [hread] at h
    | ok text =>
      obtain ⟨place, hlocate, hnode⟩ := read_eq_ok_iff.1 hread
      rw [← placeOf_absolute hworking, ← locate_eq_ok hlocate]
      exact ⟨hempty, text, rfl, hnode⟩

theorem Agree.projects_eq {written : Place → Prop} (h : Agree written d d')
    (hworking : Path.isAbsolute working) {list : String}
    (hlist : ¬ written (placeOf working list)) (hsome : d.projects working list ≠ []) :
    d'.projects working list = d.projects working list := by
  obtain ⟨hempty, text, hread, -⟩ := file_of_projects hworking hsome
  have hkept := h.kept _ hlist
  rw [← placeOf_absolute hworking] at hkept
  have hread' := (h.folders.read_iff hkept.symm text).1 hread
  simp only [projects, hempty, if_false, hread, hread', h.folders.projectsIn_eq]

end Disk

variable [ParserStack]

/-- What a command leaves of a session. -/
def Session.command (s : Session) (o : Options) : Ending × Session := (o.run : StateM Session Ending) s

/-- A command without a single file does the jobs of its list, unless one of them writes the list. -/
theorem command_eq_runJobs {s : Session} {o : Options} {kinds : List Kind}
    (hworking : Path.isAbsolute s.working) (hsingle : o.single = none)
    (hkinds : o.kinds = kinds.map .value) (hsome : s.disk.projects s.working o.list ≠ [])
    (hlist : ¬ Disk.WrittenBy s.working o (jobsOf kinds (s.disk.projects s.working o.list))
      (placeOf s.working o.list)) :
    let run := s.disk.runJobs s.working o (jobsOf kinds (s.disk.projects s.working o.list))
    (s.command o).1 = .of run.1 ∧ (s.command o).2.working = s.working ∧
      (s.command o).2.disk = run.2 := by
  obtain ⟨hempty, text, hread, -⟩ := Disk.file_of_projects hworking hsome
  have hprojects : s.disk.projects s.working o.list = s.disk.projectsIn s.working text := by
    simp [Disk.projects, hempty, hread]
  rw [hprojects, ← placeOf_absolute hworking] at hlist
  rw [hprojects, ← Disk.runKinds_eq_runJobs hread]
  · exact ends_run_list hsingle hempty (Disk.isFile_iff_read.2 ⟨text, hread⟩) hkinds s rfl rfl
  · rintro ⟨job, hjob, hplace⟩
    obtain ⟨k, hk, hproject⟩ := List.mem_flatMap.1 hjob
    exact hlist ⟨job, List.mem_flatMap.2 ⟨k, List.dropLast_subset _ hk, hproject⟩, hplace⟩

theorem command_eq_runJob {s : Session} {o : Options} {k : Kind} {project : String}
    (hworking : Path.isAbsolute s.working) (hsingle : o.single = none) (hkinds : o.kinds = [.value k])
    (hproject : s.disk.projects s.working o.list = [project])
    (hlist : ¬ Disk.Written s.working o project k (placeOf s.working o.list)) :
    let run := s.disk.runJob s.working o (k, project)
    (s.command o).1 = .of run.1 ∧ (s.command o).2.working = s.working ∧
      (s.command o).2.disk = run.2 := by
  have hjobs : jobsOf [k] [project] = [(k, project)] := rfl
  have hone : o.kinds = [k].map .value := hkinds
  have hkept : ¬ Disk.WrittenBy s.working o (jobsOf [k] (s.disk.projects s.working o.list))
      (placeOf s.working o.list) := by
    rw [hproject, hjobs]
    rintro ⟨job, hjob, hplace⟩
    obtain rfl := List.mem_singleton.1 hjob
    exact hlist hplace
  have hrun := command_eq_runJobs hworking hsingle hone (by simp [hproject]) hkept
  rw [hproject, hjobs, Disk.runJobs] at hrun
  rcases hjob : s.disk.runJob s.working o (k, project) with ⟨result, e⟩
  rw [hjob] at hrun
  cases result <;> exact hrun

end Variability
