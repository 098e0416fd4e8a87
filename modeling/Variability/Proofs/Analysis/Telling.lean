import Variability.Proofs.Analysis.Jobs

set_option autoImplicit false

namespace Variability

/-- In any session with this working folder and this disk, a computation tells these messages. -/
def Tells {α : Type} (p : StateM Session α) (working : String) (d : Disk) (messages : List Message) : Prop :=
  ∀ s : Session, s.working = working → s.disk = d → (p s).2.log = s.log ++ messages

def Quiet {α : Type} (p : StateM Session α) : Prop := ∀ s : Session, (p s).2.told = s.told

namespace Quiet

variable {α β : Type}

theorem pure (a : α) : Quiet (Pure.pure a) := fun _ => rfl

theorem bind {p : StateM Session α} {f : α → StateM Session β} (hp : Quiet p) (hf : ∀ a, Quiet (f a)) :
    Quiet (p >>= f) := fun s => (hf _ _).trans (hp s)

theorem map {p : StateM Session α} (f : α → β) (hp : Quiet p) : Quiet (f <$> p) := fun s => hp s

theorem tells {p : StateM Session α} (hp : Quiet p) (working : String) (d : Disk) : Tells p working d [] :=
  fun s _ _ => by rw [Session.log, Session.log, hp s, List.append_nil]

theorem workingFolder : Quiet Host.working := fun _ => rfl

theorem isFile (path : String) : Quiet (Host.isFile path) := fun _ => rfl

theorem isFolder (path : String) : Quiet (Host.isFolder path) := fun _ => rfl

theorem read (path : String) : Quiet (Host.read path) := fun _ => rfl

theorem filesBelow (path : String) : Quiet (Host.filesBelow path) := fun _ => rfl

theorem write (path text : String) : Quiet (Host.write path text) := by
  intro s
  cases hwrite : s.disk.write s.working path text with
  | error e =>
    simp [Host.write, StateT.bind, Bind.bind, get, getThe, MonadStateOf.get, StateT.get, Pure.pure,
      StateT.pure, hwrite]
  | ok d =>
    simp [Host.write, StateT.bind, Bind.bind, get, getThe, MonadStateOf.get, StateT.get, modify,
      modifyGet, MonadStateOf.modifyGet, StateT.modifyGet, Pure.pure, StateT.pure, hwrite]

theorem mapM {f : α → StateM Session β} (hf : ∀ a, Quiet (f a)) (as : List α) :
    Quiet (as.mapM f) := by
  induction as with
  | nil => exact pure _
  | cons a as ih =>
    rw [List.mapM_cons]
    exact (hf a).bind fun _ => ih.bind fun _ => pure _

end Quiet

namespace Tells

variable {α β : Type} {working : String} {d d' : Disk} {before after : List Message}

theorem tell (message : Message) : Tells (Host.tell message) working d [message] := by
  intro s _ _
  change (message :: s.told).reverse = _
  rw [List.reverse_cons]
  rfl

theorem bind {p : StateM Session α} {f : α → StateM Session β} {a : α} (hp : Ends p working d a d')
    (hbefore : Tells p working d before) (hafter : Tells (f a) working d' after) :
    Tells (p >>= f) working d (before ++ after) := by
  intro s hworking hdisk
  obtain ⟨rfl, hworking', hdisk'⟩ := hp s hworking hdisk
  have hrest := hafter _ hworking' hdisk'
  rw [hbefore s hworking hdisk, List.append_assoc] at hrest
  exact hrest

theorem after_quiet {p : StateM Session α} {f : α → StateM Session β} {a : α} (hp : Ends p working d a d')
    (hquiet : Quiet p) (hafter : Tells (f a) working d' after) : Tells (p >>= f) working d after :=
  bind hp (hquiet.tells working d) hafter

end Tells

namespace Disk

variable {d : Disk} {working : String} {o : Options}

def heard (d : Disk) (working : String) : List Step → List Message
  | [] => []
  | .tell message :: steps => message :: d.heard working steps
  | .write path text :: steps =>
    match d.write working path text with
    | .error _ => []
    | .ok d => d.heard working steps

theorem heard_tells (d : Disk) (working : String) (lines : List Message) (steps : List Step) :
    d.heard working (lines.map .tell ++ steps) = lines ++ d.heard working steps := by
  induction lines with
  | nil => rfl
  | cons line lines ih => exact congrArg (line :: ·) ih

variable [ParserStack]

def toldByJob (d : Disk) (working : String) (o : Options) (job : Job) : List Message :=
  let name := Path.baseName (Path.normalize job.2)
  .starting (Setting.label job.1) name ::
    (d.heard working ((d.inputs working o (Path.join job.2 sourceFolder)).analyse o job.1).steps ++
      [.finished (Setting.label job.1) name])

def toldByJobs (d : Disk) (working : String) (o : Options) : List Job → List Message
  | [] => []
  | job :: jobs =>
    d.toldByJob working o job ++ behind (·.runJob working o job) (·.toldByJobs working o jobs) d

def skippedLines (d : Disk) (working text : String) : List Message :=
  ((projectLines text).filter fun path => !d.isFolder working path).map .skippedFolder

def toldByList (d : Disk) (working : String) (o : Options) (list : String) (k : Kind) : List Message :=
  match d.read working list with
  | .error _ => []
  | .ok text =>
    d.skippedLines working text ++
      d.toldByJobs working o ((d.projectsIn working text).map fun project => (k, project))

def toldByKinds (d : Disk) (working : String) (o : Options) (list : String) : List Kind → List Message
  | [] => []
  | k :: kinds =>
    d.toldByList working o list k ++
      behind (·.runList working o list k) (·.toldByKinds working o list kinds) d

end Disk

def Ending.lines : Except Failure Unit → List Message
  | .error (.setUp cause) => [.setUp cause.message]
  | _ => []

section Programs

variable {d : Disk} {working : String} {o : Options}

theorem tells_runSteps (steps : List Step) :
    Tells (runSteps steps) working d (d.heard working steps) := by
  induction steps generalizing d with
  | nil => exact (Quiet.pure _).tells working d
  | cons step steps ih =>
    cases step with
    | tell message => exact Tells.bind (Ends.tell message) (Tells.tell message) ih
    | write path text =>
      rw [Disk.heard, runSteps]
      cases hwrite : d.write working path text with
      | error e =>
        exact Tells.after_quiet (Ends.write_error hwrite) (.write path text) ((Quiet.pure _).tells _ _)
      | ok d' => exact Tells.after_quiet (Ends.write_ok hwrite) (.write path text) ih

theorem tells_run (s : Script Unit) : Tells s.run working d (d.heard working s.steps) := by
  rw [← List.append_nil (d.heard working s.steps)]
  refine Tells.bind (ends_runSteps s.steps) (tells_runSteps s.steps) (Quiet.tells ?_ _ _)
  split <;> exact .pure _

theorem quiet_readSources (folder : String) : Quiet (readSources folder) := by
  have hpaths : Quiet (listFiles folder [".xml"]) := by
    refine (Quiet.isFolder folder).bind fun isFolder => ?_
    cases isFolder
    · exact .pure _
    · exact Quiet.workingFolder.bind fun _ => (Quiet.filesBelow folder).bind fun _ => .pure _
  exact hpaths.bind (Quiet.mapM fun path => (Quiet.read path).bind fun _ => .pure _)

theorem quiet_readIfFile (path : String) : Quiet (readIfFile path) := by
  refine (Quiet.isFile path).bind fun isFile => ?_
  cases isFile
  · exact .pure _
  · refine (Quiet.read path).bind fun text => ?_
    cases text <;> exact .pure _

theorem quiet_gather (o : Options) (folder : String) : Quiet (gather o folder) := by
  refine Quiet.workingFolder.bind fun _ => (quiet_readSources folder).bind fun _ => ?_
  cases o.modelPath with
  | none =>
    cases o.cachePath with
    | none => exact .pure _
    | some cache => exact (quiet_readIfFile cache).bind fun _ => .pure _
  | some model =>
    have hmodel : Quiet (some <$> Host.read model) := (Quiet.read model).map some
    cases o.cachePath with
    | none => exact hmodel.bind fun _ => .pure _
    | some cache => exact hmodel.bind fun _ => (quiet_readIfFile cache).bind fun _ => .pure _

theorem quiet_selectFolders (paths : List String) : Quiet (selectFolders paths) := by
  induction paths with
  | nil => exact .pure _
  | cons path paths ih => exact (Quiet.isFolder path).bind fun _ => ih.bind fun _ => .pure _

theorem tells_tellAll (messages : List Message) : Tells (tellAll messages) working d messages := by
  induction messages with
  | nil => exact (Quiet.pure ()).tells working d
  | cons message messages ih => exact Tells.bind (Ends.tell message) (Tells.tell message) ih

theorem tells_ofResult (r : Except Failure Unit) :
    Tells (Ending.ofResult r) working d (Ending.lines r) := by
  cases r with
  | ok u => exact (Quiet.pure _).tells _ _
  | error e =>
    cases e with
    | setUp cause => exact Tells.bind (Ends.tell _) (Tells.tell _) ((Quiet.pure _).tells _ _)
    | _ => exact (Quiet.pure _).tells _ _

variable [ParserStack]

theorem tells_project (k : Kind) (project : String) :
    Tells ((Task.project project).run o k) working d (d.toldByJob working o (k, project)) := by
  have hfolder : Tells (analyseFolder o k (Path.join project sourceFolder)) working d
      (d.heard working ((d.inputs working o (Path.join project sourceFolder)).analyse o k).steps) :=
    Tells.after_quiet (ends_gather o _) (quiet_gather o _) (tells_run _)
  refine Tells.bind (Ends.tell _) (Tells.tell _) ?_
  refine Tells.bind (ends_analyseFolder o k _) hfolder ?_
  exact Tells.bind (Ends.tell _) (Tells.tell _) ((Quiet.pure _).tells _ _)

theorem tells_runTasks (k : Kind) (projects : List String) :
    Tells (runTasks o (.value k) (projects.map .project)) working d
      (d.toldByJobs working o (projects.map fun project => (k, project))) := by
  induction projects generalizing d with
  | nil => exact (Quiet.pure _).tells working d
  | cons project projects ih =>
    refine Tells.bind (ends_project o k project) (tells_project k project) ?_
    rw [Disk.behind, Disk.runJob]
    rcases d.analyse working o k (Path.join project sourceFolder) with ⟨result, d'⟩
    cases result with
    | error e => exact (Quiet.pure _).tells _ _
    | ok u => exact ih

theorem tells_runList (list : String) (k : Kind) :
    Tells (runList o list (.value k)) working d (d.toldByList working o list k) := by
  refine Tells.after_quiet (Ends.read list) (Quiet.read list) ?_
  rw [Disk.toldByList]
  cases d.read working list with
  | error e => exact (Quiet.pure _).tells _ _
  | ok text =>
    refine Tells.after_quiet (ends_selectFolders working d (projectLines text)) (quiet_selectFolders _) ?_
    refine Tells.bind (ends_tellAll _) (tells_tellAll _) ?_
    simp only [tasks_of_projects]
    exact tells_runTasks k _

theorem tells_runKinds (list : String) (kinds : List Kind) :
    Tells (runKinds o list (kinds.map .value)) working d (d.toldByKinds working o list kinds) := by
  induction kinds generalizing d with
  | nil => exact (Quiet.pure _).tells working d
  | cons k kinds ih =>
    refine Tells.bind (ends_runList list k) (tells_runList list k) ?_
    rw [Disk.behind]
    rcases d.runList working o list k with ⟨result, d'⟩
    cases result with
    | error e => exact (Quiet.pure _).tells _ _
    | ok u => exact ih

theorem tells_run_list (hsingle : o.single = none) (hempty : o.list ≠ "")
    (hfile : d.isFile working (Path.absolute working o.list)) {kinds : List Kind}
    (hkinds : o.kinds = kinds.map .value) :
    Tells o.run working d (d.toldByKinds working o (Path.absolute working o.list) kinds ++
      Ending.lines (d.runKinds working o (Path.absolute working o.list) kinds).1) := by
  have hends : Ends (runKinds o (Path.absolute working o.list) (kinds.map .value)) working d _ _ :=
    ends_runKinds (Path.absolute working o.list) kinds
  have htells : Tells (runKinds o (Path.absolute working o.list) (kinds.map .value)) working d _ :=
    tells_runKinds (Path.absolute working o.list) kinds
  unfold Options.run
  refine Tells.after_quiet Ends.workingFolder Quiet.workingFolder ?_
  rw [hsingle]
  simp only [hempty, if_false]
  refine Tells.after_quiet (Ends.isFile _) (Quiet.isFile _) ?_
  rw [if_pos hfile]
  rw [← hkinds, Options.kinds] at hends htells
  exact Tells.bind hends htells (tells_ofResult _)

end Programs
end Variability
