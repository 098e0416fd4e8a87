import Variability.CommandLine.Command
import Variability.Proofs.Disk.Frame

/-!
What a command does to the disk of a session. The messages told before make no difference.
-/

set_option autoImplicit false

namespace Variability

/-- In any session with this working folder and this disk, a computation gives `a` and leaves the disk
`d'`. -/
def Ends {α : Type} (p : StateM Session α) (working : String) (d : Disk) (a : α) (d' : Disk) : Prop :=
  ∀ s : Session, s.working = working → s.disk = d →
    (p s).1 = a ∧ (p s).2.working = working ∧ (p s).2.disk = d'

namespace Ends

variable {α β : Type} {working : String} {d d' d'' : Disk}

theorem pure (a : α) : Ends (Pure.pure a) working d a d := fun _ hworking hdisk =>
  ⟨rfl, hworking, hdisk⟩

theorem bind {p : StateM Session α} {f : α → StateM Session β} {a : α} {b : β}
    (hp : Ends p working d a d') (hf : Ends (f a) working d' b d'') :
    Ends (p >>= f) working d b d'' := by
  intro s hworking hdisk
  obtain ⟨rfl, hworking', hdisk'⟩ := hp s hworking hdisk
  exact hf _ hworking' hdisk'

theorem map {p : StateM Session α} {a : α} (f : α → β) (hp : Ends p working d a d') :
    Ends (f <$> p) working d (f a) d' := by
  intro s hworking hdisk
  obtain ⟨rfl, hworking', hdisk'⟩ := hp s hworking hdisk
  exact ⟨rfl, hworking', hdisk'⟩

theorem tell (message : Message) : Ends (Host.tell message) working d () d :=
  fun _ hworking hdisk => ⟨rfl, hworking, hdisk⟩

theorem workingFolder : Ends Host.working working d working d :=
  fun _ hworking hdisk => ⟨hworking, hworking, hdisk⟩

theorem isFile (path : String) : Ends (Host.isFile path) working d (d.isFile working path) d := by
  rintro s rfl rfl
  exact ⟨rfl, rfl, rfl⟩

theorem isFolder (path : String) :
    Ends (Host.isFolder path) working d (d.isFolder working path) d := by
  rintro s rfl rfl
  exact ⟨rfl, rfl, rfl⟩

theorem read (path : String) : Ends (Host.read path) working d (d.read working path) d := by
  rintro s rfl rfl
  exact ⟨rfl, rfl, rfl⟩

theorem filesBelow (path : String) :
    Ends (Host.filesBelow path) working d (d.filesBelow working path) d := by
  rintro s rfl rfl
  exact ⟨rfl, rfl, rfl⟩

theorem write_ok {path text : String} (h : d.write working path text = .ok d') :
    Ends (Host.write path text) working d (.ok ()) d' := by
  rintro s rfl rfl
  simp [Host.write, StateT.bind, Bind.bind, get, getThe, MonadStateOf.get, StateT.get, modify,
    modifyGet, MonadStateOf.modifyGet, StateT.modifyGet, Pure.pure, StateT.pure, h]

theorem write_error {path text : String} {e : FileError} (h : d.write working path text = .error e) :
    Ends (Host.write path text) working d (.error e) d := by
  rintro s rfl rfl
  simp [Host.write, StateT.bind, Bind.bind, get, getThe, MonadStateOf.get, StateT.get, Pure.pure,
    StateT.pure, h]

theorem mapM {f : α → StateM Session β} {g : α → β} (hf : ∀ a, Ends (f a) working d (g a) d)
    (as : List α) : Ends (as.mapM f) working d (as.map g) d := by
  induction as with
  | nil => exact pure []
  | cons a as ih =>
    rw [List.mapM_cons]
    exact (hf a).bind (ih.bind (pure _))

end Ends

namespace Disk

def sourcePaths (d : Disk) (working folder : String) : List String :=
  if d.isFolder working folder then
    ((d.filesBelow working folder).filter fun names =>
      [".xml"].contains (Path.ending (names.getLastD ""))).filterMap
        (listedPath? (Path.absolute working folder))
  else []

def sources (d : Disk) (working folder : String) : List (String × Option String) :=
  (d.sourcePaths working folder).map fun path => (path, (d.read working path).toOption)

def cacheText (d : Disk) (working path : String) : Option String :=
  if d.isFile working path then (d.read working path).toOption else none

def inputs (d : Disk) (working : String) (o : Options) (folder : String) : Inputs :=
  { working, folder, sources := d.sources working folder,
    model := o.modelPath.map (d.read working), cache := o.cachePath.bind (d.cacheText working) }

def perform (d : Disk) (working : String) : List Step → Except Failure Unit × Disk
  | [] => (.ok (), d)
  | .tell _ :: steps => d.perform working steps
  | .write path text :: steps =>
    match d.write working path text with
    | .error e => (.error (.file e), d)
    | .ok d => d.perform working steps

def runScript (d : Disk) (working : String) (s : Script Unit) : Except Failure Unit × Disk :=
  match d.perform working s.steps with
  | (.error e, d) => (.error e, d)
  | (.ok (), d) => (s.result, d)

variable [ParserStack]

def analyse (d : Disk) (working : String) (o : Options) (k : Kind) (folder : String) :
    Except Failure Unit × Disk :=
  d.runScript working ((d.inputs working o folder).analyse o k)

end Disk

section Programs

variable {working : String} {d : Disk}

theorem ends_runSteps (steps : List Step) :
    Ends (runSteps steps) working d (d.perform working steps).1 (d.perform working steps).2 := by
  induction steps generalizing d with
  | nil => exact .pure _
  | cons step steps ih =>
    cases step with
    | tell message => exact (Ends.tell message).bind ih
    | write path text =>
      rw [Disk.perform, runSteps]
      cases hwrite : d.write working path text with
      | error e => exact (Ends.write_error hwrite).bind (.pure _)
      | ok d' => exact (Ends.write_ok hwrite).bind ih

theorem ends_run (s : Script Unit) :
    Ends s.run working d (d.runScript working s).1 (d.runScript working s).2 := by
  refine (ends_runSteps s.steps).bind ?_
  rw [Disk.runScript]
  obtain ⟨result, d'⟩ := d.perform working s.steps
  cases result <;> exact .pure _

theorem ends_readSources (folder : String) :
    Ends (readSources folder) working d (d.sources working folder) d := by
  have hpaths : Ends (listFiles folder [".xml"]) working d (d.sourcePaths working folder) d := by
    refine (Ends.isFolder folder).bind ?_
    rw [Disk.sourcePaths]
    split
    · exact Ends.workingFolder.bind ((Ends.filesBelow folder).bind (.pure _))
    · exact .pure _
  have hread : ∀ path, Ends (do return (path, (← Host.read path).toOption)) working d
      (path, (d.read working path).toOption) d := fun path => (Ends.read path).bind (.pure _)
  exact hpaths.bind (Ends.mapM hread _)

theorem ends_readIfFile (path : String) :
    Ends (readIfFile path) working d (d.cacheText working path) d := by
  refine (Ends.isFile path).bind ?_
  rw [Disk.cacheText]
  split
  · refine (Ends.read path).bind ?_
    cases d.read working path <;> exact .pure _
  · exact .pure _

theorem ends_gather (o : Options) (folder : String) :
    Ends (gather o folder) working d (d.inputs working o folder) d := by
  have hcache : ∀ path, Ends (readIfFile path) working d (d.cacheText working path) d :=
    ends_readIfFile
  have hmodel : ∀ path, Ends (some <$> Host.read path) working d (some (d.read working path)) d :=
    fun path => (Ends.read path).map some
  refine Ends.workingFolder.bind ((ends_readSources folder).bind ?_)
  unfold Disk.inputs
  cases o.modelPath with
  | none =>
    cases o.cachePath with
    | none => exact (Ends.pure none).bind ((Ends.pure none).bind (.pure _))
    | some cache => exact (Ends.pure none).bind ((hcache cache).bind (.pure _))
  | some model =>
    cases o.cachePath with
    | none => exact (hmodel model).bind ((Ends.pure none).bind (.pure _))
    | some cache => exact (hmodel model).bind ((hcache cache).bind (.pure _))

variable [ParserStack]

theorem ends_analyseFolder (o : Options) (k : Kind) (folder : String) :
    Ends (analyseFolder o k folder) working d (d.analyse working o k folder).1
      (d.analyse working o k folder).2 :=
  (ends_gather o folder).bind (ends_run _)

theorem ends_project (o : Options) (k : Kind) (folder : String) :
    Ends ((Task.project folder).run o k) working d
      (d.analyse working o k (Path.join folder sourceFolder)).1
      (d.analyse working o k (Path.join folder sourceFolder)).2 :=
  (Ends.tell _).bind ((ends_analyseFolder o k _).bind ((Ends.tell _).bind (.pure _)))

end Programs
end Variability
