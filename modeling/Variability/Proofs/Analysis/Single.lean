import Variability.Proofs.Analysis.Copy
import Variability.Proofs.Analysis.Jobs

set_option autoImplicit false

namespace Variability

namespace Ends

variable {working : String} {d : Disk}

theorem makeFolder (path : String) :
    Ends (Host.makeFolder path) working d () (d.makeFolder working path) := by
  rintro s rfl rfl
  exact ⟨rfl, rfl, rfl⟩

theorem remove (path : String) : Ends (Host.remove path) working d () (d.remove working path) := by
  rintro s rfl rfl
  exact ⟨rfl, rfl, rfl⟩

end Ends

section Binds

variable {α : Type} (s : Session)

theorem makeTemporary_bind (ending : String) (f : String → StateM Session α) :
    (Host.makeTemporary ending >>= f) s =
      f (s.freshFolder ending) { s with disk := s.disk.makeFolder s.working (s.freshFolder ending) } := rfl

theorem working_bind (f : String → StateM Session α) : (Host.working >>= f) s = f s.working s := rfl

theorem isFile_bind (path : String) (f : Bool → StateM Session α) :
    (Host.isFile path >>= f) s = f (s.disk.isFile s.working path) s := rfl

end Binds

section Programs

variable {working : String} {d : Disk} {o : Options} {k : Kind}

theorem ends_copy (source target : String) :
    Ends (copy source target) working d (d.copy working source target).1
      (d.copy working source target).2 := by
  refine (Ends.read source).bind ?_
  unfold Disk.copy
  cases d.read working source with
  | error e => exact .pure _
  | ok text =>
    simp only
    cases hwrite : d.write working target text with
    | error e => exact (Ends.write_error hwrite).bind (.pure _)
    | ok d' => exact (Ends.write_ok hwrite).bind (.pure _)

variable [ParserStack]

theorem ends_analyseCopy (temporary input output : String) :
    Ends (analyseCopy o k temporary input output) working d
      (d.analyseCopy working o k temporary input output).1
      (d.analyseCopy working o k temporary input output).2 := by
  refine (ends_copy input _).bind ?_
  unfold Disk.analyseCopy Disk.copyPath
  rcases d.copy working input _ with ⟨copied, d₁⟩
  cases copied with
  | error e => exact .pure _
  | ok u =>
    refine (ends_analyseFolder o k _).bind ?_
    simp only
    rcases d₁.analyse working o k _ with ⟨analysed, d₂⟩
    cases analysed with
    | error e => exact .pure _
    | ok u =>
      simp only
      split
      · exact .pure _
      · exact ends_copy _ _

def runInside (o : Options) (k : Kind) (input output temporary : String) :
    StateM Session (Except Failure Unit) := do
  Host.makeFolder (Path.join temporary sourceFolder)
  Host.tell (.starting (Setting.label k) (Path.baseName input))
  let result ← analyseCopy o k temporary input output
  Host.remove temporary
  Host.tell (.finished (Setting.label k) (Path.baseName input))
  return result

theorem ends_runInside (temporary input output : String) :
    Ends (runInside o k input output temporary) working (d.makeFolder working temporary)
      (d.runSingle working o k temporary input output).1
      (d.runSingle working o k temporary input output).2 :=
  (Ends.makeFolder _).bind ((Ends.tell _).bind ((ends_analyseCopy _ _ _).bind
    ((Ends.remove _).bind ((Ends.tell _).bind (.pure _)))))

theorem run_single (o : Options) (k : Kind) (input output : String) :
    ((Task.single input output).run o k : StateM Session (Except Failure Unit)) =
      Host.makeTemporary sourceFolder >>= runInside o k input output := rfl

end Programs

section Command

variable {s : Session} {o : Options} {k : Kind} {input output : String}

variable [ParserStack]

theorem command_single (hsingle : o.single = some (input, output)) :
    s.command o =
      if s.disk.isFile s.working (Path.absolute s.working input) then
        (runOne o o.kind (.single (Path.absolute s.working input) (Path.absolute s.working output)) >>=
          Ending.ofResult : StateM Session Ending) s
      else (Ending.refuse (.missingInput (Path.absolute s.working input)) : StateM Session Ending) s := by
  rw [Session.command, Options.run, working_bind]
  simp only [hsingle]
  rw [isFile_bind]
  split <;> rfl

/-- A command for a single file that is there does the run for it. -/
theorem command_eq_runSingle (hsingle : o.single = some (input, output)) (hkind : o.kind = .value k)
    (hfile : s.disk.isFile s.working (Path.absolute s.working input)) :
    let run := s.disk.runSingle s.working o k (s.freshFolder sourceFolder)
      (Path.absolute s.working input) (Path.absolute s.working output)
    (s.command o).1 = .of run.1 ∧ (s.command o).2.disk = run.2 := by
  intro run
  have hinside : Ends (runInside o k (Path.absolute s.working input) (Path.absolute s.working output)
      (s.freshFolder sourceFolder) >>= Ending.ofResult) s.working
      (s.disk.makeFolder s.working (s.freshFolder sourceFolder)) (.of run.1) run.2 :=
    (ends_runInside _ _ _).bind (ends_ofResult _)
  have hrun := hinside { s with disk := s.disk.makeFolder s.working (s.freshFolder sourceFolder) } rfl rfl
  rw [command_single hsingle, if_pos hfile, hkind, runOne, run_single, bind_assoc, makeTemporary_bind]
  exact ⟨hrun.1, hrun.2.2⟩

theorem command_idle (hsingle : o.single = some (input, output))
    (h : s.disk.isFile s.working (Path.absolute s.working input) → o.kind = .nothing) :
    (s.command o).1 ≠ .exit 0 ∧ (s.command o).2.disk = s.disk := by
  rw [command_single hsingle]
  split
  · next hfile =>
    rw [h hfile]
    have hended : Ends (Ending.ofResult (.error .valueless)) s.working s.disk
        (.of (.error .valueless)) s.disk := ends_ofResult _
    obtain ⟨hending, -, hdisk⟩ := hended s rfl rfl
    exact ⟨fun hzero => absurd (hending.symm.trans hzero) (by decide), hdisk⟩
  · have hrefused : Ends (Ending.refuse (.missingInput (Path.absolute s.working input))) s.working s.disk
        (.exit 1) s.disk := (Ends.tell _).bind (.pure _)
    obtain ⟨hending, -, hdisk⟩ := hrefused s rfl rfl
    exact ⟨fun hzero => absurd (hending.symm.trans hzero) (by decide), hdisk⟩

end Command

def Session.temporaryPlace (s : Session) : Place := placeOf s.working (s.freshFolder sourceFolder)

/-- The temporary folder is named by its place, it is new, and some paths do not lead through it. -/
structure TemporaryApart (s : Session) (paths : List String) : Prop where
  named : Path.ofNames (placeOf s.working s.temporary) = s.temporary
  new : ∀ e ∈ s.disk.entries, ¬ s.temporaryPlace <+: e.1
  avoided : ∀ path ∈ paths, Disk.Avoids s.working path (s.temporaryPlace <+: ·)

instance (s : Session) (paths : List String) : Decidable (TemporaryApart s paths) :=
  decidable_of_iff (Path.ofNames (placeOf s.working s.temporary) = s.temporary ∧
      (∀ e ∈ s.disk.entries, ¬ s.temporaryPlace <+: e.1) ∧
      ∀ path ∈ paths, Disk.Avoids s.working path (s.temporaryPlace <+: ·))
    ⟨fun ⟨named, new, avoided⟩ => ⟨named, new, avoided⟩, fun h => ⟨h.named, h.new, h.avoided⟩⟩

theorem TemporaryApart.freshFolder_eq {s : Session} {paths : List String} (h : TemporaryApart s paths) :
    s.freshFolder sourceFolder = Path.ofNames s.temporaryPlace ∧
      (∀ name ∈ s.temporaryPlace, Path.IsName name) ∧ s.temporaryPlace ≠ [] := by
  have hnames : ∀ name ∈ placeOf s.working s.temporary, Path.IsName name := fun _ => isName_of_mem_placeOf
  obtain ⟨n, hn⟩ : ∃ n, s.freshFolder sourceFolder =
      Path.join s.temporary (Session.temporaryName n sourceFolder) := ⟨_, rfl⟩
  rw [← h.named, Path.join_ofNames hnames (isName_temporaryName n)] at hn
  have hall := Disk.isName_concat hnames (isName_temporaryName n)
  have hplace : s.temporaryPlace =
      placeOf s.working s.temporary ++ [Session.temporaryName n sourceFolder] := by
    rw [Session.temporaryPlace, hn, Disk.placeOf_ofNames hall]
  rw [hplace]
  exact ⟨hn, hall, by simp⟩

section AllOrNothing

variable [ParserStack]

/-- The analysis of a single file. If the temporary folder is a new one, and neither the output nor the model
nor the cache lies in it, and the cache is not the output, then nothing is left of the folder, and only the
cache and the output have changed. The output has not changed either unless the command ends well; then it is
the table of the kind for the copied file. -/
theorem command_all_or_nothing (s : Session) (o : Options) (input output : String)
    (hsingle : o.single = some (input, output)) (hworking : Path.isAbsolute s.working)
    (hapart : TemporaryApart s (output :: (o.modelPath.toList ++ o.cachePath.toList)))
    (hcache : ∀ cache ∈ o.cachePath, placeOf s.working cache ≠ placeOf s.working output) :
    let ending := (s.command o).1
    let left := (s.command o).2.disk
    (∀ place, s.temporaryPlace <+: place → left.node? place = none) ∧
    (∀ place, place ≠ placeOf s.working output → ¬ o.CachePlace s.working place →
      left.node? place = s.disk.node? place) ∧
    (ending ≠ .exit 0 →
      left.node? (placeOf s.working output) = s.disk.node? (placeOf s.working output)) ∧
    (ending = .exit 0 → ∃ k text table, o.kind = .value k ∧
      s.disk.read s.working (Path.absolute s.working input) = .ok text ∧
      (s.disk.copyInputs s.working o (s.freshFolder sourceFolder) (Path.absolute s.working input)
        text).resultText o k = .ok table ∧
      left.node? (placeOf s.working output) = some (.file table)) := by
  intro ending left
  obtain ⟨hfolder, hnames, hne⟩ := hapart.freshFolder_eq
  have houtput : placeOf s.working (Path.absolute s.working output) = placeOf s.working output :=
    placeOf_absolute hworking output
  have hnotCache : ¬ o.CachePlace s.working (placeOf s.working output) :=
    fun ⟨cache, hmem, hplace⟩ => hcache cache hmem hplace.symm
  by_cases hidle : s.disk.isFile s.working (Path.absolute s.working input) → o.kind = .nothing
  · obtain ⟨hending, hdisk⟩ := command_idle hsingle hidle
    have hleft : left = s.disk := hdisk
    refine ⟨fun place hplace => ?_, fun _ _ _ => by rw [hleft], fun _ => by rw [hleft],
      fun hzero => absurd hzero hending⟩
    rw [hleft]
    exact Disk.node?_fresh hne hapart.new hplace
  · obtain ⟨hfile, hkind⟩ := Classical.not_imp.1 hidle
    cases hk : o.kind with
    | nothing => exact absurd hk hkind
    | value k =>
      obtain ⟨hending, hdisk⟩ := command_eq_runSingle hsingle hk hfile
      rw [hfolder] at hending hdisk ⊢
      obtain ⟨hgone, hkept⟩ : (∀ place, s.temporaryPlace <+: place → left.node? place = none) ∧
          ∀ place, ¬ o.CachePlace s.working place → (_ → place ≠ _) → left.node? place = _ := by
        rw [show left = _ from hdisk]
        exact Disk.runSingle_frame hnames hne hapart.new k _ _
      rw [houtput] at hkept
      have hzero := Ending.of_eq_exit_zero (r := (s.disk.runSingle s.working o k
        (Path.ofNames s.temporaryPlace) (Path.absolute s.working input) (Path.absolute s.working output)).1)
      rw [← hending] at hzero
      refine ⟨hgone, fun place hplace hnot => hkept place hnot fun _ => hplace, fun hfailed => ?_,
        fun hended => ?_⟩
      · exact hkept _ hnotCache fun hok => absurd (hzero.2 hok) hfailed
      · have havoids : ∀ path ∈ o.modelPath.toList ++ o.cachePath.toList,
            Disk.Avoids s.working path (s.temporaryPlace <+: ·) := fun path hpath =>
          hapart.avoided path (List.mem_cons_of_mem _ hpath)
        have hbelow : ¬ s.temporaryPlace <+: placeOf s.working (Path.absolute s.working output) := by
          rw [houtput]
          exact (hapart.avoided output List.mem_cons_self).placeOf
        obtain ⟨text, table, hread, htable, hnode⟩ := Disk.runSingle_result hnames hne hapart.new hfile hbelow
          havoids (hzero.1 hended)
        rw [← hdisk, houtput] at hnode
        exact ⟨k, text, table, rfl, hread, htable, hnode⟩

end AllOrNothing

def oneSource : Session where
  disk := {
    entries := [
      (["tmp"], .folder), (["r"], .folder),
      (["r", "a.c"], .file ("<unit xmlns=\"http://www.srcML.org/srcML/cpp\">" ++
        "<ifdef>#<directive>ifdef</directive> <name>A</name></ifdef><endif/></unit>"))] }
  working := "/r"
  temporary := "/tmp"

def singleOptions : Options :=
  { kind := .value .perVariable, single := some ("a.c", "out.csv"), cache := .value (some "sd.csv") }

theorem command_all_or_nothing_variables :
    let left := (oneSource.command singleOptions).2.disk
    oneSource.temporaryPlace = ["tmp", "tmp0_cppmetrics"] ∧ left.node? ["tmp", "tmp0_cppmetrics"] = none ∧
    left.node? ["r", "a.c"] = oneSource.disk.node? ["r", "a.c"] ∧
    ∃ table, left.node? ["r", "out.csv"] = some (.file table) := by
  intro left
  have hplace : oneSource.temporaryPlace = ["tmp", "tmp0_cppmetrics"] := by decide +kernel
  have houtput : placeOf "/r" "out.csv" = ["r", "out.csv"] := by decide +kernel
  have hending : (oneSource.command singleOptions).1 = .exit 0 := by decide +kernel
  obtain ⟨hgone, hkept, -, htable⟩ := command_all_or_nothing oneSource singleOptions "a.c" "out.csv" rfl
    (by decide) (by decide +kernel) (by decide +kernel)
  obtain ⟨k, text, table, -, -, -, hnode⟩ := htable hending
  refine ⟨hplace, hgone _ (by rw [hplace]), hkept _ (by decide +kernel) ?_, table, ?_⟩
  · rintro ⟨cache, hcache, hplace⟩
    have hpath : singleOptions.cachePath = some "sd.csv" := by decide
    rw [Option.mem_def, hpath] at hcache
    cases hcache
    exact absurd hplace (by decide +kernel)
  · rw [← houtput]
    exact hnode

end Variability
