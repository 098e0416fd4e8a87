import Mathlib
import Variability.Proofs.Scattering.Count

/-!
Counting with several workers. A worker takes the next file that waits, counts its directives, and
adds the counts to the common tally while it holds the lock, one name after the other.
-/

set_option autoImplicit false

namespace Variability

/-- The file whose worker holds the lock, and those of its counts that are not yet added. -/
structure Merge where
  file : Code.SourceFile
  counts : List (String × Int)

structure Pool where
  waiting : List Code.SourceFile
  running : List Code.SourceFile
  lock : Option Merge
  tally : Tally

namespace Pool

/-- The files are submitted before the first of them is taken. -/
def start (model : Option Model) (files : List Code.SourceFile) : Pool :=
  ⟨files, [], none, .start model⟩

def workers (threads : Int) : Nat := (max 1 threads).toNat

def busy (p : Pool) : Nat := p.running.length + p.lock.toList.length

def Finished (p : Pool) : Prop := p.waiting = [] ∧ p.running = [] ∧ p.lock = none

inductive Step (model : Option Model) (threads : Int) : Pool → Pool → Prop where
  | take (f : Code.SourceFile) (waiting running : List Code.SourceFile) (lock : Option Merge)
      (t : Tally) (idle : busy ⟨f :: waiting, running, lock, t⟩ < workers threads) :
      Step model threads ⟨f :: waiting, running, lock, t⟩ ⟨waiting, running ++ [f], lock, t⟩
  | acquire (f : Code.SourceFile) (waiting before after : List Code.SourceFile) (t : Tally) :
      Step model threads ⟨waiting, before ++ f :: after, none, t⟩
        ⟨waiting, before ++ after, some ⟨f, fileCounts model f⟩, t⟩
  | add (count : String × Int) (counts : List (String × Int)) (f : Code.SourceFile)
      (waiting running : List Code.SourceFile) (t : Tally) :
      Step model threads ⟨waiting, running, some ⟨f, count :: counts⟩, t⟩
        ⟨waiting, running, some ⟨f, counts⟩, t.addCount model count⟩
  | release (f : Code.SourceFile) (waiting running : List Code.SourceFile) (t : Tally) :
      Step model threads ⟨waiting, running, some ⟨f, []⟩, t⟩ ⟨waiting, running, none, t⟩

def Runs (model : Option Model) (threads : Int) : Pool → Pool → Prop :=
  Relation.ReflTransGen (Step model threads)

/-- The tally is that of the merged files, and of the counts already added under the lock. -/
inductive Merged (model : Option Model) (p : Pool) : List Code.SourceFile → Prop where
  | free {files : List Code.SourceFile} (unlocked : p.lock = none)
      (holds : p.tally.Holds model files) : Merged model p files
  | locked {files : List Code.SourceFile} {base : Tally} {f : Code.SourceFile}
      {added counts : List (String × Int)} (merging : p.lock = some ⟨f, counts⟩)
      (split : fileCounts model f = added ++ counts) (holds : base.Holds model files)
      (tally : p.tally = base.addFile model added) : Merged model p files

def pending (p : Pool) : List Code.SourceFile :=
  p.lock.toList.map Merge.file ++ p.running ++ p.waiting

/-- Every file is merged or pending, and none is both. -/
def Accounts (model : Option Model) (files : List Code.SourceFile) (p : Pool) : Prop :=
  ∃ merged, p.Merged model merged ∧ (merged ++ p.pending).Perm files

variable {model : Option Model} {threads : Int} {files : List Code.SourceFile} {p q : Pool}

theorem accounts_start (hmodel : ∀ m ∈ model, (m.toList.map Variable.name).Nodup) :
    (start model files).Accounts model files :=
  ⟨[], .free rfl (Tally.holds_start hmodel), .refl files⟩

theorem Step.accounts (hstep : Step model threads p q) (h : p.Accounts model files) :
    q.Accounts model files := by
  obtain ⟨merged, hmerged, hperm⟩ := h
  cases hstep with
  | take f waiting running lock t idle =>
    refine ⟨merged, ?_, by simpa [pending] using hperm⟩
    cases hmerged with
    | free unlocked holds => exact .free unlocked holds
    | locked merging split holds tally => exact .locked merging split holds tally
  | acquire f waiting before after t =>
    cases hmerged with
    | free unlocked holds =>
      have hmoved : (f :: (before ++ after)).Perm (before ++ f :: after) := List.perm_middle.symm
      exact ⟨merged, .locked rfl (List.nil_append _).symm holds rfl,
        ((hmoved.append_right waiting).append_left merged).trans hperm⟩
    | locked merging => cases merging
  | add count counts f waiting running t =>
    cases hmerged with
    | free unlocked => cases unlocked
    | locked merging split holds tally =>
      cases merging
      refine ⟨merged, .locked rfl (split.trans (List.append_cons _ _ _)) holds ?_, hperm⟩
      simp only at tally
      rw [tally, Tally.addFile, Tally.addFile, List.foldl_append, List.foldl_cons, List.foldl_nil]
  | release f waiting running t =>
    cases hmerged with
    | free unlocked => cases unlocked
    | locked merging split holds tally =>
      cases merging
      simp only [List.append_nil] at split tally
      refine ⟨merged ++ [f], .free rfl ?_, by simpa [pending] using hperm⟩
      simpa [tally, ← split] using holds.addFile f

theorem Runs.accounts (hruns : Runs model threads p q) (h : p.Accounts model files) :
    q.Accounts model files := by
  induction hruns with
  | refl => exact h
  | tail _ hstep ih => exact hstep.accounts ih

/-- When all is done the tally is that of the files, in whatever order they were merged. -/
theorem Accounts.holds (h : p.Accounts model files) (hfinished : p.Finished) :
    p.tally.Holds model files := by
  obtain ⟨merged, hmerged, hperm⟩ := h
  obtain ⟨hwaiting, hrunning, hlock⟩ := hfinished
  cases hmerged with
  | free _ holds =>
    refine holds.perm ?_
    simpa [pending, hwaiting, hrunning, hlock] using hperm
  | locked merging => simp [hlock] at merging

def work (model : Option Model) (p : Pool) : Nat :=
  (p.waiting.map fun f => (fileCounts model f).length + 3).sum +
    (p.running.map fun f => (fileCounts model f).length + 2).sum +
    (p.lock.toList.map fun m => m.counts.length + 1).sum

theorem Step.work_eq (h : Step model threads p q) : p.work model = q.work model + 1 := by
  cases h <;> simp [work] <;> omega

theorem one_le_workers (threads : Int) : 1 ≤ workers threads := by
  unfold workers
  omega

/-- A pool that is not done has a worker that can go on: the one with the lock, else one that waits for
it, else one that is idle. -/
theorem exists_step (model : Option Model) (threads : Int) {p : Pool} (hopen : ¬ p.Finished) :
    ∃ q, Step model threads p q := by
  obtain ⟨waiting, running, lock, t⟩ := p
  match lock, running, waiting with
  | some ⟨f, []⟩, _, _ => exact ⟨_, .release _ _ _ _⟩
  | some ⟨f, count :: counts⟩, _, _ => exact ⟨_, .add _ _ _ _ _ _⟩
  | none, f :: after, _ => exact ⟨_, .acquire f _ [] after t⟩
  | none, [], f :: waiting => exact ⟨_, .take f waiting [] none t (one_le_workers threads)⟩
  | none, [], [] => exact absurd ⟨rfl, rfl, rfl⟩ hopen

theorem exists_finished (model : Option Model) (threads : Int) (p : Pool) :
    ∃ q, Runs model threads p q ∧ q.Finished := by
  induction hwork : p.work model generalizing p with
  | zero =>
    refine ⟨p, .refl, ?_⟩
    by_contra hopen
    obtain ⟨q, hstep⟩ := exists_step model threads hopen
    have := hstep.work_eq
    omega
  | succ n ih =>
    by_cases hopen : p.Finished
    · exact ⟨p, .refl, hopen⟩
    · obtain ⟨q, hstep⟩ := exists_step model threads hopen
      have hq : q.work model = n := by
        have := hstep.work_eq
        omega
      obtain ⟨r, hruns, hfinished⟩ := ih q hq
      exact ⟨r, .head hstep hruns, hfinished⟩

end Pool

theorem countDegrees_perm {model : Option Model} {files order : List Code.SourceFile}
    (hmodel : ∀ m ∈ model, (m.toList.map Variable.name).Nodup) (h : files.Perm order) :
    countDegrees model order = countDegrees model files :=
  ((Tally.holds_foldl hmodel files).perm h).degreesOf_eq (Tally.holds_foldl hmodel order) |>.symm

theorem contains_countDegrees {model : Option Model} {files : List Code.SourceFile}
    (hmodel : ∀ m ∈ model, (m.toList.map Variable.name).Nodup) {name : String} :
    (countDegrees model files).contains name ↔ Listed model files name := by
  simp only [Degrees.contains, Degrees.find?, List.find?_isSome, decide_eq_true_eq]
  constructor
  · rintro ⟨d, hd, rfl⟩
    exact ((mem_countDegrees hmodel).1 hd).1
  · intro hlisted
    have hname := name_degreeIn model files name
    refine ⟨degreeIn model files name, (mem_countDegrees hmodel).2 ?_, hname⟩
    rw [hname]
    exact ⟨hlisted, rfl⟩

/-- The degrees of some files, whatever the workers do: they are those of the declared names and of
those that a directive mentions, sorted by name, with the numbers of directives and of files. -/
theorem countDegrees_exact (declared : Option (List Variable)) (files : List Code.SourceFile)
    (threads : Int) :
    let model := declared.map Model.ofList
    let degrees := countDegrees model files
    (∀ p, Pool.Runs model threads (.start model files) p →
      (∃ q, Pool.Runs model threads p q ∧ q.Finished) ∧
        (p.Finished → p.tally.degreesOf = degrees)) ∧
    (∀ order, files.Perm order → countDegrees model order = degrees) ∧
    degrees.toList.Pairwise (fun c d => c.name < d.name) ∧
    (∀ name, degrees.contains name ↔
      model.any (·.declares name) ∨ ∃ f ∈ files, ∃ b ∈ f.blocks.walk, b.Mentions model name) ∧
    ∀ d ∈ degrees.toList,
      d.subject = subjectOf model d.name ∧ d.ifdefs = directivesWith model files d.name ∧
        d.files = filesWith model files d.name ∧ d.files ≤ d.ifdefs ∧
        (d.files = 0 ↔ d.ifdefs = 0) := by
  intro model degrees
  have hmodel : ∀ m ∈ model, (m.toList.map Variable.name).Nodup := by
    intro m hm
    obtain ⟨vs, -, rfl⟩ := Option.map_eq_some_iff.1 hm
    exact Model.nodup_names_ofList vs
  have hholds := Tally.holds_foldl hmodel files
  refine ⟨fun p hruns => ⟨Pool.exists_finished model threads p, fun hfinished => ?_⟩,
    fun order => countDegrees_perm hmodel, Degrees.strictly_sorted hholds.nodup, fun name => ?_,
    fun d hd => ?_⟩
  · have haccounts := hruns.accounts (Pool.accounts_start hmodel)
    exact (haccounts.holds hfinished).degreesOf_eq hholds
  · exact (contains_countDegrees hmodel).trans (or_congr_right directivesWith_pos_iff)
  · obtain ⟨-, hdegree⟩ := (mem_countDegrees hmodel).1 hd
    have hifdefs : d.ifdefs = directivesWith model files d.name := congrArg Degree.ifdefs hdegree
    have hfiles : d.files = filesWith model files d.name := congrArg Degree.files hdegree
    have hle := filesWith_le_directivesWith model files d.name
    have hzero : filesWith model files d.name = 0 ↔ directivesWith model files d.name = 0 :=
      filesWith_eq_zero_iff
    refine ⟨congrArg Degree.subject hdegree, hifdefs, hfiles, ?_, ?_⟩ <;> omega

end Variability
