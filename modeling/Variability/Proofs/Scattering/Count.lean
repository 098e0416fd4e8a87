import Mathlib.Data.List.Induction
import Variability.Proofs.Scattering.Container
import Variability.Scattering.Count

/-!
What a tally holds after some files. Merging the counts of one file adds, for each variable, the
directives of this file that mention it and one file if there are any.
-/

set_option autoImplicit false

namespace Variability

/-- A variable of the own condition of the block stands for `name`. -/
def Code.Block.Mentions (model : Option Model) (name : String) (b : Code.Block) : Prop :=
  ∃ f, b.condition = some f ∧ ∃ n ∈ f.occurrences, normalizeName model n = name

theorem mem_mentionedIn {model : Option Model} {name : String} {b : Code.Block} :
    name ∈ mentionedIn model b.condition ↔ b.Mentions model name := by
  rw [mentionedIn, mem_firstOccurrences, List.mem_map]
  cases hc : b.condition with
  | none => simp [conditionNames, Code.Block.Mentions, hc]
  | some f => simp [conditionNames, Code.Block.Mentions, hc, Formula.mem_names]

instance (model : Option Model) (name : String) (b : Code.Block) : Decidable (b.Mentions model name) :=
  decidable_of_iff _ mem_mentionedIn

def Code.SourceFile.Mentions (model : Option Model) (name : String) (f : Code.SourceFile) : Prop :=
  ∃ b ∈ f.blocks.walk, b.Mentions model name

instance (model : Option Model) (name : String) (f : Code.SourceFile) :
    Decidable (f.Mentions model name) :=
  inferInstanceAs (Decidable (∃ b ∈ f.blocks.walk, b.Mentions model name))

def directivesWith (model : Option Model) (files : List Code.SourceFile) (name : String) : Nat :=
  (files.flatMap fun f => f.blocks.walk).countP fun b => b.Mentions model name

def filesWith (model : Option Model) (files : List Code.SourceFile) (name : String) : Nat :=
  files.countP fun f => f.Mentions model name

def subjectOf (model : Option Model) (name : String) : Variable :=
  (model.bind (·.find? name)).getD ⟨name, "unknown"⟩

def degreeIn (model : Option Model) (files : List Code.SourceFile) (name : String) : Degree :=
  ⟨subjectOf model name, directivesWith model files name, filesWith model files name⟩

/-- The names that are counted: the declared ones and those that some directive mentions. -/
def Listed (model : Option Model) (files : List Code.SourceFile) (name : String) : Prop :=
  model.any (·.declares name) ∨ 0 < directivesWith model files name

instance (model : Option Model) (files : List Code.SourceFile) (name : String) :
    Decidable (Listed model files name) :=
  inferInstanceAs (Decidable (_ ∨ _))

theorem nodup_names_declared (declared : Option (List Variable)) :
    ∀ m ∈ declared.map Model.ofList, (m.toList.map Variable.name).Nodup := by
  intro m hm
  obtain ⟨vs, -, rfl⟩ := Option.map_eq_some_iff.1 hm
  exact Model.nodup_names_ofList vs

theorem name_subjectOf (model : Option Model) (name : String) :
    (subjectOf model name).name = name := by
  unfold subjectOf
  cases hfound : model.bind (·.find? name) with
  | none => rfl
  | some v =>
    obtain ⟨m, _, hv⟩ := Option.bind_eq_some_iff.1 hfound
    simpa using List.find?_some hv

theorem name_degreeIn (model : Option Model) (files : List Code.SourceFile) (name : String) :
    (degreeIn model files name).name = name :=
  name_subjectOf model name

theorem directivesWith_concat (model : Option Model) (files : List Code.SourceFile)
    (f : Code.SourceFile) (name : String) :
    directivesWith model (files ++ [f]) name =
      directivesWith model files name + f.blocks.walk.countP fun b => b.Mentions model name := by
  simp [directivesWith, List.flatMap_append]

theorem filesWith_concat (model : Option Model) (files : List Code.SourceFile)
    (f : Code.SourceFile) (name : String) :
    filesWith model (files ++ [f]) name =
      filesWith model files name + if f.Mentions model name then 1 else 0 := by
  simp [filesWith, List.countP_append, List.countP_cons]

theorem mentions_iff_countP {model : Option Model} {name : String} {f : Code.SourceFile} :
    f.Mentions model name ↔ 0 < f.blocks.walk.countP fun b => b.Mentions model name := by
  simp [Code.SourceFile.Mentions, List.countP_pos_iff]

theorem filesWith_le_directivesWith (model : Option Model) (files : List Code.SourceFile)
    (name : String) : filesWith model files name ≤ directivesWith model files name := by
  induction files using List.reverseRecOn with
  | nil => exact Nat.le_refl 0
  | append_singleton files f ih =>
    rw [filesWith_concat, directivesWith_concat]
    split
    · next h =>
      have := mentions_iff_countP.1 h
      omega
    · omega

theorem directivesWith_pos_iff {model : Option Model} {files : List Code.SourceFile}
    {name : String} : 0 < directivesWith model files name ↔ ∃ f ∈ files, f.Mentions model name := by
  simp only [directivesWith, List.countP_pos_iff, List.mem_flatMap, decide_eq_true_eq,
    Code.SourceFile.Mentions]
  constructor
  · rintro ⟨b, ⟨f, hf, hb⟩, hmentions⟩
    exact ⟨f, hf, b, hb, hmentions⟩
  · rintro ⟨f, hf, b, hb, hmentions⟩
    exact ⟨b, ⟨f, hf, hb⟩, hmentions⟩

theorem filesWith_eq_zero_iff {model : Option Model} {files : List Code.SourceFile}
    {name : String} : filesWith model files name = 0 ↔ directivesWith model files name = 0 := by
  have hfiles : 0 < filesWith model files name ↔ ∃ f ∈ files, f.Mentions model name := by
    simp [filesWith, List.countP_pos_iff]
  have hboth := hfiles.trans directivesWith_pos_iff.symm
  omega

theorem directivesWith_perm {model : Option Model} {files order : List Code.SourceFile}
    (h : files.Perm order) (name : String) :
    directivesWith model files name = directivesWith model order name :=
  (h.flatMap_right _).countP_eq _

theorem filesWith_perm {model : Option Model} {files order : List Code.SourceFile}
    (h : files.Perm order) (name : String) :
    filesWith model files name = filesWith model order name :=
  h.countP_eq _

theorem nodup_mentionedIn (model : Option Model) (condition : Option Formula) :
    (mentionedIn model condition).Nodup := nodup_firstOccurrences _

/-- A directive counts once for a variable, with however many spellings it mentions it. -/
theorem count_mentions (model : Option Model) (f : Code.SourceFile) (name : String) :
    (mentions model f).count name = f.blocks.walk.countP fun b => b.Mentions model name := by
  unfold mentions
  induction f.blocks.walk with
  | nil => rfl
  | cons b bs ih =>
    have hb : (mentionedIn model b.condition).count name =
        if b.Mentions model name then 1 else 0 := by
      rw [(nodup_mentionedIn model b.condition).count]
      simp [mem_mentionedIn]
    rw [List.flatMap_cons, List.count_append, ih, hb, List.countP_cons, Nat.add_comm]
    simp

theorem mem_mentions {model : Option Model} {f : Code.SourceFile} {name : String} :
    name ∈ mentions model f ↔ f.Mentions model name := by
  rw [mentions_iff_countP, ← count_mentions, List.count_pos_iff]

namespace Tally

structure Holds (t : Tally) (model : Option Model) (files : List Code.SourceFile) : Prop where
  nodup : (t.degrees.map Degree.name).Nodup
  found : ∀ name, t.degrees.find? (·.name = name) =
    if Listed model files name then some (degreeIn model files name) else none

def current (t : Tally) (model : Option Model) (name : String) : Degree :=
  (t.degrees.find? (·.name = name)).getD ⟨subjectOf model name, 0, 0⟩

def increased (d : Degree) (n : Int) : Degree := { d with ifdefs := d.ifdefs + n, files := d.files + 1 }

theorem name_current (t : Tally) (model : Option Model) (name : String) :
    (t.current model name).name = name := by
  unfold current
  cases h : t.degrees.find? (·.name = name) with
  | none => exact name_subjectOf model name
  | some d => simpa using List.find?_some h

theorem addCount_eq (model : Option Model) (t : Tally) (name : String) (n : Int) :
    t.addCount model (name, n) =
      ⟨putBy Degree.name (increased (t.current model name) n) t.degrees⟩ := by
  simp only [addCount, current]
  cases t.degrees.find? (·.name = name) <;> rfl

theorem find?_addCount (model : Option Model) (t : Tally) (name other : String) (n : Int) :
    (t.addCount model (name, n)).degrees.find? (·.name = other) =
      if other = name then some (increased (t.current model name) n)
      else t.degrees.find? (·.name = other) := by
  have hname : (increased (t.current model name) n).name = name := t.name_current model name
  rw [addCount_eq]
  split
  · next h =>
    subst h
    have hself := find_putBy_self Degree.name (increased (t.current model other) n) t.degrees
    rwa [hname] at hself
  · next h => exact find_putBy_other Degree.name (by rw [hname]; exact Ne.symm h) t.degrees

theorem nodup_addFile {model : Option Model} {t : Tally} (counts : List (String × Int))
    (h : (t.degrees.map Degree.name).Nodup) :
    ((t.addFile model counts).degrees.map Degree.name).Nodup := by
  induction counts generalizing t with
  | nil => exact h
  | cons count counts ih =>
    refine ih ?_
    rw [addCount_eq]
    exact nodup_keys_putBy h

theorem find?_addFile (model : Option Model) {names : List String} (hnodup : names.Nodup)
    (n : String → Int) (t : Tally) (name : String) :
    (t.addFile model (names.map fun name => (name, n name))).degrees.find? (·.name = name) =
      if name ∈ names then some (increased (t.current model name) (n name))
      else t.degrees.find? (·.name = name) := by
  induction names generalizing t with
  | nil => rfl
  | cons first names ih =>
    obtain ⟨hfirst, hnames⟩ := List.nodup_cons.1 hnodup
    have hstep := ih hnames (t.addCount model (first, n first))
    have hcurrent : name ≠ first →
        (t.addCount model (first, n first)).current model name = t.current model name := by
      intro hne
      rw [current, find?_addCount, if_neg hne, current]
    rw [List.map_cons, addFile, List.foldl_cons, ← addFile, hstep, find?_addCount]
    by_cases hname : name = first
    · subst hname
      simp [hfirst]
    · by_cases hmem : name ∈ names <;> simp [hname, hmem, hcurrent]

theorem find?_start (model : Option Model) (name : String) :
    (start model).degrees.find? (·.name = name) =
      (model.bind (·.find? name)).map fun v => ⟨v, 0, 0⟩ := by
  cases model with
  | none => rfl
  | some m => exact List.find?_map

theorem holds_start {model : Option Model}
    (hmodel : ∀ m ∈ model, (m.toList.map Variable.name).Nodup) : (start model).Holds model [] where
  nodup := by
    cases model with
    | none => exact List.nodup_nil
    | some m => simpa [start, Degree.name, Function.comp_def] using hmodel m rfl
  found name := by
    rw [find?_start]
    cases model with
    | none => simp [Listed, directivesWith]
    | some m =>
      cases hfound : m.find? name <;>
        simp [Listed, degreeIn, subjectOf, directivesWith, filesWith, Model.declares, hfound]

variable {model : Option Model} {t : Tally} {files order : List Code.SourceFile}

theorem Holds.current_eq (h : t.Holds model files) (name : String) :
    t.current model name = degreeIn model files name := by
  rw [current, h.found]
  split
  · rfl
  · next hlisted =>
    have hdirectives : directivesWith model files name = 0 := by
      have := mt Or.inr hlisted
      omega
    have hfiles := filesWith_eq_zero_iff.2 hdirectives
    simp [degreeIn, hdirectives, hfiles]

theorem Holds.addFile (h : t.Holds model files) (f : Code.SourceFile) :
    (t.addFile model (fileCounts model f)).Holds model (files ++ [f]) where
  nodup := nodup_addFile _ h.nodup
  found name := by
    have hstep := find?_addFile model (nodup_firstOccurrences (mentions model f))
      (fun name => ((mentions model f).count name : Int)) t name
    rw [fileCounts, hstep, h.current_eq, h.found]
    simp only [mem_firstOccurrences, mem_mentions]
    have hcount := count_mentions model f name
    by_cases hf : f.Mentions model name
    · have hpos := mentions_iff_countP.1 hf
      have hlisted : Listed model (files ++ [f]) name := by
        right
        rw [directivesWith_concat]
        omega
      rw [if_pos hf, if_pos hlisted]
      simp [degreeIn, increased, directivesWith_concat, filesWith_concat, hf, hcount]
    · have hzero : f.blocks.walk.countP (fun b => b.Mentions model name) = 0 :=
        Nat.eq_zero_of_not_pos (mt mentions_iff_countP.2 hf)
      have hlisted : Listed model (files ++ [f]) name ↔ Listed model files name := by
        simp [Listed, directivesWith_concat, hzero]
      have hdegree : degreeIn model (files ++ [f]) name = degreeIn model files name := by
        simp [degreeIn, directivesWith_concat, filesWith_concat, hf, hzero]
      rw [if_neg hf, hdegree]
      exact if_congr hlisted.symm rfl rfl

theorem holds_foldl (hmodel : ∀ m ∈ model, (m.toList.map Variable.name).Nodup)
    (files : List Code.SourceFile) :
    (files.foldl (fun t f => t.addFile model (fileCounts model f)) (start model)).Holds model
      files := by
  induction files using List.reverseRecOn with
  | nil => exact holds_start hmodel
  | append_singleton files f ih =>
    rw [List.foldl_append]
    exact ih.addFile f

theorem Holds.perm (h : t.Holds model files) (hperm : files.Perm order) : t.Holds model order where
  nodup := h.nodup
  found name := by
    have hlisted : Listed model files name ↔ Listed model order name := by
      rw [Listed, Listed, directivesWith_perm hperm]
    rw [h.found, degreeIn, degreeIn, directivesWith_perm hperm, filesWith_perm hperm]
    exact if_congr hlisted rfl rfl

theorem Holds.mem_degrees (h : t.Holds model files) {d : Degree} :
    d ∈ t.degrees ↔ Listed model files d.name ∧ d = degreeIn model files d.name := by
  have hfound := find?_key_eq_some_iff h.nodup (a := d) (k := d.name)
  rw [h.found] at hfound
  rw [← and_iff_left (a := d ∈ t.degrees) (rfl : d.name = d.name), ← hfound]
  split
  · next hlisted => simp [hlisted, eq_comm]
  · next hlisted => simp [hlisted]

theorem Holds.degreesOf_eq {u : Tally} (ht : t.Holds model files) (hu : u.Holds model files) :
    t.degreesOf = u.degreesOf :=
  Degrees.ofList_congr ht.nodup hu.nodup fun _ => ht.mem_degrees.trans hu.mem_degrees.symm

end Tally

theorem mem_countDegrees {model : Option Model} {files : List Code.SourceFile}
    (hmodel : ∀ m ∈ model, (m.toList.map Variable.name).Nodup) {d : Degree} :
    d ∈ (countDegrees model files).toList ↔
      Listed model files d.name ∧ d = degreeIn model files d.name := by
  have hholds := Tally.holds_foldl hmodel files
  rw [← hholds.mem_degrees]
  exact Degrees.mem_ofList hholds.nodup

theorem find?_countDegrees {model : Option Model} (files : List Code.SourceFile)
    (hmodel : ∀ m ∈ model, (m.toList.map Variable.name).Nodup) (name : String) :
    (countDegrees model files).find? name =
      if Listed model files name then some (degreeIn model files name) else none := by
  have hname := name_degreeIn model files name
  have hnodup : ((countDegrees model files).toList.map Degree.name).Nodup := Degrees.nodup_names_ofList _
  split
  · next h =>
    refine (find?_key_eq_some_iff hnodup).2 ⟨(mem_countDegrees hmodel).2 ?_, hname⟩
    rw [hname]
    exact ⟨h, rfl⟩
  · next h =>
    refine find?_key_eq_none_iff.2 fun hmem => h ?_
    obtain ⟨d, hd, rfl⟩ := List.mem_map.1 hmem
    exact ((mem_countDegrees hmodel).1 hd).1

end Variability
