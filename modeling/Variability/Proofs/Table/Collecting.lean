import Mathlib
import Variability.Proofs.Table.Contents

/-!
Metrics that are collected at the same time, each by a thread of its own. A thread adds the next
finding of its metric while it holds the lock, so that an added entry is one step.
-/

set_option autoImplicit false

namespace Variability

open Table (Entry Location SameByMetric)

structure Collection where
  sheet : Sheet
  running : List Stream
  /-- The entries in the order in which they were added. -/
  added : List Entry := []
  warnings : List Message := []
  remarks : List Message := []
  failures : List Failure := []

namespace Collection

/-- All metrics have their columns before any thread starts. -/
def start (s : Sheet) (streams : List Stream) : Collection :=
  { sheet := streams.foldl (fun s t => s.register t.name) s, running := streams }

def Finished (c : Collection) : Prop := c.running = []

/-- What is raised when all threads are done: the failure that came first. -/
def raised (c : Collection) : Option Failure := c.failures.head?

/-- One step of one thread. -/
inductive Step : Collection → Collection → Prop where
  | tell (name : String) (findings : List Finding) (message : Message) (messages : List Message)
      (failure : Option Failure) (before after : List Stream) (c : Collection) :
      Step { c with running := before ++ ⟨name, findings, message :: messages, failure⟩ :: after }
        { c with
          running := before ++ ⟨name, findings, messages, failure⟩ :: after
          remarks := c.remarks ++ [message] }
  | add (name : String) (f : Finding) (findings : List Finding) (messages : List Message)
      (failure : Option Failure) (before after : List Stream) (c : Collection) :
      Step { c with running := before ++ ⟨name, f :: findings, messages, failure⟩ :: after }
        { c with
          sheet := (c.sheet.add (f.entry name)).1
          running := before ++ ⟨name, findings, messages, failure⟩ :: after
          added := c.added ++ [f.entry name]
          warnings := c.warnings ++ (c.sheet.add (f.entry name)).2 }
  | finish (name : String) (failure : Option Failure) (before after : List Stream) (c : Collection) :
      Step { c with running := before ++ ⟨name, [], [], failure⟩ :: after }
        { c with running := before ++ after, failures := c.failures ++ failure.toList }

def Runs : Collection → Collection → Prop := Relation.ReflTransGen Step

/-- What the threads have done and what is left to do make up the streams. -/
structure Accounts (s : Sheet) (streams : List Stream) (c : Collection) : Prop where
  names : (c.running.map Stream.name).Sublist (streams.map Stream.name)
  sheet : c.sheet = (s.addAll c.added).1
  warnings : c.warnings = (s.addAll c.added).2
  entries : (c.added ++ c.running.flatMap Stream.entries).Perm (streams.flatMap Stream.entries)
  order : (streams.map Stream.name).Nodup →
    SameByMetric (c.added ++ c.running.flatMap Stream.entries) (streams.flatMap Stream.entries)
  remarks : (c.remarks ++ c.running.flatMap Stream.messages).Perm (streams.flatMap Stream.messages)
  failures : (c.failures ++ c.running.flatMap (·.failure.toList)).Perm
    (streams.flatMap (·.failure.toList))

variable {s : Sheet} {streams : List Stream} {c d : Collection}

theorem accounts_start (s : Sheet) (streams : List Stream) :
    (start s streams).Accounts (start s streams).sheet streams where
  names := .refl _
  sheet := rfl
  warnings := rfl
  entries := .refl _
  order := fun _ _ => rfl
  remarks := .refl _
  failures := .refl _

theorem perm_taken {α : Type} (done front piece rest : List α) :
    (done ++ piece ++ (front ++ rest)).Perm (done ++ (front ++ (piece ++ rest))) := by
  rw [List.append_assoc]
  exact (List.perm_append_comm_assoc piece front rest).append_left done

theorem metric_of_mem_entries {t : Stream} {e : Entry} (h : e ∈ t.entries) : e.metric = t.name := by
  obtain ⟨f, -, rfl⟩ := List.mem_map.1 h
  rfl

/-- An entry may be taken before those of other metrics. -/
theorem sameByMetric_taken {done front rest : List Entry} {e : Entry}
    (h : ∀ g ∈ front, g.metric ≠ e.metric) :
    SameByMetric (done ++ [e] ++ (front ++ rest)) (done ++ (front ++ e :: rest)) := by
  intro metric
  simp only [List.filter_append, List.filter_cons, List.filter_nil]
  by_cases hmetric : e.metric = metric
  · have hfront : front.filter (·.metric = metric) = [] := by
      refine List.filter_eq_nil_iff.2 fun g hg => ?_
      simpa [← hmetric] using h g hg
    simp [hfront, hmetric]
  · simp [hmetric]

theorem Step.accounts (hstep : Step c d) (h : c.Accounts s streams) : d.Accounts s streams := by
  cases hstep with
  | tell name findings message messages failure before after c =>
    refine
      { h with
        names := by simpa using h.names
        entries := by simpa [Stream.entries] using h.entries
        order := by simpa [Stream.entries] using h.order
        remarks := ?_
        failures := by simpa using h.failures }
    have hremarks := h.remarks
    rw [List.flatMap_append, List.flatMap_cons] at hremarks ⊢
    exact (perm_taken _ _ [message] _).trans hremarks
  | add name f findings messages failure before after c =>
    have hnames := h.names
    have hentries := h.entries
    have horder := h.order
    rw [List.map_append, List.map_cons] at hnames
    rw [List.flatMap_append, List.flatMap_cons] at hentries horder
    refine
      { h with
        names := by simpa using hnames
        sheet := by simp only [Sheet.addAll_append, Sheet.addAll, ← h.sheet]
        warnings := by
          simp only [Sheet.addAll_append, Sheet.addAll, ← h.sheet, ← h.warnings, List.append_nil]
        entries := ?_
        order := fun hnodup => ?_
        remarks := by simpa using h.remarks
        failures := by simpa using h.failures }
    · rw [List.flatMap_append, List.flatMap_cons]
      exact (perm_taken _ _ [f.entry name] _).trans hentries
    · -- the streams before this one have other names, so their entries may wait
      have hother : ∀ g ∈ before.flatMap Stream.entries, g.metric ≠ name := by
        intro g hg
        obtain ⟨t, ht, hg⟩ := List.mem_flatMap.1 hg
        rw [metric_of_mem_entries hg]
        exact (List.nodup_append.1 (hnodup.sublist hnames)).2.2 _ (List.mem_map_of_mem ht) _
          List.mem_cons_self
      rw [List.flatMap_append, List.flatMap_cons]
      intro metric
      exact (sameByMetric_taken hother metric).trans (horder hnodup metric)
  | finish name failure before after c =>
    refine
      { h with
        names := ?_
        entries := by simpa [Stream.entries] using h.entries
        order := by simpa [Stream.entries] using h.order
        remarks := by simpa using h.remarks
        failures := ?_ }
    · refine List.Sublist.trans ?_ h.names
      exact ((List.sublist_cons_self _ _).append_left before).map Stream.name
    · have hfailures := h.failures
      rw [List.flatMap_append, List.flatMap_cons] at hfailures
      rw [List.flatMap_append]
      exact (perm_taken _ _ failure.toList _).trans hfailures

theorem Runs.accounts (hruns : Runs c d) (h : c.Accounts s streams) : d.Accounts s streams := by
  induction hruns with
  | refl => exact h
  | tail _ hstep ih => exact hstep.accounts ih

def work (c : Collection) : Nat :=
  (c.running.map fun t => t.messages.length + t.findings.length + 1).sum

theorem Step.work_eq (h : Step c d) : c.work = d.work + 1 := by
  cases h <;> simp [work] <;> omega

theorem wellFounded_step : WellFounded fun e d => Step d e := by
  refine Subrelation.wf (fun {e d} (hstep : Step d e) => ?_) (measure work).wf
  have hwork := hstep.work_eq
  exact (by omega : e.work < d.work)

def after (c : Collection) (done rest : List Stream) : Collection where
  sheet := (c.sheet.addAll (done.flatMap Stream.entries)).1
  running := rest
  added := c.added ++ done.flatMap Stream.entries
  warnings := c.warnings ++ (c.sheet.addAll (done.flatMap Stream.entries)).2
  remarks := c.remarks ++ done.flatMap Stream.messages
  failures := c.failures ++ done.flatMap (·.failure.toList)

theorem after_append (c : Collection) (done more rest : List Stream) :
    (c.after done more).after more rest = c.after (done ++ more) rest := by
  simp [after, Sheet.addAll_append]

theorem runs_one (c : Collection) (t : Stream) (rest : List Stream) :
    Runs { c with running := t :: rest } (c.after [t] rest) := by
  obtain ⟨name, findings, messages, failure⟩ := t
  induction messages generalizing c with
  | nil =>
    induction findings generalizing c with
    | nil =>
      have hstep := Step.finish name failure [] rest c
      simpa [Runs, after, Sheet.addAll, Stream.entries] using Relation.ReflTransGen.single hstep
    | cons f findings ih =>
      refine .head (.add name f findings [] failure [] rest c) ?_
      simpa [Runs, after, Sheet.addAll, Stream.entries] using ih
        { c with
          sheet := (c.sheet.add (f.entry name)).1
          added := c.added ++ [f.entry name]
          warnings := c.warnings ++ (c.sheet.add (f.entry name)).2 }
  | cons message messages ih =>
    refine .head (.tell name findings message messages failure [] rest c) ?_
    simpa [Runs, after, Stream.entries] using ih { c with remarks := c.remarks ++ [message] }

theorem runs_after (c : Collection) (streams : List Stream) :
    Runs { c with running := streams } (c.after streams []) := by
  induction streams generalizing c with
  | nil => simpa [Runs, after, Sheet.addAll] using Relation.ReflTransGen.refl
  | cons t ts ih =>
    refine (runs_one c t ts).trans ?_
    have hrest := ih (c.after [t] ts)
    rwa [after_append] at hrest

theorem exists_finished (c : Collection) : ∃ d, Runs c d ∧ d.Finished :=
  ⟨_, runs_after c c.running, rfl⟩

theorem sheet_start (s : Sheet) (streams : List Stream) :
    (start s streams).sheet = (streams.map Stream.name).foldl Sheet.register s :=
  List.foldl_map.symm

theorem metric_mem_start {e : Entry} (h : e ∈ streams.flatMap Stream.entries) :
    e.metric ∈ (start s streams).sheet.metrics := by
  obtain ⟨t, ht, he⟩ := List.mem_flatMap.1 h
  rw [sheet_start, Sheet.mem_metrics_foldl_register, metric_of_mem_entries he]
  exact .inr (List.mem_map_of_mem ht)

theorem messages_start (s : Sheet) (streams : List Stream) (es : List Entry) :
    ((start s streams).sheet.addAll es).2 = (s.addAll es).2 := by
  rw [Sheet.messages_addAll, Sheet.messages_addAll, Sheet.replacing_congr]
  intro e _
  rw [sheet_start, Sheet.find?_foldl_register]

theorem foldl_register_entries {t : Stream} (h : t.findings ≠ [] ∨ t.name ∈ s.metrics) :
    (t.entries.map Entry.metric).foldl Sheet.register s = s.register t.name := by
  obtain ⟨name, findings, messages, failure⟩ := t
  cases findings with
  | nil => exact (Sheet.register_of_mem (h.resolve_left fun hne => hne rfl)).symm
  | cons f findings =>
    rw [Stream.entries, List.map_cons, List.map_cons, List.foldl_cons]
    refine Sheet.metrics_foldl_register_of_mem fun metric hmetric => ?_
    obtain ⟨e, he, rfl⟩ := List.mem_map.1 hmetric
    obtain ⟨g, -, rfl⟩ := List.mem_map.1 he
    exact Sheet.mem_metrics_register s name

theorem metrics_start_eq (h : ∀ t ∈ streams, t.findings ≠ [] ∨ t.name ∈ s.metrics) :
    (start s streams).sheet.metrics = (s.addAll (streams.flatMap Stream.entries)).1.metrics := by
  rw [Sheet.metrics_addAll, sheet_start]
  congr 1
  induction streams generalizing s with
  | nil => rfl
  | cons t ts ih =>
    rw [List.map_cons, List.foldl_cons, List.flatMap_cons, List.map_append, List.foldl_append,
      foldl_register_entries (h t List.mem_cons_self)]
    refine ih fun u hu => (h u (List.mem_cons_of_mem _ hu)).imp_right fun hmem => ?_
    exact Sheet.mem_metrics_register_of_mem hmem t.name

theorem table_start_eq (h : ∀ t ∈ streams, t.findings ≠ [] ∨ t.name ∈ s.metrics) :
    ((start s streams).sheet.addAll (streams.flatMap Stream.entries)).1.table =
      (s.addAll (streams.flatMap Stream.entries)).1.table := by
  refine Sheet.table_congr ?_ fun key => ?_
  · rw [← metrics_start_eq h, Sheet.metrics_addAll, Sheet.metrics_foldl_register_of_mem]
    intro metric hmetric
    obtain ⟨e, he, rfl⟩ := List.mem_map.1 hmetric
    exact metric_mem_start he
  · rw [Sheet.find?_addAll, Sheet.find?_addAll, sheet_start, Sheet.find?_foldl_register]

end Collection

namespace Sheet

theorem addStreams_fst (s : Sheet) (streams : List Stream) :
    (s.addStreams streams).1 = (s.addAll (streams.flatMap Stream.entries)).1 := by
  induction streams generalizing s with
  | nil => rfl
  | cons t ts ih => rw [addStreams, ih, List.flatMap_cons, addAll_append]

theorem addStreams_snd_perm (s : Sheet) (streams : List Stream) :
    (s.addStreams streams).2.Perm
      ((s.addAll (streams.flatMap Stream.entries)).2 ++ streams.flatMap Stream.messages) := by
  induction streams generalizing s with
  | nil => exact .refl _
  | cons t ts ih =>
    rw [addStreams, List.flatMap_cons, List.flatMap_cons, addAll_append]
    have hrest := (ih (s.addAll t.entries).1).append_left (t.messages ++ (s.addAll t.entries).2)
    refine hrest.trans ((List.perm_append_comm.append_right _).trans ?_)
    simpa only [List.append_assoc] using Collection.perm_taken (s.addAll t.entries).2
      ((s.addAll t.entries).1.addAll (ts.flatMap Stream.entries)).2 t.messages
      (ts.flatMap Stream.messages)

end Sheet

namespace Collection

/-- One of the runs ends with what `collect` gives. -/
theorem exists_runs_collect (s : Sheet) (streams : List Stream) :
    ∃ c, Runs (start s streams) c ∧ c.Finished ∧ c.sheet = (s.collect streams).1 ∧
      (c.warnings ++ c.remarks).Perm (s.collect streams).2.1 ∧ c.raised = (s.collect streams).2.2 := by
  refine ⟨_, runs_after (start s streams) streams, rfl, ?_, ?_, ?_⟩
  · rw [Sheet.collect, Sheet.addStreams_fst, after, start]
  · exact (Sheet.addStreams_snd_perm (start s streams).sheet streams).symm
  · rw [raised, Sheet.collect, List.filterMap_eq_flatMap_toList]
    rfl

/-- Whatever the threads do, a run can go on until all metrics are done, and it does not go on for ever.
Then the table is the one of the sheet to which the metrics' entries were added one metric after the
other, with the columns in the order of the metrics; the same lines were told, and a single failure is
raised. Without the columns in advance the table is the same if every metric has a finding or a column
already. -/
theorem collect_any_order (s : Sheet) {streams : List Stream}
    (hnames : (streams.map Stream.name).Nodup) {c : Collection} (hruns : Runs (start s streams) c) :
    (∃ d, Runs c d ∧ d.Finished) ∧
    Acc (fun e d => Step d e) c ∧
    (c.Finished →
      c.sheet.table = ((start s streams).sheet.addAll (streams.flatMap Stream.entries)).1.table ∧
      c.warnings.Perm (s.addAll (streams.flatMap Stream.entries)).2 ∧
      c.remarks.Perm (streams.flatMap Stream.messages) ∧
      c.failures.Perm (streams.filterMap Stream.failure) ∧
      (c.raised = none ↔ ∀ t ∈ streams, t.failure = none) ∧
      (∀ failure, streams.filterMap Stream.failure = [failure] → c.raised = some failure) ∧
      ((∀ t ∈ streams, t.findings ≠ [] ∨ t.name ∈ s.metrics) →
        c.sheet.table = (s.addAll (streams.flatMap Stream.entries)).1.table) ∧
      c.sheet.table = (s.collect streams).1.table ∧
      (c.warnings ++ c.remarks).Perm (s.collect streams).2.1) := by
  refine ⟨exists_finished c, wellFounded_step.apply c, fun hfinished => ?_⟩
  have haccounts := hruns.accounts (accounts_start s streams)
  have hdone : c.running = [] := hfinished
  have horder : SameByMetric c.added (streams.flatMap Stream.entries) := by
    simpa [hdone] using haccounts.order hnames
  have hremarks : c.remarks.Perm (streams.flatMap Stream.messages) := by
    simpa [hdone] using haccounts.remarks
  have hfailures : c.failures.Perm (streams.filterMap Stream.failure) := by
    rw [List.filterMap_eq_flatMap_toList]
    simpa [hdone] using haccounts.failures
  have htable : c.sheet.table =
      ((start s streams).sheet.addAll (streams.flatMap Stream.entries)).1.table := by
    rw [haccounts.sheet]
    exact horder.table_eq fun e he => metric_mem_start (horder.perm.mem_iff.1 he)
  have hwarnings : c.warnings.Perm (s.addAll (streams.flatMap Stream.entries)).2 := by
    rw [haccounts.warnings, ← messages_start s streams]
    exact horder.messages_perm
  refine ⟨htable, hwarnings, hremarks, hfailures, ?_, fun failure hsingle => ?_, fun hcolumns => ?_, ?_,
    ?_⟩
  · have hnil : c.failures = [] ↔ streams.filterMap Stream.failure = [] :=
      ⟨fun hempty => (hempty ▸ hfailures).nil_eq.symm, fun hempty => (hempty ▸ hfailures).eq_nil⟩
    rw [raised, List.head?_eq_none_iff, hnil, List.filterMap_eq_nil_iff]
  · rw [hsingle, List.perm_singleton] at hfailures
    rw [raised, hfailures, List.head?_cons]
  · rw [htable, table_start_eq hcolumns]
  · rw [htable, Sheet.collect, Sheet.addStreams_fst, start]
  · have hcollect := Sheet.addStreams_snd_perm (start s streams).sheet streams
    rw [messages_start] at hcollect
    exact (hwarnings.append hremarks).trans hcollect.symm

def lengthAndDepth : List Stream :=
  let here : Location := ⟨.text "a.c", .absent, .number 1, .text "f"⟩
  [⟨"Length", [⟨here, .number (.whole 7)⟩], [], none⟩,
    ⟨"Depth", [⟨here, .number (.whole 1)⟩, ⟨here, .number (.whole 2)⟩], [], some .modelless⟩]

def depthAroundLength : Collection :=
  let here : Location := ⟨.text "a.c", .absent, .number 1, .text "f"⟩
  let length : Entry := ⟨here, "Length", .number (.whole 7)⟩
  let depth : Entry := ⟨here, "Depth", .number (.whole 1)⟩
  let deeper : Entry := ⟨here, "Depth", .number (.whole 2)⟩
  { sheet := ⟨["Length", "Depth"], [deeper, length]⟩
    running := []
    added := [depth, length, deeper]
    warnings := [deeper.message]
    failures := [.modelless] }

theorem collect_any_order_depths :
    (lengthAndDepth.map Stream.name).Nodup ∧ Runs (start {} lengthAndDepth) depthAroundLength ∧
      depthAroundLength.Finished ∧ depthAroundLength.raised = some .modelless ∧
      depthAroundLength.sheet.table =
        (({} : Sheet).addAll (lengthAndDepth.flatMap Stream.entries)).1.table := by
  have hnames : (lengthAndDepth.map Stream.name).Nodup := by decide
  have hruns : Runs (start {} lengthAndDepth) depthAroundLength := by
    refine .head (.add "Depth" _ _ _ _ [_] [] ⟨_, [], _, _, _, _⟩) ?_
    refine .head (.add "Length" _ _ _ _ [] [_] ⟨_, [], _, _, _, _⟩) ?_
    refine .head (.finish "Length" none [] [_] ⟨_, [], _, _, _, _⟩) ?_
    refine .head (.add "Depth" _ _ _ _ [] [] ⟨_, [], _, _, _, _⟩) ?_
    exact .single (.finish "Depth" _ [] [] ⟨_, [], _, _, _, _⟩)
  have hfinished : depthAroundLength.Finished := rfl
  obtain ⟨-, -, -, -, -, hraised, htable, -⟩ := (collect_any_order {} hnames hruns).2.2 hfinished
  exact ⟨hnames, hruns, hfinished, hraised _ rfl, htable (by decide)⟩

/-- A metric without findings has a column, which it does not get by adding its entries. -/
theorem silent_metric_has_column :
    let silent : List Stream := [⟨"m", [], [], none⟩]
    let collected : Collection := { sheet := ⟨["m"], []⟩, running := [] }
    (silent.map Stream.name).Nodup ∧ (∀ t ∈ silent, t.failure = none) ∧
      Runs (start {} silent) collected ∧ collected.Finished ∧
      collected.sheet.table.map Table.header =
        .ok ["Source File", "Line No.", "Element", "m"] ∧
      (({} : Sheet).addAll (silent.flatMap Stream.entries)).1.table.map Table.header =
        .ok ["Source File", "Line No.", "Element"] := by
  refine ⟨by decide, by decide, ?_, rfl, rfl, rfl⟩
  exact .single (.finish "m" none [] [] ⟨_, [], _, _, _, _⟩)

end Collection
end Variability
