import Mathlib
import Variability.Proofs.Table.Collecting

/-!
The table of all values that were ever added to a new sheet. Values are added one by one, metric by
metric, or by collecting several metrics at the same time, in any sequence of calls.
-/

set_option autoImplicit false

namespace Variability

open Table (Entry Location Value)

inductive Call where
  | addValue (e : Entry)
  | addResults (metric : String) (findings : List Finding)
  | collect (streams : List Stream)

namespace Call

def metrics : Call → List String
  | .addValue e => [e.metric]
  | .addResults metric findings => findings.map fun _ => metric
  | .collect streams => streams.map Stream.name

def entries : Call → List Entry
  | .addValue e => [e]
  | .addResults metric findings => findings.map (Finding.entry metric)
  | .collect streams => streams.flatMap Stream.entries

def apply (s : Sheet) : Call → Sheet
  | .addValue e => (s.add e).1
  | .addResults metric findings => (s.addAll (findings.map (Finding.entry metric))).1
  | .collect streams => (s.collect streams).1

/-- A call on a sheet adds some entries in this order, leaves this sheet and gives these warnings. -/
inductive Performs : Call → Sheet → List Entry → Sheet → List Message → Prop where
  | addValue (e : Entry) (s : Sheet) : Performs (.addValue e) s [e] (s.add e).1 (s.add e).2
  | addResults (metric : String) (findings : List Finding) (s : Sheet) :
      Performs (.addResults metric findings) s (findings.map (Finding.entry metric))
        (s.addAll (findings.map (Finding.entry metric))).1
        (s.addAll (findings.map (Finding.entry metric))).2
  | collect (streams : List Stream) (s : Sheet) (c : Collection)
      (runs : Collection.Runs (.start s streams) c) (finished : c.Finished) :
      Performs (.collect streams) s c.added c.sheet c.warnings

end Call

/-- Calls on a new sheet, with all that they added and all warnings. -/
inductive History : List Call → Sheet → List Entry → List Message → Prop where
  | new : History [] {} [] []
  | call {calls : List Call} {s t : Sheet} {added more : List Entry} {warnings news : List Message}
      (before : History calls s added warnings) (call : Call) (performs : call.Performs s more t news) :
      History (calls ++ [call]) t (added ++ more) (warnings ++ news)

/-- The sheet has a column for each registered metric and the last entry of each key; every other added
entry was replaced with a warning. -/
structure Sheet.Holds (s : Sheet) (registered : List String) (added : List Entry)
    (warnings : List Message) : Prop where
  metrics : s.metrics = firstOccurrences registered
  entries : s.entries = lastByKey Entry.key added
  warnings : warnings.length + s.entries.length = added.length

namespace Sheet.Holds

variable {s t : Sheet} {registered : List String} {added : List Entry} {warnings : List Message}

theorem register (h : s.Holds registered added warnings) (metrics : List String) :
    (metrics.foldl Sheet.register s).Holds (registered ++ metrics) added warnings where
  metrics := by
    rw [metrics_foldl_register, h.metrics, firstOccurrences_append]
    simp only [mem_firstOccurrences]
  entries := by rw [entries_foldl_register, h.entries]
  warnings := by rw [entries_foldl_register, h.warnings]

theorem addAll (h : s.Holds registered added warnings) (es : List Entry) :
    (s.addAll es).1.Holds (registered ++ es.map Entry.metric) (added ++ es)
      (warnings ++ (s.addAll es).2) where
  metrics := by rw [metrics_addAll, (h.register _).metrics]
  entries := by rw [entries_addAll, h.entries, lastByKey, lastByKey, List.foldl_append]
  warnings := by
    have hlength := length_messages_addAll s es
    have hwarnings := h.warnings
    rw [List.length_append, List.length_append]
    omega

theorem registered_again {metrics : List String}
    (h : s.Holds (registered ++ metrics) added warnings)
    (hmem : ∀ metric ∈ metrics, metric ∈ registered) : s.Holds registered added warnings where
  metrics := by
    have hfilter : metrics.filter (· ∉ registered) = [] := by simpa using hmem
    rw [h.metrics, firstOccurrences_append, hfilter, firstOccurrences, List.append_nil]
  entries := h.entries
  warnings := h.warnings

theorem locations_iff (h : s.Holds registered added warnings) {l : Location} :
    l ∈ s.locations ↔ ∃ e ∈ added, e.location = l := by
  simp only [mem_locations, isSome_find?, h.entries, keys_lastByKey, mem_firstOccurrences,
    List.mem_map]
  constructor
  · rintro ⟨metric, e, hmem, hkey⟩
    exact ⟨e, hmem, congrArg Prod.fst hkey⟩
  · rintro ⟨e, hmem, rfl⟩
    exact ⟨e.metric, e, hmem, rfl⟩

theorem warnings_add_keys (h : s.Holds registered added warnings) :
    warnings.length + (added.map Entry.key).toFinset.card = added.length := by
  have hkeys : (firstOccurrences (added.map Entry.key)).toFinset = (added.map Entry.key).toFinset := by
    ext key
    simp only [List.mem_toFinset, mem_firstOccurrences]
  have hlength : s.entries.length = (firstOccurrences (added.map Entry.key)).length := by
    rw [h.entries, ← keys_lastByKey, List.length_map]
  rw [← hkeys, List.toFinset_card_of_nodup (nodup_firstOccurrences _), ← hlength, h.warnings]

end Sheet.Holds

theorem Call.Performs.holds {call : Call} {s t : Sheet} {registered : List String}
    {added more : List Entry} {warnings news : List Message} (hperforms : call.Performs s more t news)
    (h : s.Holds registered added warnings) :
    t.Holds (registered ++ call.metrics) (added ++ more) (warnings ++ news) ∧
      more.Perm call.entries := by
  cases hperforms with
  | addValue e => exact ⟨by simpa [Sheet.addAll, Call.metrics] using h.addAll [e], .refl _⟩
  | addResults metric findings =>
    refine ⟨?_, .refl _⟩
    have hmetrics : (findings.map (Finding.entry metric)).map Entry.metric =
        (Call.addResults metric findings).metrics := List.map_map
    exact hmetrics ▸ h.addAll (findings.map (Finding.entry metric))
  | collect streams _ c runs finished =>
    have haccounts := runs.accounts (Collection.accounts_start s streams)
    have hperm : c.added.Perm (streams.flatMap Stream.entries) := by
      simpa [show c.running = [] from finished] using haccounts.entries
    have hholds := (h.register (streams.map Stream.name)).addAll c.added
    rw [← Collection.sheet_start, ← haccounts.sheet, ← haccounts.warnings] at hholds
    refine ⟨hholds.registered_again fun metric hmetric => ?_, hperm⟩
    obtain ⟨e, he, rfl⟩ := List.mem_map.1 hmetric
    obtain ⟨t, ht, het⟩ := List.mem_flatMap.1 (hperm.mem_iff.1 he)
    rw [Collection.metric_of_mem_entries het]
    exact List.mem_append_right _ (List.mem_map_of_mem ht)

theorem Call.performs_apply (call : Call) (s : Sheet) :
    ∃ more news, call.Performs s more (call.apply s) news := by
  cases call with
  | addValue e => exact ⟨_, _, .addValue e s⟩
  | addResults metric findings => exact ⟨_, _, .addResults metric findings s⟩
  | collect streams =>
    obtain ⟨c, hruns, hfinished, hsheet, -⟩ := Collection.exists_runs_collect s streams
    have hperforms := Performs.collect streams s c hruns hfinished
    rw [hsheet] at hperforms
    exact ⟨c.added, c.warnings, hperforms⟩

namespace History

variable {calls : List Call} {s : Sheet} {added : List Entry} {warnings : List Message}

theorem holds (h : History calls s added warnings) :
    s.Holds (calls.flatMap Call.metrics) added warnings ∧
      added.Perm (calls.flatMap Call.entries) := by
  induction h with
  | new => exact ⟨⟨rfl, rfl, rfl⟩, .refl _⟩
  | call before call performs ih =>
    obtain ⟨hholds, hperm⟩ := performs.holds ih.1
    rw [List.flatMap_append, List.flatMap_append, List.flatMap_singleton, List.flatMap_singleton]
    exact ⟨hholds, ih.2.append hperm⟩

theorem exists_history (calls : List Call) :
    ∃ added warnings, History calls (calls.foldl (fun s call => call.apply s) {}) added warnings := by
  induction calls using List.reverseRecOn with
  | nil => exact ⟨_, _, .new⟩
  | append_singleton calls call ih =>
    obtain ⟨added, warnings, hbefore⟩ := ih
    rw [List.foldl_concat]
    obtain ⟨more, news, hperforms⟩ := call.performs_apply (calls.foldl (fun s call => call.apply s) {})
    exact ⟨_, _, .call hbefore call hperforms⟩

end History

namespace Table

def lastValue (added : List Entry) (l : Location) (metric : String) : Value :=
  ((added.findRev? (·.key = (l, metric))).map Entry.value).getD .missing

/-- The outer join of some entries: a row for each location and a column for each registered metric. -/
structure IsJoin (registered : List String) (added : List Entry) (t : Table) : Prop where
  ascending : (t.rows.map Row.location).Pairwise Location.Before
  locations : ∀ l, l ∈ t.rows.map Row.location ↔ ∃ e ∈ added, e.location = l
  metrics : t.metrics = firstOccurrences registered
  values : ∀ r ∈ t.rows, r.values = t.metrics.map (lastValue added r.location)
  included : t.hasIncluded ↔ ∃ e ∈ added, e.location.included ≠ .absent
  width : ∀ r ∈ t.rows, (r.location.shown t.hasIncluded).length + r.values.length = t.header.length

end Table

namespace Sheet.Holds

variable {s : Sheet} {registered : List String} {added : List Entry} {warnings : List Message}

theorem valueAt_eq (h : s.Holds registered added warnings) (l : Location) (metric : String) :
    s.valueAt l metric = Table.lastValue added l metric := by
  rw [valueAt, find?, h.entries, find?_lastByKey, Table.lastValue]

theorem sorted_isJoin (h : s.Holds registered added warnings) :
    Table.IsJoin registered added s.sorted := by
  have hlocations : s.sorted.rows.map Table.Row.location = s.locations.mergeSort Location.ordered := by
    simp [sorted, row, Function.comp_def]
  have hvalues : ∀ r ∈ s.sorted.rows, r.values = s.metrics.map (Table.lastValue added r.location) := by
    intro r hr
    obtain ⟨l, -, rfl⟩ := List.mem_map.1 hr
    exact List.map_congr_left fun metric _ => h.valueAt_eq l metric
  refine ⟨?_, fun l => ?_, h.metrics, hvalues, ?_, fun r hr => ?_⟩
  · rw [hlocations]
    exact Location.pairwise_before (nodup_firstOccurrences _)
  · rw [hlocations, List.mem_mergeSort, h.locations_iff]
  · simp only [sorted, List.any_eq_true, h.locations_iff, decide_eq_true_eq]
    constructor
    · rintro ⟨-, ⟨e, he, rfl⟩, hincluded⟩
      exact ⟨e, he, hincluded⟩
    · rintro ⟨e, he, hincluded⟩
      exact ⟨e.location, ⟨e, he, rfl⟩, hincluded⟩
  · rw [hvalues r hr, Table.length_shown, Table.header, List.length_append, List.length_map]
    rfl

theorem table_eq_sorted (h : s.Holds registered added warnings)
    (htyped : ∀ e ∈ added, e.location.IsTyped) : s.table = .ok s.sorted := by
  have hclash : ¬ (s.locations.any fun l => s.locations.any l.clashes) := by
    simp only [List.any_eq_true, h.locations_iff, not_exists, not_and]
    rintro - ⟨d, hd, rfl⟩ - ⟨e, he, rfl⟩
    simp [Location.clashes_eq_false (htyped d hd) (htyped e he)]
  rw [table, if_neg hclash]

end Sheet.Holds

/-- After any calls on a new sheet, whatever the threads of collected metrics do, the table is the outer
join of all that was added, and there are as many warnings as entries that were replaced. -/
theorem History.table_exact {calls : List Call}
    (htyped : ∀ call ∈ calls, ∀ e ∈ call.entries, e.location.IsTyped) :
    (∃ added warnings, History calls (calls.foldl (fun s call => call.apply s) {}) added warnings) ∧
    ∀ s added warnings, History calls s added warnings →
      added.Perm (calls.flatMap Call.entries) ∧
      (∃ t, s.table = .ok t ∧ Table.IsJoin (calls.flatMap Call.metrics) added t) ∧
      warnings.length + (added.map Entry.key).toFinset.card = added.length := by
  refine ⟨exists_history calls, fun s added warnings hhistory => ?_⟩
  obtain ⟨hholds, hperm⟩ := hhistory.holds
  refine ⟨hperm, ⟨s.sorted, hholds.table_eq_sorted fun e he => ?_, hholds.sorted_isJoin⟩,
    hholds.warnings_add_keys⟩
  obtain ⟨call, hcall, he⟩ := List.mem_flatMap.1 (hperm.mem_iff.1 he)
  exact htyped call hcall e he

def mixedCalls : List Call :=
  let here : Location := ⟨.text "a.c", .absent, .number 1, .text "f"⟩
  let there : Location := ⟨.text "a.c", .text "", .absent, .absent⟩
  [.addValue ⟨here, "Length", .number (.whole 7)⟩,
    .collect [⟨"Depth", [⟨here, .number (.whole 1)⟩], [], none⟩, ⟨"Breadth", [], [], none⟩],
    .addResults "Length" [⟨here, .number (.whole 8)⟩, ⟨there, .number (.whole 9)⟩]]

theorem History.table_exact_mixed :
    (∀ call ∈ mixedCalls, ∀ e ∈ call.entries, e.location.IsTyped) ∧
      ∃ s added warnings t, History mixedCalls s added warnings ∧ s.table = .ok t ∧
        t.metrics = ["Length", "Depth", "Breadth"] ∧ t.hasIncluded ∧ warnings.length = 1 := by
  have htyped : ∀ call ∈ mixedCalls, ∀ e ∈ call.entries, e.location.IsTyped := by decide
  obtain ⟨⟨added, warnings, hhistory⟩, hexact⟩ := History.table_exact htyped
  obtain ⟨hperm, ⟨t, htable, hjoin⟩, hcount⟩ := hexact _ added warnings hhistory
  refine ⟨htyped, _, added, warnings, t, hhistory, htable, hjoin.metrics, ?_, ?_⟩
  · have hthere : (⟨⟨.text "a.c", .text "", .absent, .absent⟩, "Length", .number (.whole 9)⟩ : Entry) ∈
        mixedCalls.flatMap Call.entries := by decide
    exact hjoin.included.2 ⟨_, hperm.mem_iff.2 hthere, by decide⟩
  · rw [hperm.length_eq, List.toFinset_eq_of_perm _ _ (hperm.map Entry.key)] at hcount
    have hkeys : ((mixedCalls.flatMap Call.entries).map Entry.key).toFinset.card = 3 := by decide
    have hlength : (mixedCalls.flatMap Call.entries).length = 4 := rfl
    omega

end Variability
