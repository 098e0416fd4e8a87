import Mathlib
import Variability.Proofs.Keyed
import Variability.Proofs.Table.Order

set_option autoImplicit false

namespace Variability

open Table (Entry Location)

namespace Sheet

variable {s t : Sheet} {es fs : List Entry} {metric : String}

theorem register_of_mem (h : metric ∈ s.metrics) : s.register metric = s := if_pos h

@[simp] theorem entries_register (s : Sheet) (metric : String) :
    (s.register metric).entries = s.entries := by
  unfold register
  split <;> rfl

@[simp] theorem entries_foldl_register (s : Sheet) (metrics : List String) :
    (metrics.foldl register s).entries = s.entries := by
  induction metrics generalizing s with
  | nil => rfl
  | cons metric metrics ih => rw [List.foldl_cons, ih, entries_register]

theorem metrics_foldl_register (s : Sheet) (metrics : List String) :
    (metrics.foldl register s).metrics =
      s.metrics ++ firstOccurrences (metrics.filter (· ∉ s.metrics)) := by
  induction metrics using List.reverseRecOn with
  | nil => simp [firstOccurrences]
  | append_singleton metrics metric ih =>
    rw [List.foldl_concat, register, ih, List.filter_append]
    by_cases hold : metric ∈ s.metrics
    · simp [hold, ih]
    · have hnew : [metric].filter (· ∉ s.metrics) = [metric] := by simp [hold]
      rw [hnew, firstOccurrences_concat]
      by_cases hmem : metric ∈ metrics <;>
        simp [mem_firstOccurrences, hold, hmem, ih]

theorem metrics_foldl_register_of_mem {metrics : List String} (h : ∀ metric ∈ metrics, metric ∈ s.metrics) :
    metrics.foldl register s = s := by
  induction metrics with
  | nil => rfl
  | cons metric metrics ih =>
    rw [List.foldl_cons, register_of_mem (h _ List.mem_cons_self)]
    exact ih fun m hm => h m (List.mem_cons_of_mem _ hm)

theorem mem_metrics_register_of_mem (h : metric ∈ s.metrics) (new : String) :
    metric ∈ (s.register new).metrics := by
  unfold register
  split
  · exact h
  · exact List.mem_append_left _ h

theorem mem_metrics_foldl_register {metrics : List String} :
    metric ∈ (metrics.foldl register s).metrics ↔ metric ∈ s.metrics ∨ metric ∈ metrics := by
  by_cases h : metric ∈ s.metrics <;> simp [metrics_foldl_register, mem_firstOccurrences, h]

@[simp] theorem metrics_add (s : Sheet) (e : Entry) :
    (s.add e).1.metrics = (s.register e.metric).metrics := rfl

theorem metrics_addAll (s : Sheet) (es : List Entry) :
    (s.addAll es).1.metrics = ((es.map Entry.metric).foldl register s).metrics := by
  induction es generalizing s with
  | nil => rfl
  | cons e es ih =>
    rw [addAll, ih, metrics_foldl_register, metrics_add, List.map_cons, List.foldl_cons,
      metrics_foldl_register]

theorem find?_add (s : Sheet) (e : Entry) (key : Location × String) :
    (s.add e).1.find? key = if e.key = key then some e else s.find? key := by
  by_cases h : e.key = key
  · subst h
    rw [if_pos rfl, find_add_self]
  · rw [if_neg h]
    exact find_putBy_other Entry.key h s.entries

theorem find?_foldl_register (s : Sheet) (metrics : List String) (key : Location × String) :
    (metrics.foldl register s).find? key = s.find? key := by
  rw [find?, entries_foldl_register, find?]

theorem addAll_append (s : Sheet) (es fs : List Entry) :
    s.addAll (es ++ fs) =
      (((s.addAll es).1.addAll fs).1, (s.addAll es).2 ++ ((s.addAll es).1.addAll fs).2) := by
  induction es generalizing s with
  | nil => rfl
  | cons e es ih => simp [addAll, ih]

theorem entries_addAll (s : Sheet) (es : List Entry) :
    (s.addAll es).1.entries = es.foldl (fun acc e => putBy Entry.key e acc) s.entries := by
  induction es generalizing s with
  | nil => rfl
  | cons e es ih => exact ih _

theorem find?_addAll (s : Sheet) (es : List Entry) (key : Location × String) :
    (s.addAll es).1.find? key = (es.findRev? (·.key = key)).or (s.find? key) := by
  induction es using List.reverseRecOn with
  | nil => rfl
  | append_singleton es e ih =>
    rw [addAll_append, List.findRev?_eq_find?_reverse, List.reverse_concat, List.find?_cons]
    simp only [addAll, find?_add, ih, List.findRev?_eq_find?_reverse]
    by_cases h : e.key = key <;> simp [h]

theorem mem_locations {l : Location} : l ∈ s.locations ↔ ∃ metric, (s.find? (l, metric)).isSome := by
  simp only [locations, mem_firstOccurrences, List.mem_map, find?, List.find?_isSome,
    decide_eq_true_eq]
  constructor
  · rintro ⟨e, hmem, rfl⟩
    exact ⟨e.metric, e, hmem, rfl⟩
  · rintro ⟨metric, e, hmem, hkey⟩
    exact ⟨e, hmem, congrArg Prod.fst hkey⟩

theorem table_congr (hmetrics : s.metrics = t.metrics) (hfind : ∀ key, s.find? key = t.find? key) :
    s.table = t.table := by
  have hlocations : s.locations.Perm t.locations := by
    refine (List.perm_ext_iff_of_nodup (nodup_firstOccurrences _) (nodup_firstOccurrences _)).2 ?_
    intro l
    simp only [← locations.eq_def, mem_locations, hfind]
  have hvalue : s.valueAt = t.valueAt := by
    funext l metric
    rw [valueAt, valueAt, hfind]
  have hrow : s.row = t.row := by
    funext l
    rw [row, row, hmetrics, hvalue]
  simp only [table, sorted, hmetrics, hrow, hlocations.any_eq, Location.mergeSort_congr hlocations]

/-- The entries that replace one that was there or came before them. -/
def replacing (s : Sheet) : List Entry → List Entry
  | [] => []
  | e :: es =>
    if (s.find? e.key).isSome then e :: (s.add e).1.replacing es else (s.add e).1.replacing es

theorem messages_addAll (s : Sheet) (es : List Entry) :
    (s.addAll es).2 = (s.replacing es).map Entry.message := by
  induction es generalizing s with
  | nil => rfl
  | cons e es ih =>
    rw [addAll, replacing]
    simp only [add, ih]
    split <;> rfl

theorem isSome_find? {key : Location × String} :
    (s.find? key).isSome ↔ key ∈ s.entries.map Entry.key := by
  simp [find?]

theorem length_messages_add (s : Sheet) (e : Entry) :
    (s.add e).2.length + (s.add e).1.entries.length = 1 + s.entries.length := by
  have hkeys := congrArg List.length (keys_putBy Entry.key e s.entries)
  rw [List.length_map] at hkeys
  simp only [add, isSome_find?, hkeys]
  split
  · rw [List.length_map, List.length_singleton]
  · rw [List.length_append, List.length_map, List.length_singleton, List.length_nil]
    omega

theorem length_messages_addAll (s : Sheet) (es : List Entry) :
    (s.addAll es).2.length + (s.addAll es).1.entries.length = es.length + s.entries.length := by
  induction es generalizing s with
  | nil => simp [addAll]
  | cons e es ih =>
    have hstep := length_messages_add s e
    have hrest := ih (s.add e).1
    simp only [addAll, List.length_append, List.length_cons]
    omega

theorem replacing_congr (h : ∀ e ∈ es, s.find? e.key = t.find? e.key) :
    s.replacing es = t.replacing es := by
  induction es generalizing s t with
  | nil => rfl
  | cons e es ih =>
    have hrest : (s.add e).1.replacing es = (t.add e).1.replacing es := by
      refine ih fun f hf => ?_
      rw [find?_add, find?_add, h f (List.mem_cons_of_mem _ hf)]
    rw [replacing, replacing, h e List.mem_cons_self, hrest]

theorem filter_replacing (s : Sheet) (es : List Entry) (metric : String) :
    (s.replacing es).filter (·.metric = metric) = s.replacing (es.filter (·.metric = metric)) := by
  induction es generalizing s with
  | nil => rfl
  | cons e es ih =>
    by_cases hmetric : e.metric = metric
    · rw [List.filter_cons_of_pos (by simpa using hmetric), replacing, replacing]
      split <;> simp [hmetric, ih]
    · -- what is found under the keys of the metric has not changed
      have hother : (s.add e).1.replacing (es.filter (·.metric = metric)) =
          s.replacing (es.filter (·.metric = metric)) := by
        refine replacing_congr fun f hf => ?_
        have hf : f.metric = metric := by simpa using (List.mem_filter.1 hf).2
        rw [find?_add, if_neg]
        exact fun hkey => hmetric ((congrArg Prod.snd hkey).trans hf)
      rw [List.filter_cons_of_neg (by simpa using hmetric), replacing, ← hother]
      split <;> simp [hmetric, ih]

end Sheet

namespace Table

/-- The same entries of each metric in the same order; those of different metrics may have changed
places. -/
def SameByMetric (es fs : List Entry) : Prop :=
  ∀ metric : String, es.filter (·.metric = metric) = fs.filter (·.metric = metric)

namespace SameByMetric

variable {s : Sheet} {es fs : List Entry}

theorem perm (h : SameByMetric es fs) : es.Perm fs := by
  refine List.perm_iff_count.2 fun e => ?_
  have hfilter : ∀ gs : List Entry, gs.count e = (gs.filter (·.metric = e.metric)).count e :=
    fun gs => (List.count_filter (by simp)).symm
  rw [hfilter es, hfilter fs, h e.metric]

theorem findRev?_eq (h : SameByMetric es fs) (key : Location × String) :
    es.findRev? (·.key = key) = fs.findRev? (·.key = key) := by
  have hfilter : ∀ gs : List Entry, gs.findRev? (·.key = key) =
      (gs.filter (·.metric = key.2)).findRev? (·.key = key) := by
    intro gs
    rw [List.findRev?_eq_find?_reverse, List.findRev?_eq_find?_reverse, ← List.filter_reverse,
      List.find?_filter]
    congr 1
    funext e
    simp only [decide_eq_true_eq, decide_eq_decide]
    exact ⟨fun hkey => ⟨congrArg Prod.snd hkey, hkey⟩, And.right⟩
  rw [hfilter es, hfilter fs, h key.2]

theorem replacing (h : SameByMetric es fs) : SameByMetric (s.replacing es) (s.replacing fs) := by
  intro metric
  rw [Sheet.filter_replacing, Sheet.filter_replacing, h metric]

/-- If all columns are there, entries of different metrics may be added in any order. -/
theorem table_eq (h : SameByMetric es fs) (hcolumns : ∀ e ∈ es, e.metric ∈ s.metrics) :
    (s.addAll es).1.table = (s.addAll fs).1.table := by
  have hkeep : ∀ gs : List Entry, (∀ e ∈ gs, e.metric ∈ s.metrics) →
      (s.addAll gs).1.metrics = s.metrics := by
    intro gs hgs
    rw [Sheet.metrics_addAll, Sheet.metrics_foldl_register_of_mem (by simpa using hgs)]
  refine Sheet.table_congr ?_ fun key => ?_
  · rw [hkeep es hcolumns, hkeep fs fun e he => hcolumns e (h.perm.mem_iff.2 he)]
  · rw [Sheet.find?_addAll, Sheet.find?_addAll, h.findRev?_eq]

theorem messages_perm (h : SameByMetric es fs) : (s.addAll es).2.Perm (s.addAll fs).2 := by
  rw [Sheet.messages_addAll, Sheet.messages_addAll]
  exact h.replacing.perm.map _

end SameByMetric
end Table
end Variability
