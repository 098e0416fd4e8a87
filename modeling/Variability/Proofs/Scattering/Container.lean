import Variability.Proofs.Keyed
import Variability.Scattering.Degree

set_option autoImplicit false

namespace Variability.Degrees

def byName (a b : Degree) : Bool := a.name ≤ b.name

theorem byName_trans (a b c : Degree) (hab : byName a b) (hbc : byName b c) : byName a c := by
  simp only [byName, decide_eq_true_eq] at hab hbc ⊢
  exact String.le_trans hab hbc

theorem byName_total (a b : Degree) : byName a b || byName b a := by
  simpa [byName] using String.le_total a.name b.name

theorem pairwise_byName (ds : List Degree) :
    (ds.mergeSort byName).Pairwise fun a b => a.name ≤ b.name :=
  (List.pairwise_mergeSort byName_trans byName_total ds).imp fun h => by simpa [byName] using h

theorem toList_ofList {ds : List Degree} (h : (ds.map Degree.name).Nodup) :
    (ofList ds).toList = ds.mergeSort byName := by
  have hnodup : ((ds.mergeSort byName).map Degree.name).Nodup :=
    ((List.mergeSort_perm ds byName).map Degree.name).nodup_iff.2 h
  exact lastByKey_eq_self hnodup

theorem mem_ofList {ds : List Degree} (h : (ds.map Degree.name).Nodup) {d : Degree} :
    d ∈ (ofList ds).toList ↔ d ∈ ds := by
  rw [toList_ofList h, (List.mergeSort_perm ds byName).mem_iff]

theorem strictly_sorted {ds : List Degree} (h : (ds.map Degree.name).Nodup) :
    (ofList ds).toList.Pairwise fun a b => a.name < b.name := by
  have hnodup := nodup_names_ofList ds
  rw [toList_ofList h] at hnodup ⊢
  refine ((pairwise_byName ds).and (List.pairwise_map.1 hnodup)).imp fun ⟨hle, hne⟩ => ?_
  exact String.not_le.1 fun hge => hne (String.le_antisymm hle hge)

theorem ascending_ofList (ds : List Degree) :
    (ofList ds).toList.Pairwise fun a b => a.name < b.name := by
  have hkeys : (ofList ds).toList.map Degree.name =
      firstOccurrences ((ds.mergeSort byName).map Degree.name) := keys_lastByKey _
  have hsorted : ((ds.mergeSort byName).map Degree.name).Pairwise (· ≤ ·) :=
    List.pairwise_map.2 (pairwise_byName ds)
  have hle : ((ofList ds).toList.map Degree.name).Pairwise (· ≤ ·) := by
    rw [hkeys]
    exact hsorted.sublist (firstOccurrences_sublist _)
  refine List.pairwise_map.1 ((hle.and (nodup_names_ofList ds)).imp fun ⟨hle, hne⟩ => ?_)
  exact String.not_le.1 fun hge => hne (String.le_antisymm hle hge)

theorem filter_mergeSort_byName (ds : List Degree) (name : String) :
    (ds.mergeSort byName).filter (·.name = name) = ds.filter (·.name = name) := by
  have hname : ∀ d ∈ ds.filter (·.name = name), d.name = name := fun d hd =>
    of_decide_eq_true (List.mem_filter.1 hd).2
  have hsame : (ds.filter (·.name = name)).Pairwise fun a b => byName a b := by
    refine List.pairwise_of_forall_mem_list fun a ha b hb => decide_eq_true ?_
    have heq : a.name = b.name := (hname a ha).trans (hname b hb).symm
    exact heq ▸ String.le_refl a.name
  have hsublist := (List.sublist_mergeSort byName_trans byName_total hsame List.filter_sublist).filter
    (·.name = name)
  rw [List.filter_filter] at hsublist
  simp only [Bool.and_self] at hsublist
  exact (hsublist.eq_of_length ((List.mergeSort_perm ds byName).filter _).length_eq.symm).symm

theorem mem_ofList_iff_last {ds : List Degree} {d : Degree} :
    d ∈ (ofList ds).toList ↔ ds.findRev? (·.name = d.name) = some d := by
  have hfound : (ofList ds).toList.find? (·.name = d.name) = ds.findRev? (·.name = d.name) := by
    rw [show (ofList ds).toList = lastByKey Degree.name (ds.mergeSort byName) from rfl, find?_lastByKey,
      List.findRev?_eq_find?_reverse, List.findRev?_eq_find?_reverse, ← List.getLast?_filter,
      ← List.getLast?_filter, filter_mergeSort_byName]
  rw [← hfound, find?_key_eq_some_iff (nodup_names_ofList ds)]
  exact (and_iff_left rfl).symm

theorem nodup_ofList (ds : List Degree) : (ofList ds).toList.Nodup :=
  (List.pairwise_map.1 (nodup_names_ofList ds)).imp fun hne heq => hne (congrArg Degree.name heq)

theorem ofList_congr {ds es : List Degree} (hds : (ds.map Degree.name).Nodup)
    (hes : (es.map Degree.name).Nodup) (h : ∀ d, d ∈ ds ↔ d ∈ es) : ofList ds = ofList es := by
  have hperm : (ofList ds).toList.Perm (ofList es).toList := by
    refine (List.perm_ext_iff_of_nodup (nodup_ofList ds) (nodup_ofList es)).2 fun d => ?_
    rw [mem_ofList hds, mem_ofList hes, h]
  have hsame : (ofList ds).toList = (ofList es).toList := by
    refine List.Perm.eq_of_pairwise ?_ (strictly_sorted hds) (strictly_sorted hes) hperm
    exact fun a b _ _ hab hba => absurd hba (String.lt_asymm hab)
  exact congrArg Degrees.mk hsame

end Variability.Degrees
