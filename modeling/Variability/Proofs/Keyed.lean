import Mathlib.Data.List.Basic
import Mathlib.Data.List.Induction
import Variability.Formula.Names
import Variability.Keyed

set_option autoImplicit false

namespace Variability

variable {α κ : Type} [DecidableEq κ] {key : α → κ}

theorem find?_key_eq_some_iff {as : List α} (h : (as.map key).Nodup) {a : α} {k : κ} :
    as.find? (key · = k) = some a ↔ a ∈ as ∧ key a = k := by
  induction as with
  | nil => simp
  | cons b bs ih =>
    obtain ⟨hb, hbs⟩ := List.nodup_cons.1 h
    by_cases hk : key b = k
    · subst hk
      constructor
      · intro hfound
        obtain rfl : b = a := by simpa using hfound
        exact ⟨List.mem_cons_self, rfl⟩
      · rintro ⟨hmem, hkey⟩
        rcases List.mem_cons.1 hmem with rfl | hmem
        · simp
        · exact absurd (hkey ▸ List.mem_map_of_mem hmem) hb
    · rw [List.find?_cons_of_neg (by simpa using hk), ih hbs, List.mem_cons]
      constructor
      · exact fun ⟨hmem, hkey⟩ => ⟨.inr hmem, hkey⟩
      · rintro ⟨rfl | hmem, hkey⟩
        · exact absurd hkey hk
        · exact ⟨hmem, hkey⟩

theorem find?_key_eq_none_iff {as : List α} {k : κ} :
    as.find? (key · = k) = none ↔ k ∉ as.map key := by
  simp

theorem putBy_new {a : α} {as : List α} (h : key a ∉ as.map key) : putBy key a as = as ++ [a] := by
  induction as with
  | nil => rfl
  | cons b bs ih =>
    simp only [List.map_cons, List.mem_cons, not_or] at h
    simp [putBy, Ne.symm h.1, ih h.2]

theorem mem_putBy {a b : α} {as : List α} (h : b ∈ putBy key a as) : b = a ∨ b ∈ as := by
  induction as with
  | nil => exact .inl (List.mem_singleton.1 h)
  | cons c cs ih =>
    rw [putBy] at h
    split at h
    · exact (List.mem_cons.1 h).imp_right (List.mem_cons_of_mem c)
    · rcases List.mem_cons.1 h with rfl | hmem
      · exact .inr List.mem_cons_self
      · exact (ih hmem).imp_right (List.mem_cons_of_mem c)

theorem filter_putBy (keep : κ → Bool) {a : α} (h : keep (key a)) (as : List α) :
    ((putBy key a as).filter fun b => keep (key b)) = putBy key a (as.filter fun b => keep (key b)) := by
  induction as with
  | nil => simp [putBy, h]
  | cons b bs ih =>
    by_cases hkey : key b = key a
    · have hb : keep (key b) := hkey ▸ h
      simp [putBy, hkey, h]
    · by_cases hb : keep (key b)
      · simp [putBy, hkey, hb, ih]
      · simp [putBy, hkey, hb, ih]

theorem lastByKey_eq_self {as : List α} (h : (as.map key).Nodup) : lastByKey key as = as := by
  suffices hacc : ∀ acc : List α, ((acc ++ as).map key).Nodup →
      as.foldl (fun acc a => putBy key a acc) acc = acc ++ as from hacc [] h
  clear h
  induction as with
  | nil => simp
  | cons a as ih =>
    intro acc hnodup
    have hnew : key a ∉ acc.map key := by
      rw [List.map_append, List.map_cons] at hnodup
      intro hmem
      exact (List.nodup_append.1 hnodup).2.2 _ hmem _ List.mem_cons_self rfl
    rw [List.foldl_cons, putBy_new hnew, ih _ (by simpa using hnodup)]
    simp

theorem firstOccurrences_concat (ks : List κ) (a : κ) :
    firstOccurrences (ks ++ [a]) =
      if a ∈ ks then firstOccurrences ks else firstOccurrences ks ++ [a] := by
  induction ks with
  | nil => rfl
  | cons b bs ih =>
    rw [List.cons_append, firstOccurrences, firstOccurrences, ih]
    by_cases hmem : a ∈ bs
    · simp [hmem]
    · by_cases hab : a = b
      · subst hab
        simp [hmem, List.filter_append]
      · simp [hmem, hab, List.filter_append]

theorem firstOccurrences_append (ks ls : List κ) :
    firstOccurrences (ks ++ ls) = firstOccurrences ks ++ firstOccurrences (ls.filter (· ∉ ks)) := by
  induction ls using List.reverseRecOn with
  | nil => simp [firstOccurrences]
  | append_singleton ls a ih =>
    rw [← List.append_assoc, firstOccurrences_concat, ih, List.filter_append]
    by_cases hks : a ∈ ks
    · simp [hks]
    · have hnew : [a].filter (· ∉ ks) = [a] := by simp [hks]
      rw [hnew, firstOccurrences_concat]
      by_cases hls : a ∈ ls <;> simp [hks, hls]

theorem firstOccurrences_sublist (ks : List κ) : (firstOccurrences ks).Sublist ks := by
  induction ks with
  | nil => exact List.Sublist.slnil
  | cons b bs ih => exact (List.filter_sublist.trans ih).cons_cons b

theorem firstOccurrences_filter (p : κ → Bool) (ks : List κ) :
    firstOccurrences (ks.filter p) = (firstOccurrences ks).filter p := by
  induction ks with
  | nil => rfl
  | cons b bs ih =>
    by_cases hb : p b
    · rw [List.filter_cons_of_pos hb, firstOccurrences, firstOccurrences, List.filter_cons_of_pos hb, ih,
        List.filter_comm]
    · -- what is filtered out need not be left out before
      have hout : (firstOccurrences bs).filter (fun a => p a && decide (a ≠ b)) =
          (firstOccurrences bs).filter p :=
        List.filter_congr fun a _ => by
          by_cases hab : a = b <;> simp [hab, hb]
      rw [List.filter_cons_of_neg hb, firstOccurrences, List.filter_cons_of_neg hb, ih, List.filter_filter,
        hout]

theorem firstOccurrences_eq_self {ks : List κ} (h : ks.Nodup) : firstOccurrences ks = ks := by
  induction ks with
  | nil => rfl
  | cons b bs ih =>
    obtain ⟨hb, hbs⟩ := List.nodup_cons.1 h
    rw [firstOccurrences, ih hbs, List.filter_eq_self.2]
    rintro a ha
    exact decide_eq_true fun hab => hb (hab ▸ ha)

theorem firstOccurrences_flatMap {β : Type} (g : β → List κ) (bs : List β) :
    firstOccurrences (bs.flatMap fun b => firstOccurrences (g b)) = firstOccurrences (bs.flatMap g) := by
  induction bs with
  | nil => rfl
  | cons b bs ih =>
    have hsame : ∀ a, a ∈ firstOccurrences (g b) ↔ a ∈ g b := fun a => mem_firstOccurrences
    rw [List.flatMap_cons, List.flatMap_cons, firstOccurrences_append, firstOccurrences_append,
      firstOccurrences_eq_self (nodup_firstOccurrences _), firstOccurrences_filter, ih,
      firstOccurrences_filter]
    simp only [hsame]

theorem firstOccurrences_map {ι : Type} [DecidableEq ι] (g : κ → ι) (ks : List κ) :
    firstOccurrences ((firstOccurrences ks).map g) = firstOccurrences (ks.map g) := by
  induction ks with
  | nil => rfl
  | cons b bs ih =>
    have hfilter : (((firstOccurrences bs).filter (· ≠ b)).map g).filter (· ≠ g b) =
        ((firstOccurrences bs).map g).filter (· ≠ g b) := by
      rw [List.filter_map, List.filter_filter, List.filter_map]
      refine congrArg _ (List.filter_congr fun a _ => ?_)
      by_cases hab : a = b <;> simp [hab]
    rw [firstOccurrences, List.map_cons, List.map_cons, firstOccurrences, firstOccurrences,
      ← firstOccurrences_filter, hfilter, firstOccurrences_filter, ih]

theorem pairwise_firstOccurrences (ks : List κ) :
    (firstOccurrences ks).Pairwise fun a b => ks.idxOf a < ks.idxOf b := by
  induction ks with
  | nil => exact List.Pairwise.nil
  | cons b bs ih =>
    have hlater : ∀ a ∈ (firstOccurrences bs).filter (· ≠ b), (b :: bs).idxOf a = bs.idxOf a + 1 :=
      fun a ha => List.idxOf_cons_ne bs (Ne.symm (of_decide_eq_true (List.mem_filter.1 ha).2))
    refine List.pairwise_cons.2 ⟨fun a ha => ?_, ?_⟩
    · rw [List.idxOf_cons_self, hlater a ha]
      exact Nat.succ_pos _
    · refine (ih.filter _).imp_of_mem fun ha hc hlt => ?_
      rw [hlater _ ha, hlater _ hc]
      exact Nat.succ_lt_succ hlt

theorem findRev?_filterMap_eq_some_iff {β : Type} {f : α → Option β} {p : β → Bool} {as : List α} {b : β} :
    (as.filterMap f).findRev? p = some b ↔
      p b ∧ ∃ before a after, as = before ++ a :: after ∧ f a = some b ∧
        ∀ c ∈ after, ∀ e, f c = some e → p e = false := by
  rw [List.findRev?_eq_find?_reverse, ← List.filterMap_reverse, List.find?_filterMap,
    Option.bind_eq_some_iff]
  constructor
  · rintro ⟨a, hfound, ha⟩
    obtain ⟨hp, front, rest, hsplit, hfront⟩ := List.find?_eq_some_iff_append.1 hfound
    refine ⟨by simpa [ha] using hp, rest.reverse, a, front.reverse, ?_, ha, fun c hc e he => ?_⟩
    · simpa using congrArg List.reverse hsplit
    · simpa [he] using hfront c (List.mem_reverse.1 hc)
  · rintro ⟨hp, before, a, after, rfl, ha, hafter⟩
    refine ⟨a, List.find?_eq_some_iff_append.2 ⟨by simpa [ha] using hp, after.reverse, before.reverse,
      by simp, fun c hc => ?_⟩, ha⟩
    cases hc' : f c with
    | none => rfl
    | some e => simpa using hafter c (List.mem_reverse.1 hc) e hc'

theorem lastByKey_concat (as : List α) (a : α) :
    lastByKey key (as ++ [a]) = putBy key a (lastByKey key as) := by
  simp [lastByKey]

theorem find?_lastByKey (as : List α) (k : κ) :
    (lastByKey key as).find? (key · = k) = as.findRev? (key · = k) := by
  induction as using List.reverseRecOn with
  | nil => rfl
  | append_singleton as a ih =>
    rw [lastByKey_concat, List.findRev?_eq_find?_reverse, List.reverse_concat, List.find?_cons,
      ← List.findRev?_eq_find?_reverse]
    by_cases h : key a = k
    · subst h
      simp [find_putBy_self]
    · simp [find_putBy_other key h, h, ih]

theorem keys_lastByKey (as : List α) :
    (lastByKey key as).map key = firstOccurrences (as.map key) := by
  induction as using List.reverseRecOn with
  | nil => rfl
  | append_singleton as a ih =>
    rw [lastByKey_concat, keys_putBy, ih, List.map_append, List.map_singleton, firstOccurrences_concat]
    simp only [mem_firstOccurrences]

end Variability
