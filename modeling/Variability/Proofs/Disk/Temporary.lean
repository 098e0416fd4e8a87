import Variability.Proofs.Disk.Extension

set_option autoImplicit false

namespace Variability.Disk

variable {d : Disk} {working path : String} {place : Place} {changed : Place → Prop}

theorem makeFolder_eq (d : Disk) (working path : String) :
    d.makeFolder working path = d ∨ ∃ place, d.locate working path = .ok place ∧
      d.node? place = none ∧ d.makeFolder working path = d.put place .folder := by
  unfold makeFolder
  cases hlocate : d.locate working path with
  | error e => exact .inl rfl
  | ok place =>
    cases hnode : d.node? place with
    | some node => exact .inl (by simp [hnode])
    | none => exact .inr ⟨place, rfl, hnode, by simp [hnode]⟩

theorem extends_put_new (hnew : d.node? place = none) (hplace : changed place) (node : Node) :
    Extends changed d (d.put place node) where
  folders other hother := by
    have hne : place ≠ other := by
      rintro rfl
      rw [hnew] at hother
      cases hother
    rwa [node?_put_other d hne]
  kept other hother := node?_put_other d (by rintro rfl; exact hother hplace) _

theorem extends_makeFolder (h : changed (placeOf working path)) :
    Extends changed d (d.makeFolder working path) := by
  rcases d.makeFolder_eq working path with hsame | ⟨place, hlocate, hnew, hput⟩
  · exact hsame.symm ▸ .refl changed d
  · obtain rfl := locate_eq_ok hlocate
    exact hput.symm ▸ extends_put_new hnew h .folder

theorem follow_concat {parts : List String} {part : String} {start q : Place}
    (h : d.follow start (parts ++ [part]) = .ok q) :
    ∃ r, d.follow start parts = .ok r ∧ d.node? r = some .folder := by
  induction parts generalizing start with
  | nil =>
    refine ⟨start, rfl, ?_⟩
    simp only [List.nil_append, follow] at h
    split at h
    · cases h
    · cases h
    · assumption
  | cons first parts ih =>
    rw [List.cons_append, follow] at h
    rw [follow]
    split at h
    · cases h
    · cases h
    · split at h
      · cases h
      · next hshort =>
        obtain ⟨r, hr, hfolder⟩ := ih h
        refine ⟨r, ?_, hfolder⟩
        simp only [hshort, if_false, hr]

variable {names : List String} {name : String}

theorem locate_ofNames_concat (hnames : ∀ name ∈ names, Path.IsName name) (hne : names ≠ [])
    (hname : Path.IsName name) (h : d.locate working (Path.ofNames (names ++ [name])) = .ok place) :
    d.locate working (Path.ofNames names) = .ok names ∧ d.node? names = some .folder := by
  have hall : ∀ n ∈ names ++ [name], Path.IsName n := fun n hn =>
    (List.mem_append.1 hn).elim (hnames n) fun hn => List.mem_singleton.1 hn ▸ hname
  have htext := Path.ofNames_concat hne name
  have hnotEmpty : Path.ofNames names ≠ "" := by
    intro hempty
    have habsolute := Path.isAbsolute_ofNames names
    rw [hempty] at habsolute
    cases habsolute
  unfold locate at h
  rw [Path.join_ofNames_right, Path.parts_ofNames hall (by simp)] at h
  split at h
  · cases h
  · split at h
    · cases h
    · next hnul =>
      split at h
      · cases h
      · next hlong =>
        obtain ⟨r, hfollow, hfolder⟩ :
            ∃ r, d.follow [] ("" :: names) = .ok r ∧ d.node? r = some .folder := follow_concat h
        have hlocate : d.locate working (Path.ofNames names) = .ok r := by
          unfold locate
          rw [if_neg hnotEmpty, if_neg, if_neg, Path.join_ofNames_right, Path.parts_ofNames hnames hne]
          · exact hfollow
          · rw [htext, String.utf8ByteSize_append] at hlong
            omega
          · rw [htext, String.toList_append] at hnul
            exact fun hmem => hnul (List.mem_append_left _ hmem)
        have hplace : placeOf working (Path.ofNames names) = names := Path.resolve_ofNames hnames _
        obtain rfl : r = names := (locate_eq_ok hlocate).trans hplace
        exact ⟨hlocate, hfolder⟩

theorem remove_of_locate (h : d.locate working path = .ok place) :
    d.remove working path = d.removeBelow place := by
  simp only [remove, h]

theorem node?_removeBelow_below (hroot : place ≠ []) {other : Place} (h : place <+: other) :
    (d.removeBelow place).node? other = none := by
  have hother : other ≠ [] := by
    rintro rfl
    exact hroot (List.prefix_nil.1 h)
  have hfind : (d.removeBelow place).entries.find? (·.1 = other) = none := by
    rw [List.find?_eq_none]
    intro e he hplace
    obtain rfl : e.1 = other := of_decide_eq_true hplace
    have hkept := (List.mem_filter.1 he).2
    rw [List.isPrefixOf_iff_prefix.2 h] at hkept
    cases hkept
  rw [node?, if_neg hother, hfind]
  rfl

end Variability.Disk
