import Mathlib
import Variability.Disk.Basic
import Variability.Proofs.Path

set_option autoImplicit false

namespace Variability

def placeOf (working path : String) : Place := Path.resolve (Path.resolve [] working) path

namespace Disk

variable {d d' d'' : Disk} {working path : String} {place : Place}

theorem follow_eq_ok {place q : Place} {parts : List String} (h : d.follow place parts = .ok q) :
    q = Path.walk place parts := by
  induction parts generalizing place with
  | nil => exact (Except.ok.inj h).symm
  | cons part rest ih =>
    simp only [follow] at h
    split at h
    · simp at h
    · simp at h
    · split at h
      · simp at h
      · exact ih h

theorem follow_of_locate (h : d.locate working path = .ok place) :
    d.follow [] (Path.parts (Path.join working path)) = .ok place := by
  unfold locate at h
  split at h
  · cases h
  · split at h
    · cases h
    · split at h
      · cases h
      · exact h

theorem utf8ByteSize_le_of_locate (h : d.locate working path = .ok place) :
    path.utf8ByteSize ≤ pathLimit := by
  by_contra hlong
  unfold locate at h
  split at h
  · cases h
  · split at h
    · cases h
    · rw [if_pos (Nat.lt_of_not_le hlong)] at h
      cases h

theorem placeOf_eq_walk (working path : String) :
    placeOf working path = Path.walk [] (Path.parts (Path.join working path)) := by
  rw [placeOf, ← Path.resolve_join]
  simp [Path.resolve]

theorem locate_eq_ok (h : d.locate working path = .ok place) : place = placeOf working path := by
  rw [placeOf_eq_walk]
  exact follow_eq_ok (follow_of_locate h)

def KeepsFolders (d d' : Disk) : Prop :=
  ∀ place, d.node? place = some .folder → d'.node? place = some .folder

theorem KeepsFolders.trans (h : KeepsFolders d d') (h' : KeepsFolders d' d'') : KeepsFolders d d'' :=
  fun place hplace => h' place (h place hplace)

theorem KeepsFolders.follow_ok (h : KeepsFolders d d') {place q : Place} {parts : List String}
    (hfollow : d.follow place parts = .ok q) : d'.follow place parts = .ok q := by
  induction parts generalizing place with
  | nil => exact hfollow
  | cons part rest ih =>
    simp only [follow] at hfollow ⊢
    split at hfollow
    · simp at hfollow
    · simp at hfollow
    · next hfolder =>
      rw [h place hfolder]
      simp only
      split at hfollow
      · simp at hfollow
      · next hshort =>
        rw [if_neg hshort]
        exact ih hfollow

theorem KeepsFolders.locate_ok (h : KeepsFolders d d') (hlocate : d.locate working path = .ok place) :
    d'.locate working path = .ok place := by
  unfold locate at hlocate ⊢
  split at hlocate
  · simp at hlocate
  · split at hlocate
    · simp at hlocate
    · split at hlocate
      · simp at hlocate
      · simp_all [h.follow_ok hlocate]

def SameFolders (d d' : Disk) : Prop :=
  ∀ place, d.node? place = some .folder ↔ d'.node? place = some .folder

theorem SameFolders.symm (h : SameFolders d d') : SameFolders d' d := fun place => (h place).symm

theorem SameFolders.trans (h : SameFolders d d') (h' : SameFolders d' d'') : SameFolders d d'' :=
  fun place => (h place).trans (h' place)

theorem SameFolders.keeps (h : SameFolders d d') : KeepsFolders d d' := fun place => (h place).1

theorem SameFolders.locate_ok (h : SameFolders d d') (hlocate : d.locate working path = .ok place) :
    d'.locate working path = .ok place :=
  h.keeps.locate_ok hlocate

theorem SameFolders.locate_iff (h : SameFolders d d') :
    d.locate working path = .ok place ↔ d'.locate working path = .ok place :=
  ⟨h.locate_ok, h.symm.locate_ok⟩

theorem isFolder_iff :
    d.isFolder working path ↔
      ∃ place, d.locate working path = .ok place ∧ d.node? place = some .folder := by
  unfold isFolder
  cases hlocate : d.locate working path with
  | error e => simp [Except.map]
  | ok place =>
    cases hnode : d.node? place with
    | none => simp [Except.map, hnode]
    | some node => cases node <;> simp [Except.map, hnode]

theorem SameFolders.isFolder_eq (h : SameFolders d d') (working path : String) :
    d.isFolder working path = d'.isFolder working path := by
  rw [Bool.eq_iff_iff, isFolder_iff, isFolder_iff]
  exact exists_congr fun place => and_congr h.locate_iff (h place)

theorem isFile_iff :
    d.isFile working path ↔
      ∃ place text, d.locate working path = .ok place ∧ d.node? place = some (.file text) := by
  unfold isFile
  cases hlocate : d.locate working path with
  | error e => simp [Except.map]
  | ok place =>
    cases hnode : d.node? place with
    | none => simp [Except.map, hnode]
    | some node => cases node <;> simp [Except.map, hnode]

theorem read_eq_ok_iff {text : String} :
    d.read working path = .ok text ↔
      ∃ place, d.locate working path = .ok place ∧ d.node? place = some (.file text) := by
  unfold read
  cases hlocate : d.locate working path with
  | error e => simp [bind, Except.bind]
  | ok place =>
    cases hnode : d.node? place with
    | none => simp [bind, Except.bind, hnode]
    | some node => cases node <;> simp [bind, Except.bind, hnode]

theorem isFile_iff_read : d.isFile working path ↔ ∃ text, d.read working path = .ok text := by
  rw [isFile_iff, exists_comm]
  exact exists_congr fun text => read_eq_ok_iff.symm

theorem target_eq_ok_iff :
    d.target working path = .ok place ↔
      path.toList.getLast? ≠ some '/' ∧ d.locate working path = .ok place ∧
        d.node? place ≠ some .folder := by
  unfold target
  by_cases hslash : path.toList.getLast? = some '/'
  · rw [if_pos hslash]
    cases d.locate working (withoutSlashes path) <;> simp [hslash, bind, Except.bind]
  · rw [if_neg hslash]
    cases hlocate : d.locate working path with
    | error e => simp [bind, Except.bind]
    | ok q =>
      simp only [bind, Except.bind, Except.ok.injEq]
      split
      · next hnode =>
        simp only [reduceCtorEq, false_iff]
        rintro ⟨-, rfl, hother⟩
        exact hother hnode
      · next hnode =>
        rw [Except.ok.injEq]
        constructor
        · rintro rfl
          exact ⟨hslash, rfl, fun h => hnode h⟩
        · exact fun h => h.2.1

theorem write_eq_ok {text : String} (hwrite : d.write working path text = .ok d') :
    d.locate working path = .ok (placeOf working path) ∧ placeOf working path ≠ [] ∧
      d.node? (placeOf working path) ≠ some .folder ∧ d' = d.put (placeOf working path) (.file text) := by
  rw [write] at hwrite
  cases htarget : d.target working path with
  | error e => simp [htarget, Except.map] at hwrite
  | ok place =>
    obtain ⟨-, hlocate, hfolder⟩ := target_eq_ok_iff.1 htarget
    obtain rfl := locate_eq_ok hlocate
    obtain rfl : d.put (placeOf working path) (.file text) = d' := by
      simpa [htarget, Except.map] using hwrite
    exact ⟨hlocate, fun hroot => hfolder (hroot ▸ rfl), hfolder, rfl⟩

theorem SameFolders.target_iff (h : SameFolders d d') :
    d.target working path = .ok place ↔ d'.target working path = .ok place := by
  rw [target_eq_ok_iff, target_eq_ok_iff, h.locate_iff]
  exact and_congr_right' (and_congr_right' (not_congr (h place)))

theorem SameFolders.read_iff (h : SameFolders d d')
    (hnode : d.node? (placeOf working path) = d'.node? (placeOf working path)) (text : String) :
    d.read working path = .ok text ↔ d'.read working path = .ok text := by
  rw [read_eq_ok_iff, read_eq_ok_iff]
  refine exists_congr fun place => ?_
  constructor
  · rintro ⟨hlocate, hfile⟩
    obtain rfl := locate_eq_ok hlocate
    exact ⟨h.locate_ok hlocate, hnode ▸ hfile⟩
  · rintro ⟨hlocate, hfile⟩
    obtain rfl := locate_eq_ok hlocate
    exact ⟨h.symm.locate_ok hlocate, hnode ▸ hfile⟩

theorem SameFolders.toOption_read (h : SameFolders d d')
    (hnode : d.node? (placeOf working path) = d'.node? (placeOf working path)) :
    (d.read working path).toOption = (d'.read working path).toOption := by
  have hread := h.read_iff hnode
  cases hleft : d.read working path with
  | ok text => rw [(hread text).1 hleft]
  | error e =>
    cases hright : d'.read working path with
    | ok text => simp [(hread text).2 hright] at hleft
    | error e' => rfl

theorem SameFolders.isFile_eq (h : SameFolders d d')
    (hnode : d.node? (placeOf working path) = d'.node? (placeOf working path)) :
    d.isFile working path = d'.isFile working path := by
  rw [Bool.eq_iff_iff, isFile_iff_read, isFile_iff_read]
  exact exists_congr (h.read_iff hnode)

/-- The disks differ at some places only, and there in files only. -/
structure Agree (written : Place → Prop) (d d' : Disk) : Prop where
  folders : SameFolders d d'
  kept : ∀ place, ¬ written place → d'.node? place = d.node? place
  listed : ∀ folder, (∀ place, written place → ¬ folder <+: place) →
    d'.entries.filter (fun e => folder.isPrefixOf e.1) =
      d.entries.filter fun e => folder.isPrefixOf e.1

variable {written : Place → Prop}

theorem Agree.refl (written : Place → Prop) (d : Disk) : Agree written d d :=
  ⟨fun _ => Iff.rfl, fun _ _ => rfl, fun _ _ => rfl⟩

theorem Agree.trans (h : Agree written d d') (h' : Agree written d' d'') : Agree written d d'' where
  folders := h.folders.trans h'.folders
  kept place hplace := (h'.kept place hplace).trans (h.kept place hplace)
  listed folder hfolder := (h'.listed folder hfolder).trans (h.listed folder hfolder)

theorem Agree.mono {more : Place → Prop} (h : Agree written d d')
    (hmore : ∀ place, written place → more place) : Agree more d d' where
  folders := h.folders
  kept place hplace := h.kept place (mt (hmore place) hplace)
  listed folder hfolder := h.listed folder fun place hplace => hfolder place (hmore place hplace)

theorem filter_putBy_eq {α κ : Type} [DecidableEq κ] {key : α → κ} {a : α} {keep : α → Bool}
    (hkeep : ∀ b, key b = key a → keep b = false) (as : List α) :
    (putBy key a as).filter keep = as.filter keep := by
  induction as with
  | nil => simp [putBy, hkeep a rfl]
  | cons b bs ih =>
    by_cases h : key b = key a
    · simp [putBy, h, hkeep b h, hkeep a rfl]
    · simp [putBy, h, List.filter_cons, ih]

theorem agree_put {text : String} (hroot : place ≠ []) (hfolder : d.node? place ≠ some .folder)
    (hwritten : written place) : Agree written d (d.put place (.file text)) where
  folders other := by
    by_cases h : place = other
    · subst h
      simp [node?_put_self d hroot, hfolder]
    · rw [node?_put_other d h]
  kept other hother := node?_put_other d (by rintro rfl; exact hother hwritten) _
  listed folder hlisted := by
    refine filter_putBy_eq (fun e he => ?_) d.entries
    have hother := hlisted place hwritten
    rw [← (show e.1 = place from he), ← List.isPrefixOf_iff_prefix] at hother
    exact Bool.not_eq_true _ ▸ hother

theorem agree_write {text : String} (h : d.write working path text = .ok d')
    (hwritten : written (placeOf working path)) : Agree written d d' := by
  obtain ⟨-, hroot, hfolder, rfl⟩ := write_eq_ok h
  exact agree_put hroot hfolder hwritten

theorem Agree.isFolder_eq (h : Agree written d d') (working path : String) :
    d'.isFolder working path = d.isFolder working path :=
  (h.folders.isFolder_eq working path).symm

def fileBelow? (place : Place) (e : Place × Node) : Option (List String) :=
  match e.2 with
  | .file _ => below? place e.1
  | .folder => none

theorem filesBelow_of_locate (h : d.locate working path = .ok place) :
    d.filesBelow working path =
      if d.node? place ≠ some .folder then []
      else (d.entries.filterMap (fileBelow? place)).mergeSort walkOrder := by
  simp only [filesBelow, h]
  rfl

theorem Agree.filesBelow_eq (h : Agree written d d') {folder : String}
    (hfolder : ∀ place, written place → ¬ placeOf working folder <+: place) :
    d'.filesBelow working folder = d.filesBelow working folder := by
  have hentries : ∀ (place : Place) (e : Disk), e.entries.filterMap (fileBelow? place) =
      (e.entries.filter fun e => place.isPrefixOf e.1).filterMap (fileBelow? place) := by
    intro place e
    rw [List.filterMap_filter]
    refine List.filterMap_congr fun entry _ => ?_
    by_cases hwithin : place.isPrefixOf entry.1
    · simp [hwithin]
    · cases hnode : entry.2 <;> simp [fileBelow?, below?, hnode, hwithin]
  cases hlocate : d.locate working folder with
  | error e =>
    cases hlocate' : d'.locate working folder with
    | error e => simp [filesBelow, hlocate, hlocate']
    | ok place => simp [h.folders.locate_iff.2 hlocate'] at hlocate
  | ok place =>
    obtain rfl := locate_eq_ok hlocate
    rw [filesBelow_of_locate hlocate, filesBelow_of_locate (h.folders.locate_ok hlocate),
      hentries _ d', h.listed _ hfolder, ← hentries]
    simp only [ne_eq, h.folders _]

end Disk
end Variability
