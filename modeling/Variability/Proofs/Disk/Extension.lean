import Variability.Proofs.Analysis.Project

set_option autoImplicit false

namespace Variability.Disk

variable {d d' d'' : Disk} {working path : String} {place : Place} {changed more : Place → Prop}

/-- Folders are kept, and outside some places all is as before. -/
structure Extends (changed : Place → Prop) (d d' : Disk) : Prop where
  folders : KeepsFolders d d'
  kept : ∀ place, ¬ changed place → d'.node? place = d.node? place

theorem Extends.refl (changed : Place → Prop) (d : Disk) : Extends changed d d :=
  ⟨fun _ h => h, fun _ _ => rfl⟩

theorem Extends.trans (h : Extends changed d d') (h' : Extends changed d' d'') : Extends changed d d'' where
  folders := h.folders.trans h'.folders
  kept place hplace := (h'.kept place hplace).trans (h.kept place hplace)

theorem Extends.mono (h : Extends changed d d') (hmore : ∀ place, changed place → more place) :
    Extends more d d' where
  folders := h.folders
  kept place hplace := h.kept place (mt (hmore place) hplace)

theorem Agree.extends (h : Agree changed d d') : Extends changed d d' := ⟨h.folders.keeps, h.kept⟩

def Avoids (working path : String) (changed : Place → Prop) : Prop :=
  ∀ parts ∈ (Path.parts (Path.join working path)).inits, ¬ changed (Path.walk [] parts)

instance (working path : String) (changed : Place → Prop) [DecidablePred changed] :
    Decidable (Avoids working path changed) :=
  List.decidableBAll _ _

theorem Avoids.placeOf (h : Avoids working path changed) : ¬ changed (placeOf working path) := by
  rw [placeOf_eq_walk]
  exact h _ ((List.mem_inits _ _).2 List.prefix_rfl)

theorem avoids_iff :
    Avoids working path changed ↔ ∀ place, Path.Visits [] (Path.join working path) place → ¬ changed place := by
  refine ⟨fun h place ⟨parts, hparts, hplace⟩ => ?_, fun h parts hparts => h _ ⟨parts, ?_, ?_⟩⟩
  · rw [← hplace, ite_self]
    exact h parts ((List.mem_inits _ _).2 hparts)
  · exact (List.mem_inits _ _).1 hparts
  · rw [ite_self]

theorem Avoids.normalize (hworking : Path.isAbsolute working) (h : Avoids working path changed) :
    Avoids working (Path.normalize path) changed := by
  refine avoids_iff.2 fun place hplace => avoids_iff.1 h place ?_
  rcases hplace.of_join_or (Path.ne_empty_of_isAbsolute hworking) (Path.parts_normalize path).1 with
    hbefore | hpath
  · exact hbefore
  · exact hpath.of_normalize.join_right

theorem Avoids.join (hworking : Path.isAbsolute working) (h : Avoids working path changed) {more : String}
    (hmore : ¬ Path.isAbsolute more)
    (hplaces : ∀ place, Path.Visits (Variability.placeOf working path) more place → ¬ changed place) :
    Avoids working (Path.join path more) changed := by
  have hsort : Path.isAbsolute (Path.join path more) = Path.isAbsolute path := by
    by_cases hempty : path = ""
    · rw [hempty, Path.join_empty hmore, Bool.not_eq_true _ |>.mp hmore]
      rfl
    · exact (Path.parts_join hempty hmore).1
  refine avoids_iff.2 fun place hplace => ?_
  rcases hplace.of_join_or (Path.ne_empty_of_isAbsolute hworking) hsort with hbefore | hjoin
  · exact avoids_iff.1 h place hbefore
  · exact hjoin.of_join.elim (fun hpath => avoids_iff.1 h place hpath.join_right) (hplaces place)

theorem folder_of_follow {start place : Place} {parts ps : List String}
    (h : d.follow start parts = .ok place) (hps : ps <+: parts) :
    ps = parts ∨ d.node? (Path.walk start ps) = some .folder := by
  induction parts generalizing start ps with
  | nil => exact .inl (List.prefix_nil.1 hps)
  | cons part rest ih =>
    rw [follow] at h
    split at h
    · cases h
    · cases h
    · next hstart =>
      split at h
      · cases h
      · rcases List.prefix_cons_iff.1 hps with rfl | ⟨qs, rfl, hqs⟩
        · exact .inr hstart
        · have hfollow : d.follow (Path.enter start part) rest = .ok place := h
          exact (ih hfollow hqs).imp_left (congrArg (part :: ·))

theorem avoids_of_locate (h : d.locate working path = .ok place) (hplace : ¬ changed place)
    (hchanged : ∀ place, changed place → d.node? place ≠ some .folder) : Avoids working path changed := by
  intro parts hparts hwalk
  rcases folder_of_follow (follow_of_locate h) ((List.mem_inits _ _).1 hparts) with rfl | hfolder
  · rw [← placeOf_eq_walk, ← locate_eq_ok h] at hwalk
    exact hplace hwalk
  · exact hchanged _ hwalk hfolder

namespace Extends

theorem follow_eq (h : Extends changed d d') {parts : List String} {start : Place}
    (havoids : ∀ ps, ps <+: parts → ¬ changed (Path.walk start ps)) :
    d'.follow start parts = d.follow start parts := by
  induction parts generalizing start with
  | nil => rfl
  | cons part rest ih =>
    have hstart := h.kept start (havoids [] (List.nil_prefix))
    have hrest : d'.follow (Path.enter start part) rest = d.follow (Path.enter start part) rest :=
      ih fun ps hps => havoids (part :: ps) (List.cons_prefix_cons.2 ⟨rfl, hps⟩)
    simp only [Path.enter] at hrest
    simp only [follow, hstart, hrest]

variable (h : Extends changed d d') (havoids : Avoids working path changed)

include h havoids

theorem locate_eq : d'.locate working path = d.locate working path := by
  have hfollow := h.follow_eq fun ps hps => havoids ps ((List.mem_inits _ _).2 hps)
  simp only [locate, hfollow]

theorem read_eq : d'.read working path = d.read working path := by
  unfold read
  rw [h.locate_eq havoids]
  cases hlocate : d.locate working path with
  | error e => rfl
  | ok place =>
    obtain rfl := locate_eq_ok hlocate
    simp only [bind, Except.bind, h.kept _ havoids.placeOf]

theorem located_eq : (d'.locate working path).map d'.node? = (d.locate working path).map d.node? := by
  rw [h.locate_eq havoids]
  cases hlocate : d.locate working path with
  | error e => rfl
  | ok place =>
    obtain rfl := locate_eq_ok hlocate
    simp only [Except.map, h.kept _ havoids.placeOf]

theorem isFile_eq : d'.isFile working path = d.isFile working path := by
  rw [isFile, h.located_eq havoids, isFile]

theorem cacheText_eq : d'.cacheText working path = d.cacheText working path := by
  rw [cacheText, cacheText, h.isFile_eq havoids, h.read_eq havoids]

theorem target_eq (hslash : path.toList.getLast? ≠ some '/') :
    d'.target working path = d.target working path := by
  unfold target
  rw [if_neg hslash, if_neg hslash, h.locate_eq havoids]
  cases hlocate : d.locate working path with
  | error e => rfl
  | ok place =>
    obtain rfl := locate_eq_ok hlocate
    simp only [bind, Except.bind, h.kept _ havoids.placeOf]

end Extends

end Variability.Disk
