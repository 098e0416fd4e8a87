import Variability.Proofs.Analysis.Project
import Variability.Proofs.Disk.Walk
import Variability.Proofs.Keyed

set_option autoImplicit false

namespace Variability.Disk

variable {d d' : Disk} {working folder : String} {place : Place}

theorem put_new (hroot : place ≠ []) (hnew : d.node? place = none) (node : Node) :
    d.put place node = ⟨d.entries ++ [(place, node)]⟩ := by
  have hfind : d.entries.find? (·.1 = place) = none := by simpa [node?, hroot] using hnew
  exact congrArg Disk.mk (putBy_new (find?_key_eq_none_iff.1 hfind))

def readListed (d : Disk) (working folder : String) (names : List String) :
    Option (String × Option String) :=
  (listedPath? (Path.absolute working folder) names).map fun path =>
    (path, (d.read working path).toOption)

def isListed (names : List String) : Bool := [".xml"].contains (Path.ending (names.getLastD ""))

theorem isListed_append (place : Place) {names : List String} (h : names ≠ []) :
    isListed (place ++ names) = isListed names := by
  rw [isListed, isListed, List.getLastD_eq_getLast?, List.getLast?_append_of_ne_nil _ h,
    ← List.getLastD_eq_getLast?]

theorem isListed_concat (place : Place) (name : String) : isListed (place ++ [name]) = isListed [name] :=
  isListed_append place (by simp)

theorem sources_of_isFolder (h : d.isFolder working folder) :
    d.sources working folder =
      ((d.filesBelow working folder).filter isListed).filterMap (d.readListed working folder) := by
  rw [sources, sourcePaths, if_pos h, List.map_filterMap]
  rfl

theorem sources_of_not_isFolder (h : ¬ d.isFolder working folder) : d.sources working folder = [] := by
  rw [sources, sourcePaths, if_neg h]
  rfl

theorem eq_of_readListed {names : List String} {source : String × Option String}
    (h : d.readListed working folder names = some source) :
    source.1 = listedPath working folder names ∧
      (d.read working source.1).toOption = source.2 := by
  obtain ⟨path, hpath, rfl⟩ := Option.map_eq_some_iff.1 h
  exact ⟨listedPath?_eq_some hpath, rfl⟩

theorem read_of_mem_sources {source : String × Option String}
    (h : source ∈ d.sources working folder) : (d.read working source.1).toOption = source.2 := by
  obtain ⟨path, -, rfl⟩ := List.mem_map.1 h
  rfl

theorem node?_of_mem_sources {path text : String}
    (h : (path, some text) ∈ d.sources working folder) :
    d.node? (placeOf working path) = some (.file text) := by
  have hread : d.read working path = .ok text := by
    have hsome := read_of_mem_sources h
    cases hpath : d.read working path with
    | error e => simp [hpath, Except.toOption] at hsome
    | ok text' => simpa [hpath, Except.toOption] using hsome
  obtain ⟨place, hlocate, hnode⟩ := read_eq_ok_iff.1 hread
  exact locate_eq_ok hlocate ▸ hnode

theorem mem_entries_of_node? {node : Node} (hroot : place ≠ []) (h : d.node? place = some node) :
    (place, node) ∈ d.entries := by
  rw [node?, if_neg hroot] at h
  obtain ⟨e, hfind, rfl⟩ := Option.map_eq_some_iff.1 h
  obtain rfl : e.1 = place := by simpa using List.find?_some hfind
  exact List.mem_of_find?_eq_some hfind

theorem eq_of_fileBelow? {e : Place × Node} {names : List String} (h : fileBelow? place e = some names) :
    e.1 = place ++ names := by
  unfold fileBelow? below? at h
  split at h
  · split at h
    · next hwithin =>
      obtain ⟨rest, hrest⟩ := List.isPrefixOf_iff_prefix.1 hwithin
      rw [← hrest, List.drop_left, Option.some.injEq] at h
      rw [← hrest, h]
    · cases h
  · cases h

/-- The order of the files apart, the source files are those of the entries below the folder. -/
theorem mem_sources_iff {source : String × Option String} :
    source ∈ d.sources working folder ↔ d.isFolder working folder ∧ ∃ e ∈ d.entries,
      ∃ names ∈ fileBelow? (placeOf working folder) e, isListed names ∧
        d.readListed working folder names = some source := by
  by_cases hfolder : d.isFolder working folder
  · obtain ⟨place, hlocate, hnode⟩ := isFolder_iff.1 hfolder
    obtain rfl := locate_eq_ok hlocate
    have hbelow : ∀ names, names ∈ d.filesBelow working folder ↔
        ∃ e ∈ d.entries, names ∈ fileBelow? (placeOf working folder) e := fun names => by
      rw [filesBelow_of_locate hlocate, if_neg (not_not_intro hnode), (List.mergeSort_perm _ _).mem_iff,
        List.mem_filterMap]
      rfl
    rw [sources_of_isFolder hfolder]
    simp only [List.mem_filterMap, List.mem_filter, hbelow, hfolder, true_and]
    exact ⟨fun ⟨names, ⟨⟨e, he, hnames⟩, hlisted⟩, hread⟩ => ⟨e, he, names, hnames, hlisted, hread⟩,
      fun ⟨e, he, names, hnames, hlisted, hread⟩ => ⟨names, ⟨⟨e, he, hnames⟩, hlisted⟩, hread⟩⟩
  · simp [sources_of_not_isFolder hfolder, hfolder]

theorem node?_ne_none_of_mem_entries {node : Node} (h : (place, node) ∈ d.entries) :
    d.node? place ≠ none := by
  by_cases hroot : place = []
  · simp [node?, hroot]
  · simp only [node?, if_neg hroot, ne_eq, Option.map_eq_none_iff, List.find?_eq_none, not_forall]
    exact ⟨_, h, by simp⟩

theorem node?_ne_none_of_mem_sources (hnames : d.ProperNames) (hworking : Path.isAbsolute working)
    {source : String × Option String} (h : source ∈ d.sources working folder) :
    d.node? (placeOf working source.1) ≠ none := by
  obtain ⟨-, e, he, names, hbelow, -, hread⟩ := mem_sources_iff.1 h
  have hplace := eq_of_fileBelow? hbelow
  have hproper : ∀ name ∈ names, Path.IsName name := fun name hname =>
    hnames e he name (hplace ▸ List.mem_append_right _ hname)
  rw [(eq_of_readListed hread).1, placeOf_listedPath hworking folder hproper, ← hplace]
  exact node?_ne_none_of_mem_entries he

/-- A file that can be read lies in a folder that is looked into. -/
theorem listedPath?_eq {names : List String} (hproper : ∀ name ∈ names, Path.IsName name) {text : String}
    (hread : d.read working (listedPath working folder names) = .ok text) :
    listedPath? (Path.absolute working folder) names = some (listedPath working folder names) := by
  obtain ⟨place, hlocate, -⟩ := read_eq_ok_iff.1 hread
  have hsize : (listedPath working folder names).utf8ByteSize ≤ pathLimit :=
    utf8ByteSize_le_of_locate hlocate
  refine if_pos (le_trans ?_ hsize)
  rcases List.eq_nil_or_concat names with rfl | ⟨before, name, rfl⟩
  · exact le_rfl
  · have hname : Path.isAbsolute name = false := Path.isAbsolute_name (hproper name (by simp))
    rw [List.concat_eq_append, List.dropLast_concat, listedPath, List.foldl_append]
    exact Path.utf8ByteSize_le_join (by simp [hname])

theorem mem_sources {names : List String} {text : String} (hnames : d.ProperNames)
    (hfolder : d.isFolder working folder)
    (hentry : (placeOf working folder ++ names, .file text) ∈ d.entries) (hlisted : isListed names)
    (hread : d.read working (listedPath working folder names) = .ok text) :
    (listedPath working folder names, some text) ∈ d.sources working folder := by
  have hproper : ∀ name ∈ names, Path.IsName name := fun name hname =>
    hnames _ hentry name (List.mem_append_right _ hname)
  have hsource : d.readListed working folder names = some (listedPath working folder names, some text) := by
    rw [readListed, listedPath?_eq hproper hread, Option.map_some, hread]
    rfl
  exact mem_sources_iff.2 ⟨hfolder, _, hentry, names, by simp [fileBelow?, below?], hlisted, hsource⟩

theorem nodup_sources (hkeys : (d.entries.map Prod.fst).Nodup) (hnames : d.ProperNames)
    (hworking : Path.isAbsolute working) :
    ((d.sources working folder).map fun source => placeOf working source.1).Nodup := by
  by_cases hfolder : d.isFolder working folder
  · have hbelow : (d.filesBelow working folder).Nodup := by
      obtain ⟨place, hlocate, hnode⟩ := isFolder_iff.1 hfolder
      rw [filesBelow_of_locate hlocate, if_neg (not_not_intro hnode), (List.mergeSort_perm _ _).nodup_iff]
      refine List.pairwise_filterMap.2
        ((List.pairwise_map.1 hkeys).imp fun hother names hname names' hname' => ?_)
      rintro rfl
      exact hother ((eq_of_fileBelow? hname).trans (eq_of_fileBelow? hname').symm)
    rw [sources_of_isFolder hfolder, List.map_filterMap]
    refine List.pairwise_filterMap.2 ((hbelow.filter _).imp_of_mem fun hmem hmem' hother place hplace place'
      hplace' => ?_)
    have hplaced : ∀ names ∈ d.filesBelow working folder, ∀ place,
        ((d.readListed working folder names).map fun source => placeOf working source.1) = some place →
          place = placeOf working folder ++ names := by
      intro names hnames' place hplace
      obtain ⟨source, hread, rfl⟩ := Option.map_eq_some_iff.1 hplace
      rw [(eq_of_readListed hread).1, placeOf_listedPath hworking folder (hnames.of_mem_filesBelow hnames')]
    rw [hplaced _ (List.mem_of_mem_filter hmem) place hplace,
      hplaced _ (List.mem_of_mem_filter hmem') place' hplace']
    exact fun hsame => hother (List.append_cancel_left hsame)
  · rw [sources_of_not_isFolder hfolder]
    exact List.nodup_nil

theorem sources_once (hkeys : (d.entries.map Prod.fst).Nodup) (hnames : d.ProperNames)
    (hworking : Path.isAbsolute working) {source : String × Option String}
    (h : source ∈ d.sources working folder) :
    (d.sources working folder).countP
      (fun other => placeOf working other.1 = placeOf working source.1) = 1 := by
  have hnodup : ((d.sources working folder).map fun source => placeOf working source.1).Nodup :=
    nodup_sources hkeys hnames hworking
  have hcount := List.count_eq_one_of_mem hnodup (List.mem_map_of_mem h)
  rw [List.count, List.countP_map] at hcount
  simpa [Function.comp_def, beq_eq_decide] using hcount

theorem ProperNames.put (h : d.ProperNames) (hplace : ∀ name ∈ place, Path.IsName name) (node : Node) :
    (d.put place node).ProperNames := by
  intro e he name hname
  rcases mem_putBy he with rfl | hold
  · exact hplace name hname
  · exact h e hold name hname

variable (keep : Place → Bool)

theorem filter_filesBelow (hfolder : d.isFolder working folder) :
    (d.filesBelow working folder).filter (fun names => keep (placeOf working folder ++ names)) =
      ((d.entries.filter fun e => keep e.1).filterMap
        (fileBelow? (placeOf working folder))).mergeSort walkOrder := by
  obtain ⟨place, hlocate, hnode⟩ := isFolder_iff.1 hfolder
  obtain rfl := locate_eq_ok hlocate
  rw [filesBelow_of_locate hlocate, if_neg (not_not_intro hnode), filter_mergeSort, List.filter_filterMap,
    List.filterMap_filter]
  congr 1
  refine List.filterMap_congr fun e _ => ?_
  cases hbelow : fileBelow? (placeOf working folder) e with
  | none => simp
  | some names => rw [Option.filter_some, ← eq_of_fileBelow? hbelow]

theorem filter_sources (hnames : d.ProperNames) (hworking : Path.isAbsolute working)
    (hfolder : d.isFolder working folder) :
    (d.sources working folder).filter (fun source => keep (placeOf working source.1)) =
      ((((d.entries.filter fun e => keep e.1).filterMap
        (fileBelow? (placeOf working folder))).mergeSort walkOrder).filter isListed).filterMap
          (d.readListed working folder) := by
  rw [sources_of_isFolder hfolder, ← filter_filesBelow keep hfolder, List.filter_comm, List.filter_filterMap]
  conv_rhs => rw [List.filterMap_filter]
  refine List.filterMap_congr fun names hlisted => ?_
  have hproper := hnames.of_mem_filesBelow (List.mem_of_mem_filter hlisted)
  cases hread : d.readListed working folder names with
  | none => simp
  | some source =>
    rw [Option.filter_some, (eq_of_readListed hread).1, placeOf_listedPath hworking folder hproper]

theorem Agree.filter_sources_eq {written : Place → Prop} (h : Agree written d d')
    (hkeep : ∀ place, keep place → ¬ written place)
    (hentries : (d'.entries.filter fun e => keep e.1) = d.entries.filter fun e => keep e.1)
    (hnames : d.ProperNames) (hnames' : d'.ProperNames) (hworking : Path.isAbsolute working) (folder : String) :
    (d'.sources working folder).filter (fun source => keep (placeOf working source.1)) =
      (d.sources working folder).filter fun source => keep (placeOf working source.1) := by
  have hfolder := h.isFolder_eq working folder
  by_cases hd : d.isFolder working folder
  · rw [filter_sources keep hnames hworking hd, filter_sources keep hnames' hworking (hfolder.trans hd),
      hentries]
    refine List.filterMap_congr fun names hlisted => ?_
    obtain ⟨e, he, hbelow⟩ := List.mem_filterMap.1
      ((List.mergeSort_perm _ _).mem_iff.1 (List.mem_of_mem_filter hlisted))
    obtain ⟨hentry, hplace⟩ := List.mem_filter.1 he
    rw [eq_of_fileBelow? hbelow] at hplace
    have hproper : ∀ name ∈ names, Path.IsName name := fun name hname =>
      hnames e hentry name (eq_of_fileBelow? hbelow ▸ List.mem_append_right _ hname)
    have hnode := h.kept (placeOf working (listedPath working folder names)) (by
      rw [placeOf_listedPath hworking folder hproper]
      exact hkeep _ hplace)
    refine Option.map_congr fun path hpath => ?_
    obtain rfl := listedPath?_eq_some hpath
    rw [h.folders.toOption_read hnode.symm]
  · rw [sources_of_not_isFolder hd, sources_of_not_isFolder (hfolder ▸ hd)]

end Variability.Disk
