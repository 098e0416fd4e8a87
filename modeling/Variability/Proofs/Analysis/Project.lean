import Variability.Proofs.Analysis.Writes

set_option autoImplicit false

namespace Variability

theorem isName_sourceFolder : Path.IsName sourceFolder := by decide

theorem Kind.isName_resultFile (k : Kind) : Path.IsName k.resultFile := by
  cases k <;> decide

theorem Kind.resultFile_ne_sourceFolder (k : Kind) : k.resultFile ≠ sourceFolder := by
  cases k <;> decide

theorem Kind.resultFile_injective {j k : Kind} (h : j.resultFile = k.resultFile) : j = k := by
  cases j <;> cases k <;> first | rfl | (exact absurd h (by decide))

def Options.commonFiles (o : Options) : List String :=
  o.list :: (o.modelPath.toList ++ o.cachePath.toList)

def Options.CachePlace (o : Options) (working : String) (place : Place) : Prop :=
  ∃ cache ∈ o.cachePath, place = placeOf working cache

def resultPlace (working project : String) (k : Kind) : Place :=
  placeOf working project ++ [k.resultFile]

theorem placeOf_sourceFolder (working project : String) :
    placeOf working (Path.join project sourceFolder) = placeOf working project ++ [sourceFolder] := by
  rw [placeOf, Path.resolve_join, Path.resolve_name isName_sourceFolder]
  rfl

theorem placeOf_resultPath {i : Inputs} {project : String} (h : i.folder = Path.join project sourceFolder)
    (working : String) (k : Kind) : placeOf working (i.resultPath k) = resultPlace working project k := by
  have hfolder := placeOf_sourceFolder working project
  rw [placeOf] at hfolder
  rw [placeOf, Inputs.resultPath, h, Path.resolve_beside _ _ k.isName_resultFile, hfolder,
    List.dropLast_concat]
  rfl

/-- Above a result there is no folder of source files but those on the way to its project. -/
theorem project_within {working p q : String} {k : Kind}
    (h : placeOf working p ++ [sourceFolder] <+: resultPlace working q k) :
    placeOf working p ++ [sourceFolder] <+: placeOf working q := by
  rcases List.prefix_concat_iff.1 h with heq | hinside
  · exact absurd (List.cons.inj (List.append_inj' heq rfl).2).1.symm k.resultFile_ne_sourceFolder
  · exact hinside

theorem result_not_source (working project : String) (k : Kind) :
    ¬ placeOf working project ++ [sourceFolder] <+: resultPlace working project k := by
  intro hwithin
  have hlength := (project_within hwithin).length_le
  rw [List.length_append, List.length_singleton] at hlength
  omega

theorem placeOf_absolute {working : String} (h : Path.isAbsolute working) (path : String) :
    placeOf working (Path.absolute working path) = placeOf working path := by
  have hworking : ∀ place, Path.resolve place working = Path.resolve [] working := by
    intro place
    simp [Path.resolve, h]
  rw [placeOf, Path.absolute, Path.resolve_normalize, Path.resolve_join, hworking, placeOf]

theorem isName_of_mem_placeOf {working path name : String} (h : name ∈ placeOf working path) :
    Path.IsName name := by
  have hwalk : ∀ (parts : List String) (place : Place), (∀ part ∈ parts, '/' ∉ part.toList) →
      (∀ name ∈ place, Path.IsName name) → ∀ name ∈ Path.walk place parts, Path.IsName name := by
    intro parts
    induction parts with
    | nil => exact fun _ _ hplace => hplace
    | cons part parts ih =>
      intro place hparts hplace
      obtain ⟨hpart, hrest⟩ := List.forall_mem_cons.1 hparts
      refine ih _ hrest fun name hname => ?_
      unfold Path.enter at hname
      split at hname
      · exact hplace name hname
      · next hskip =>
        split at hname
        · exact hplace name (List.dropLast_subset _ hname)
        · next hdots =>
          rcases List.mem_append.1 hname with hname | hname
          · exact hplace name hname
          · obtain rfl := List.mem_singleton.1 hname
            exact ⟨fun h => hskip (.inl h), fun h => hskip (.inr h), hdots, hpart⟩
  have hresolve : ∀ (place : Place) (path : String), (∀ name ∈ place, Path.IsName name) →
      ∀ name ∈ Path.resolve place path, Path.IsName name := by
    intro place path hplace
    refine hwalk _ _ (fun part => Path.slash_not_mem_of_mem_parts) ?_
    split
    · simp
    · exact hplace
  exact hresolve _ path (hresolve [] working (by simp)) name h

namespace Disk

variable {d d' : Disk} {working folder : String} {written : Place → Prop}

def ProperNames (d : Disk) : Prop := ∀ e ∈ d.entries, ∀ name ∈ e.1, Path.IsName name

instance (d : Disk) : Decidable d.ProperNames :=
  inferInstanceAs (Decidable (∀ e ∈ d.entries, ∀ name ∈ e.1, Path.IsName name))

theorem ProperNames.of_mem_filesBelow (h : d.ProperNames) {names : List String}
    (hnames : names ∈ d.filesBelow working folder) : ∀ name ∈ names, Path.IsName name := by
  cases hlocate : d.locate working folder with
  | error e => simp [filesBelow, hlocate] at hnames
  | ok place =>
    rw [filesBelow_of_locate hlocate] at hnames
    split at hnames
    · simp at hnames
    · rw [(List.mergeSort_perm _ _).mem_iff, List.mem_filterMap] at hnames
      obtain ⟨e, hentry, hbelow⟩ := hnames
      intro name hname
      refine h e hentry name ?_
      obtain rfl : e.1.drop place.length = names := by
        unfold fileBelow? below? at hbelow
        split at hbelow <;> simp_all
      exact List.mem_of_mem_drop hname

def listedPath (working folder : String) (names : List String) : String :=
  names.foldl Path.join (Path.absolute working folder)

theorem listedPath?_eq_some {names : List String} {path : String}
    (h : listedPath? (Path.absolute working folder) names = some path) :
    path = listedPath working folder names := by
  unfold listedPath? at h
  split at h
  · exact (Option.some.inj h).symm
  · cases h

theorem placeOf_listedPath (hworking : Path.isAbsolute working) (folder : String)
    {names : List String} (hproper : ∀ name ∈ names, Path.IsName name) :
    placeOf working (listedPath working folder names) = placeOf working folder ++ names := by
  rw [placeOf, listedPath, Path.resolve_names hproper, ← placeOf, placeOf_absolute hworking]

theorem ProperNames.placeOf_sourcePath (h : d.ProperNames) (hworking : Path.isAbsolute working)
    {path : String} (hpath : path ∈ d.sourcePaths working folder) :
    placeOf working folder <+: placeOf working path := by
  unfold sourcePaths at hpath
  split at hpath
  · obtain ⟨names, hnames, hlisted⟩ := List.mem_filterMap.1 hpath
    obtain rfl := listedPath?_eq_some hlisted
    have hproper := h.of_mem_filesBelow (List.mem_of_mem_filter hnames)
    exact placeOf_listedPath hworking folder hproper ▸ List.prefix_append _ _
  · simp at hpath

theorem Agree.sources_eq (h : Agree written d d') (hnames : d.ProperNames)
    (hworking : Path.isAbsolute working)
    (hfolder : ∀ place, written place → ¬ placeOf working folder <+: place) :
    d'.sources working folder = d.sources working folder := by
  have hpaths : d'.sourcePaths working folder = d.sourcePaths working folder := by
    rw [sourcePaths, sourcePaths, h.isFolder_eq, h.filesBelow_eq hfolder]
  rw [sources, sources, hpaths]
  refine List.map_congr_left fun path hpath => ?_
  have hbelow := hnames.placeOf_sourcePath hworking hpath
  have hnode := h.kept (placeOf working path) fun hwritten => hfolder _ hwritten hbelow
  rw [h.folders.toOption_read hnode.symm]

theorem SameFolders.cacheText_eq (h : SameFolders d d') {path : String}
    (hnode : d.node? (placeOf working path) = d'.node? (placeOf working path)) :
    d.cacheText working path = d'.cacheText working path := by
  rw [cacheText, cacheText, h.isFile_eq hnode, h.toOption_read hnode]

theorem Agree.model_eq {o : Options} (h : Agree written d d')
    (hmodel : ∀ path ∈ o.modelPath, ¬ written (placeOf working path) ∧
      ∃ text, d.read working path = .ok text) :
    o.modelPath.map (d'.read working) = o.modelPath.map (d.read working) := by
  refine Option.map_congr fun path hpath => ?_
  obtain ⟨hkept, text, htext⟩ := hmodel path hpath
  rw [htext, (h.folders.read_iff (h.kept _ hkept).symm text).1 htext]

def Written (working : String) (o : Options) (project : String) (k : Kind) (place : Place) : Prop :=
  place = resultPlace working project k ∨ ∃ cache ∈ o.cachePath, place = placeOf working cache

theorem not_cachePlace_file {o : Options}
    (habsent : ∀ cache ∈ o.cachePath, d.node? (placeOf working cache) = none)
    {place : Place} {text : String} (h : d.node? place = some (.file text)) :
    ¬ o.CachePlace working place := by
  rintro ⟨cache, hcache, rfl⟩
  simp [habsent cache hcache] at h

theorem not_cachePlace_of_read {o : Options}
    (habsent : ∀ cache ∈ o.cachePath, d.node? (placeOf working cache) = none) {path text : String}
    (h : d.read working path = .ok text) : ¬ o.CachePlace working (placeOf working path) := by
  obtain ⟨place, hlocate, hnode⟩ := read_eq_ok_iff.1 h
  exact not_cachePlace_file habsent (locate_eq_ok hlocate ▸ hnode)

variable [ParserStack]

theorem agree_analyse (d : Disk) (working : String) (o : Options) (k : Kind) (project : String) :
    Agree (Written working o project k) d
      (d.analyse working o k (Path.join project sourceFolder)).2 := by
  refine agree_runScript ((Inputs.writes_analyse _ o k).mono fun path hpath => ?_)
  rcases hpath with rfl | hcache
  · exact .inl (placeOf_resultPath rfl working k)
  · exact .inr ⟨path, hcache, rfl⟩

/-- The same script leaves the same result, and succeeds on both disks or on neither. -/
theorem SameFolders.analyse (h : SameFolders d d') {o : Options} {k : Kind}
    (hscript : (d.inputs working o folder).analyse o k = (d'.inputs working o folder).analyse o k) :
    ((d.analyse working o k folder).1 = .ok () ↔ (d'.analyse working o k folder).1 = .ok ()) ∧
      ∀ place, d.node? place = d'.node? place →
        (d.analyse working o k folder).2.node? place =
          (d'.analyse working o k folder).2.node? place := by
  rw [Disk.analyse, Disk.analyse, hscript]
  obtain ⟨hok, hplaces⟩ := h.runScript ((d'.inputs working o folder).analyse o k)
  refine ⟨hok, fun place hnode => (hplaces place).elim id fun ⟨hleft, hright⟩ => ?_⟩
  rw [hleft, hnode, hright]

end Disk
end Variability
