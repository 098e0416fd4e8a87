import Variability.Proofs.Analysis.Result
import Variability.Proofs.Disk.Temporary
import Variability.Proofs.Number.Integer

set_option autoImplicit false

namespace Variability

theorem isName_copyName {name : String} (h : '/' ∉ name.toList) : Path.IsName (copyName name) := by
  unfold copyName
  split
  · next hsuffix =>
    refine ⟨?_, ?_, ?_, h⟩ <;>
      · rintro rfl
        exact absurd hsuffix (by decide)
  · have hlength : ∀ short : String, short.toList.length < 4 → name ++ ".xml" ≠ short := by
      rintro short hshort rfl
      rw [String.toList_append, List.length_append] at hshort
      exact absurd hshort (by simp)
    refine ⟨hlength _ (by decide), hlength _ (by decide), hlength _ (by decide), ?_⟩
    rw [String.toList_append, List.mem_append, not_or]
    exact ⟨h, by decide⟩

theorem slash_not_mem_baseName (path : String) : '/' ∉ (Path.baseName path).toList := by
  unfold Path.baseName
  cases hparts : (Path.parts path).getLast? with
  | none =>
    rw [List.getLastD_eq_getLast?, hparts]
    decide
  | some part =>
    rw [List.getLastD_eq_getLast?, hparts]
    exact Path.slash_not_mem_of_mem_parts (List.mem_of_getLast? hparts)

theorem isName_temporaryName (n : Nat) : Path.IsName (Session.temporaryName n sourceFolder) := by
  have hlist : (Session.temporaryName n sourceFolder).toList =
      't' :: 'm' :: 'p' :: ((toString n).toList ++ sourceFolder.toList) := by
    simp [Session.temporaryName, String.toList_append]
  have hdigits : '/' ∉ (toString n).toList := by
    intro hmem
    have hdigit : '/'.isDigit := Nat.isDigit_of_mem_toDigits (b := 10) (n := n) (by decide) (by decide)
      (by simpa using hmem)
    exact absurd hdigit (by decide)
  have hne : ∀ other : String, other.toList.head? ≠ some 't' →
      Session.temporaryName n sourceFolder ≠ other := by
    rintro other hother rfl
    exact hother (by rw [hlist]; rfl)
  refine ⟨hne _ (by decide), hne _ (by decide), hne _ (by decide), ?_⟩
  rw [hlist]
  simp only [List.mem_cons, List.mem_append, not_or]
  exact ⟨by decide, by decide, by decide, hdigits, by decide⟩

namespace Disk

def copy (d : Disk) (working source target : String) : Except Failure Unit × Disk :=
  match d.read working source with
  | .error e => (.error (.file e), d)
  | .ok text =>
    match d.write working target text with
    | .error e => (.error (.file e), d)
    | .ok d => (.ok (), d)

def withTemporary (d : Disk) (working temporary : String) : Disk :=
  (d.makeFolder working temporary).makeFolder working (Path.join temporary sourceFolder)

def copyPath (temporary input : String) : String :=
  Path.join (Path.join temporary sourceFolder) (copyName (Path.baseName input))

variable {d d' : Disk} {working : String} {o : Options} {k : Kind} {names : List String}
  {input output source target : String} {changed : Place → Prop}

theorem copy_eq_ok (h : (d.copy working source target).1 = .ok ()) :
    ∃ text, d.read working source = .ok text ∧
      d.write working target text = .ok (d.copy working source target).2 := by
  unfold copy at h ⊢
  cases hread : d.read working source with
  | error e => simp [hread] at h
  | ok text =>
    simp only [hread] at h ⊢
    cases hwrite : d.write working target text with
    | error e => simp [hwrite] at h
    | ok d' => exact ⟨text, rfl, hwrite⟩

theorem copy_failed (h : (d.copy working source target).1 ≠ .ok ()) :
    (d.copy working source target).2 = d := by
  unfold copy at h ⊢
  cases hread : d.read working source with
  | error e => rfl
  | ok text =>
    simp only [hread] at h ⊢
    cases hwrite : d.write working target text with
    | error e => rfl
    | ok d' => simp [hwrite] at h

theorem agree_copy (h : (d.copy working source target).1 = .ok () → changed (placeOf working target)) :
    Agree changed d (d.copy working source target).2 := by
  by_cases hok : (d.copy working source target).1 = .ok ()
  · obtain ⟨text, -, hwrite⟩ := copy_eq_ok hok
    exact agree_write hwrite (h hok)
  · exact (copy_failed hok).symm ▸ .refl _ _

theorem placeOf_ofNames (h : ∀ name ∈ names, Path.IsName name) :
    placeOf working (Path.ofNames names) = names :=
  Path.resolve_ofNames h _

theorem isName_concat (h : ∀ name ∈ names, Path.IsName name) {last : String} (hlast : Path.IsName last) :
    ∀ name ∈ names ++ [last], Path.IsName name := fun name hname =>
  (List.mem_append.1 hname).elim (h name) fun hname => List.mem_singleton.1 hname ▸ hlast

theorem isName_copied (h : ∀ name ∈ names, Path.IsName name) (input : String) :
    ∀ name ∈ names ++ [sourceFolder] ++ [copyName (Path.baseName input)], Path.IsName name :=
  isName_concat (isName_concat h isName_sourceFolder) (isName_copyName (slash_not_mem_baseName input))

theorem copyPath_ofNames (h : ∀ name ∈ names, Path.IsName name) (input : String) :
    copyPath (Path.ofNames names) input =
      Path.ofNames (names ++ [sourceFolder] ++ [copyName (Path.baseName input)]) := by
  rw [copyPath, Path.join_ofNames h isName_sourceFolder,
    Path.join_ofNames (isName_concat h isName_sourceFolder) (isName_copyName (slash_not_mem_baseName input))]

theorem extends_withTemporary (h : ∀ name ∈ names, Path.IsName name) (d : Disk) (working : String) :
    Extends (names <+: ·) d (d.withTemporary working (Path.ofNames names)) := by
  have hplace : placeOf working (Path.ofNames names) = names := placeOf_ofNames h
  refine (extends_makeFolder ?_).trans (extends_makeFolder ?_)
  · rw [hplace]
  · rw [placeOf_sourceFolder, hplace]
    exact List.prefix_append _ _

section Fresh

variable (h : ∀ name ∈ names, Path.IsName name) (hne : names ≠ [])
  (hfresh : ∀ e ∈ d.entries, ¬ names <+: e.1)

include hne hfresh in
theorem node?_fresh {place : Place} (hplace : names <+: place) : d.node? place = none := by
  have hroot : place ≠ [] := by
    rintro rfl
    exact hne (List.prefix_nil.1 hplace)
  have hfind : d.entries.find? (·.1 = place) = none := by
    rw [List.find?_eq_none]
    intro e he heq
    exact hfresh e he (of_decide_eq_true heq ▸ hplace)
  rw [node?, if_neg hroot, hfind]
  rfl

/-- The inputs of the analysis of a copy: the copied text, if its name is one of a source file, and the model
and the cache of the disk. -/
def copyInputs (d : Disk) (working : String) (o : Options) (temporary input text : String) : Inputs where
  working := working
  folder := Path.join temporary sourceFolder
  sources := if isListed [copyName (Path.baseName input)] then [(copyPath temporary input, some text)] else []
  model := o.modelPath.map (d.read working)
  cache := o.cachePath.bind (d.cacheText working)

theorem read_of_write {path text : String} (hwrite : d.write working path text = .ok d') :
    d'.read working path = .ok text := by
  have hagree : Agree (fun _ => True) d d' := agree_write hwrite trivial
  obtain ⟨hlocate, hroot, -, rfl⟩ := write_eq_ok hwrite
  exact read_eq_ok_iff.2 ⟨_, hagree.folders.locate_ok hlocate, node?_put_self d hroot _⟩

include h hne hfresh in
theorem entries_withTemporary
    (hfolder : (d.withTemporary working (Path.ofNames names)).node? (names ++ [sourceFolder]) = some .folder) :
    (d.withTemporary working (Path.ofNames names)).entries =
      d.entries ++ [(names, .folder), (names ++ [sourceFolder], .folder)] := by
  have hnew : d.node? names = none := node?_fresh hne hfresh List.prefix_rfl
  have hnewSource : d.node? (names ++ [sourceFolder]) = none :=
    node?_fresh hne hfresh (List.prefix_append _ _)
  have hother : names ≠ names ++ [sourceFolder] := by simp
  rw [withTemporary, Path.join_ofNames h isName_sourceFolder] at hfolder ⊢
  have hsource : ∀ e : Disk, e.node? (names ++ [sourceFolder]) = none →
      (e.makeFolder working (Path.ofNames (names ++ [sourceFolder]))).node? (names ++ [sourceFolder]) =
        some .folder →
      e.node? names = some .folder ∧
        e.makeFolder working (Path.ofNames (names ++ [sourceFolder])) =
          ⟨e.entries ++ [(names ++ [sourceFolder], .folder)]⟩ := by
    intro e hnone hmade
    rcases e.makeFolder_eq working (Path.ofNames (names ++ [sourceFolder])) with hsame |
      ⟨place, hlocate, -, hput⟩
    · rw [hsame, hnone] at hmade
      cases hmade
    · obtain rfl : place = names ++ [sourceFolder] :=
        (locate_eq_ok hlocate).trans (placeOf_ofNames (isName_concat h isName_sourceFolder))
      exact ⟨(locate_ofNames_concat h hne isName_sourceFolder hlocate).2,
        hput.trans (put_new (by simp) hnone _)⟩
  rcases d.makeFolder_eq working (Path.ofNames names) with hsame | ⟨place, hlocate, -, hput⟩
  · rw [hsame] at hfolder
    have hnode := (hsource d hnewSource hfolder).1
    rw [hnew] at hnode
    cases hnode
  · obtain rfl : place = names := (locate_eq_ok hlocate).trans (placeOf_ofNames h)
    rw [hput] at hfolder ⊢
    have hnone := (node?_put_other d hother .folder).trans hnewSource
    rw [(hsource _ hnone hfolder).2, put_new hne hnew]
    simp

include h hne hfresh in
theorem entries_copied {text : String}
    (hwrite : (d.withTemporary working (Path.ofNames names)).write working
      (copyPath (Path.ofNames names) input) text = .ok d') :
    d'.locate working (Path.ofNames (names ++ [sourceFolder])) = .ok (names ++ [sourceFolder]) ∧
      d'.node? (names ++ [sourceFolder]) = some .folder ∧
      d'.entries = d.entries ++ [(names, .folder), (names ++ [sourceFolder], .folder),
        (names ++ [sourceFolder] ++ [copyName (Path.baseName input)], .file text)] := by
  obtain ⟨hlocate, -, -, hput⟩ := write_eq_ok hwrite
  have hagree : Agree (fun _ => True) _ d' := agree_write hwrite trivial
  rw [copyPath_ofNames h] at hlocate
  obtain ⟨hlocateSource, hfolder⟩ := locate_ofNames_concat (isName_concat h isName_sourceFolder) (by simp)
    (isName_copyName (slash_not_mem_baseName input)) hlocate
  have hentries := entries_withTemporary h hne hfresh hfolder
  have hnone : (d.withTemporary working (Path.ofNames names)).node?
      (names ++ [sourceFolder] ++ [copyName (Path.baseName input)]) = none := by
    have hfind : (d.withTemporary working (Path.ofNames names)).entries.find?
        (·.1 = names ++ [sourceFolder] ++ [copyName (Path.baseName input)]) = none := by
      rw [hentries, List.find?_append, Option.or_eq_none_iff]
      refine ⟨List.find?_eq_none.2 fun e he heq => ?_, by simp⟩
      refine hfresh e he (of_decide_eq_true heq ▸ ?_)
      rw [List.append_assoc]
      exact List.prefix_append _ _
    rw [node?, if_neg (by simp), hfind]
    rfl
  refine ⟨hagree.folders.locate_ok hlocateSource, (hagree.folders _).1 hfolder, ?_⟩
  rw [hput, copyPath_ofNames h, placeOf_ofNames (isName_copied h input), put_new (by simp) hnone, hentries]
  simp

include hfresh in
theorem filesBelow_copied {text name : String} {folder : String}
    (hlocate : d'.locate working folder = .ok (names ++ [sourceFolder]))
    (hfolder : d'.node? (names ++ [sourceFolder]) = some .folder)
    (hentries : d'.entries = d.entries ++ [(names, .folder), (names ++ [sourceFolder], .folder),
      (names ++ [sourceFolder] ++ [name], .file text)]) :
    d'.filesBelow working folder = [[name]] := by
  have hothers : d.entries.filterMap (fileBelow? (names ++ [sourceFolder])) = [] := by
    rw [List.filterMap_eq_nil_iff]
    intro e he
    have hnot : (names ++ [sourceFolder]).isPrefixOf e.1 = false := by
      rw [← Bool.not_eq_true, List.isPrefixOf_iff_prefix]
      exact fun hwithin => hfresh e he ((List.prefix_append _ _).trans hwithin)
    cases hnode : e.2 <;> simp [fileBelow?, below?, hnode, hnot]
  have hself : fileBelow? (names ++ [sourceFolder]) (names ++ [sourceFolder] ++ [name], .file text) =
      some [name] := by
    have hwithin : (names ++ [sourceFolder]).isPrefixOf (names ++ [sourceFolder] ++ [name]) :=
      List.isPrefixOf_iff_prefix.2 (List.prefix_append _ _)
    simp only [fileBelow?, below?, hwithin, if_true, List.drop_left]
  rw [filesBelow_of_locate hlocate, if_neg (not_not_intro hfolder), hentries, List.filterMap_append,
    hothers, List.nil_append, List.filterMap_cons_none rfl, List.filterMap_cons_none rfl,
    List.filterMap_cons_some hself, List.filterMap_nil, List.mergeSort_singleton]

include h hne hfresh in
theorem sources_copied {text : String}
    (hwrite : (d.withTemporary working (Path.ofNames names)).write working
      (copyPath (Path.ofNames names) input) text = .ok d') :
    d'.sources working (Path.join (Path.ofNames names) sourceFolder) =
      if isListed [copyName (Path.baseName input)] then [(copyPath (Path.ofNames names) input, some text)]
      else [] := by
  have hsource := isName_concat h isName_sourceFolder
  have hread := read_of_write hwrite
  obtain ⟨hlocate, hfolder, hentries⟩ := entries_copied h hne hfresh hwrite
  have hlisted : listedPath working (Path.ofNames (names ++ [sourceFolder]))
      [copyName (Path.baseName input)] = copyPath (Path.ofNames names) input := by
    rw [listedPath, Path.absolute, Path.join_ofNames_right, Path.normalize_ofNames hsource,
      copyPath_ofNames h, List.foldl_cons, List.foldl_nil,
      Path.join_ofNames hsource (isName_copyName (slash_not_mem_baseName input))]
  have hreadListed : d'.readListed working (Path.ofNames (names ++ [sourceFolder]))
      [copyName (Path.baseName input)] = some (copyPath (Path.ofNames names) input, some text) := by
    have hproper : ∀ name ∈ [copyName (Path.baseName input)], Path.IsName name :=
      List.forall_mem_singleton.2 (isName_copyName (slash_not_mem_baseName input))
    have hcopy := hlisted ▸ hread
    rw [readListed, listedPath?_eq hproper hcopy, Option.map_some, hcopy, hlisted]
    rfl
  rw [Path.join_ofNames h isName_sourceFolder, sources_of_isFolder (isFolder_iff.2 ⟨_, hlocate, hfolder⟩),
    filesBelow_copied hfresh hlocate hfolder hentries]
  split
  · next hxml =>
    rw [List.filter_cons_of_pos hxml, List.filter_nil, List.filterMap_cons_some hreadListed,
      List.filterMap_nil]
  · next hxml => rw [List.filter_cons_of_neg hxml, List.filter_nil, List.filterMap_nil]

include h in
theorem extends_copied {text : String}
    (hwrite : (d.withTemporary working (Path.ofNames names)).write working
      (copyPath (Path.ofNames names) input) text = .ok d') : Extends (names <+: ·) d d' := by
  refine (extends_withTemporary h d working).trans (agree_write hwrite ?_).extends
  rw [copyPath_ofNames h, placeOf_ofNames (isName_copied h input), List.append_assoc]
  exact List.prefix_append _ _

include h hne hfresh in
theorem inputs_copied {text : String}
    (havoids : ∀ path ∈ o.modelPath.toList ++ o.cachePath.toList, Avoids working path (names <+: ·))
    (hwrite : (d.withTemporary working (Path.ofNames names)).write working
      (copyPath (Path.ofNames names) input) text = .ok d') :
    d'.inputs working o (Path.join (Path.ofNames names) sourceFolder) =
      d.copyInputs working o (Path.ofNames names) input text := by
  have hextends := extends_copied h hwrite
  have hmodel : o.modelPath.map (d'.read working) = o.modelPath.map (d.read working) :=
    Option.map_congr fun path hpath => hextends.read_eq (havoids path (by simp [Option.mem_def.1 hpath]))
  have hcache : o.cachePath.bind (d'.cacheText working) = o.cachePath.bind (d.cacheText working) :=
    Option.bind_congr fun path hpath =>
      hextends.cacheText_eq (havoids path (by simp [Option.mem_def.1 hpath]))
  rw [inputs, sources_copied h hne hfresh hwrite, hmodel, hcache, copyInputs]

theorem result_of_runScript {s : Script Unit} (hok : (d.runScript working s).1 = .ok ()) :
    s.result = .ok () := by
  unfold runScript at hok
  split at hok
  · cases hok
  · exact hok

include h hne hfresh in
theorem read_of_withTemporary {text : String} (hfile : d.isFile working input)
    (hread : (d.withTemporary working (Path.ofNames names)).read working input = .ok text) :
    d.read working input = .ok text := by
  obtain ⟨place, content, hplace, hnode⟩ := isFile_iff.1 hfile
  have hextends := extends_withTemporary h d working
  have hkept := hextends.kept place fun hbelow => by
    rw [node?_fresh hne hfresh hbelow] at hnode
    cases hnode
  have hsame := read_eq_ok_iff.2 ⟨place, hextends.folders.locate_ok hplace, hkept.trans hnode⟩
  rw [hread] at hsame
  exact read_eq_ok_iff.2 ⟨place, hplace, Except.ok.inj hsame ▸ hnode⟩

variable [ParserStack]

def analyseCopy (d : Disk) (working : String) (o : Options) (k : Kind) (temporary input output : String) :
    Except Failure Unit × Disk :=
  match d.copy working input (copyPath temporary input) with
  | (.error e, d) => (.error e, d)
  | (.ok (), d) =>
    match d.analyse working o k (Path.join temporary sourceFolder) with
    | (.error e, d) => (.error e, d)
    | (.ok (), d) =>
      let result := Path.join temporary k.resultFile
      if result = output then (.ok (), d) else d.copy working result output

def runSingle (d : Disk) (working : String) (o : Options) (k : Kind) (temporary input output : String) :
    Except Failure Unit × Disk :=
  let run := (d.withTemporary working temporary).analyseCopy working o k temporary input output
  (run.1, run.2.remove working temporary)

include h in
theorem extends_analyseCopy (d : Disk) (k : Kind) (input output : String) :
    let run := d.analyseCopy working o k (Path.ofNames names) input output
    Extends (fun place => names <+: place ∨ o.CachePlace working place ∨
      run.1 = .ok () ∧ place = placeOf working output) d run.2 := by
  have hplace : placeOf working (Path.ofNames names) = names := placeOf_ofNames h
  have hcopied : Agree (names <+: ·) d (d.copy working input (copyPath (Path.ofNames names) input)).2 := by
    refine agree_copy fun _ => ?_
    rw [copyPath_ofNames h, placeOf_ofNames (isName_copied h input), List.append_assoc]
    exact List.prefix_append _ _
  have hanalysed : ∀ d : Disk, Agree (fun place => names <+: place ∨ o.CachePlace working place) d
      (d.analyse working o k (Path.join (Path.ofNames names) sourceFolder)).2 := by
    refine fun d => (agree_analyse d working o k (Path.ofNames names)).mono ?_
    rintro place (rfl | hcache)
    · rw [resultPlace, hplace]
      exact .inl (List.prefix_append _ _)
    · exact .inr hcache
  unfold analyseCopy
  rcases hcopy : d.copy working input (copyPath (Path.ofNames names) input) with ⟨copied, d₁⟩
  rw [hcopy] at hcopied
  cases copied with
  | error e => exact hcopied.extends.mono fun _ => .inl
  | ok u =>
    have hfolder := hanalysed d₁
    rcases hrun : d₁.analyse working o k (Path.join (Path.ofNames names) sourceFolder) with ⟨analysed, d₂⟩
    rw [hrun] at hfolder
    have hboth := (hcopied.extends.mono fun _ => .inl).trans hfolder.extends
    simp only [hrun]
    cases analysed with
    | error e => exact hboth.mono fun _ hplace => hplace.imp_right .inl
    | ok u =>
      by_cases hsame : Path.join (Path.ofNames names) k.resultFile = output
      · simp only [if_pos hsame]
        exact hboth.mono fun _ hplace => hplace.imp_right .inl
      · simp only [if_neg hsame]
        refine (hboth.mono fun _ hplace => hplace.imp_right .inl).trans (agree_copy fun hok => ?_).extends
        exact .inr (.inr ⟨hok, rfl⟩)

include h hne in
theorem runSingle_unlocated (hlocate : ∀ place, d.locate working (Path.ofNames names) ≠ .ok place)
    (k : Kind) (input output : String) :
    (d.runSingle working o k (Path.ofNames names) input output).1 ≠ .ok () ∧
      (d.runSingle working o k (Path.ofNames names) input output).2 = d := by
  have hfolder : ∀ place, d.locate working (Path.ofNames (names ++ [sourceFolder])) ≠ .ok place :=
    fun place hplace => hlocate _ (locate_ofNames_concat h hne isName_sourceFolder hplace).1
  have hmade : d.withTemporary working (Path.ofNames names) = d := by
    have hnone : ∀ {path : String}, (∀ place, d.locate working path ≠ .ok place) →
        d.makeFolder working path = d := by
      intro path hpath
      rcases d.makeFolder_eq working path with hsame | ⟨place, hplace, -⟩
      · exact hsame
      · exact absurd hplace (hpath place)
    rw [withTemporary, hnone hlocate, Path.join_ofNames h isName_sourceFolder, hnone hfolder]
  have hcopy : (d.copy working input (copyPath (Path.ofNames names) input)).1 ≠ .ok () := by
    intro hok
    obtain ⟨text, -, hwrite⟩ := copy_eq_ok hok
    have hplace := (write_eq_ok hwrite).1
    rw [copyPath_ofNames h] at hplace
    exact hfolder _ (locate_ofNames_concat (isName_concat h isName_sourceFolder) (by simp)
      (isName_copyName (slash_not_mem_baseName input)) hplace).1
  have hrun : d.analyseCopy working o k (Path.ofNames names) input output =
      d.copy working input (copyPath (Path.ofNames names) input) := by
    unfold analyseCopy
    rcases hresult : d.copy working input (copyPath (Path.ofNames names) input) with ⟨copied, d₁⟩
    cases copied with
    | error e => rfl
    | ok u => exact absurd (congrArg Prod.fst hresult) hcopy
  have hremove : d.remove working (Path.ofNames names) = d := by
    unfold remove
    split
    · next place hplace => exact absurd hplace (hlocate place)
    · rfl
  rw [runSingle, hmade, hrun, copy_failed hcopy]
  exact ⟨hcopy, hremove⟩

include h in
theorem runSingle_located {place : Place} (hlocate : d.locate working (Path.ofNames names) = .ok place)
    (k : Kind) (input output : String) :
    (d.runSingle working o k (Path.ofNames names) input output).2 =
      ((d.withTemporary working (Path.ofNames names)).analyseCopy working o k (Path.ofNames names)
        input output).2.removeBelow names := by
  have hplace : place = names := (locate_eq_ok hlocate).trans (placeOf_ofNames h)
  rw [hplace] at hlocate
  have hfolders : KeepsFolders d ((d.withTemporary working (Path.ofNames names)).analyseCopy working o k
      (Path.ofNames names) input output).2 :=
    (extends_withTemporary h d working).folders.trans (extends_analyseCopy h _ k input output).folders
  exact remove_of_locate (hfolders.locate_ok hlocate)

include h hne hfresh in
/-- Afterwards nothing is left of the temporary folder, and only the cache has changed and the output, this
one only if the run has been completed. -/
theorem runSingle_frame (k : Kind) (input output : String) :
    let run := d.runSingle working o k (Path.ofNames names) input output
    (∀ place, names <+: place → run.2.node? place = none) ∧
      ∀ place, ¬ o.CachePlace working place → (run.1 = .ok () → place ≠ placeOf working output) →
        run.2.node? place = d.node? place := by
  intro run
  by_cases hlocate : ∃ place, d.locate working (Path.ofNames names) = .ok place
  · obtain ⟨place, hlocate⟩ := hlocate
    have hrun : run.2 = _ := runSingle_located h hlocate k input output
    have hbelow : ∀ place, names <+: place → run.2.node? place = none := by
      intro place hplace
      rw [hrun]
      exact node?_removeBelow_below hne hplace
    refine ⟨hbelow, fun place hcache houtput => ?_⟩
    by_cases hplace : names <+: place
    · rw [hbelow place hplace, node?_fresh hne hfresh hplace]
    · have hprefix : names.isPrefixOf place = false := by
        rw [← Bool.not_eq_true, List.isPrefixOf_iff_prefix]
        exact hplace
      rw [hrun, node?_removeBelow _ hprefix, (extends_analyseCopy h _ k input output).kept place,
        (extends_withTemporary h d working).kept place hplace]
      rintro (hwithin | hwritten | ⟨hok, heq⟩)
      · exact hplace hwithin
      · exact hcache hwritten
      · exact houtput hok heq
  · obtain ⟨-, hsame⟩ := runSingle_unlocated (o := o) h hne (not_exists.1 hlocate) k input output
    refine ⟨fun place hplace => ?_, fun place _ _ => congrArg (·.node? place) hsame⟩
    rw [show run.2 = d from hsame]
    exact node?_fresh hne hfresh hplace

theorem analyseCopy_eq_ok {temporary : String} (hother : Path.join temporary k.resultFile ≠ output)
    (hok : (d.analyseCopy working o k temporary input output).1 = .ok ()) :
    ∃ text d₁ d₂ table, d.read working input = .ok text ∧
      d.write working (copyPath temporary input) text = .ok d₁ ∧
      d₁.analyse working o k (Path.join temporary sourceFolder) = (.ok (), d₂) ∧
      d₂.read working (Path.join temporary k.resultFile) = .ok table ∧
      d₂.write working output table = .ok (d.analyseCopy working o k temporary input output).2 := by
  unfold analyseCopy at hok ⊢
  rcases hcopy : d.copy working input (copyPath temporary input) with ⟨copied, d₁⟩
  simp only [hcopy] at hok ⊢
  cases copied with
  | error e => cases hok
  | ok u =>
    obtain ⟨text, hread, hwrite⟩ := copy_eq_ok (congrArg Prod.fst hcopy)
    rw [hcopy] at hwrite
    rcases hrun : d₁.analyse working o k (Path.join temporary sourceFolder) with ⟨analysed, d₂⟩
    simp only [hrun, if_neg hother] at hok ⊢
    cases analysed with
    | error e => cases hok
    | ok u =>
      obtain ⟨table, htable, houtput⟩ := copy_eq_ok hok
      exact ⟨text, d₁, d₂, table, hread, hwrite, hrun, htable, houtput⟩

include h hne hfresh in
/-- A run that is completed leaves the table of its kind in the output. -/
theorem runSingle_result (hfile : d.isFile working input) (houtput : ¬ names <+: placeOf working output)
    (havoids : ∀ path ∈ o.modelPath.toList ++ o.cachePath.toList, Avoids working path (names <+: ·))
    (hok : (d.runSingle working o k (Path.ofNames names) input output).1 = .ok ()) :
    ∃ text table, d.read working input = .ok text ∧
      (d.copyInputs working o (Path.ofNames names) input text).resultText o k = .ok table ∧
      (d.runSingle working o k (Path.ofNames names) input output).2.node? (placeOf working output) =
        some (.file table) := by
  have hlocate : ∃ place, d.locate working (Path.ofNames names) = .ok place := by
    by_contra hnone
    exact (runSingle_unlocated h hne (not_exists.1 hnone) k input output).1 hok
  obtain ⟨place, hlocate⟩ := hlocate
  have hresultPlace : placeOf working (Path.join (Path.ofNames names) k.resultFile) =
      names ++ [k.resultFile] := by
    rw [Path.join_ofNames h k.isName_resultFile, placeOf_ofNames (isName_concat h k.isName_resultFile)]
  have hother : Path.join (Path.ofNames names) k.resultFile ≠ output := by
    rintro rfl
    exact houtput (hresultPlace ▸ List.prefix_append _ _)
  obtain ⟨text, d₁, d₂, table, hread, hwrite, hrun, htable, hcopied⟩ := analyseCopy_eq_ok hother hok
  have hinputs := inputs_copied h hne hfresh havoids hwrite
  -- the analysis leaves its table in the temporary folder
  rw [analyse, hinputs] at hrun
  have hcompleted : (d₁.runScript working
      ((d.copyInputs working o (Path.ofNames names) input text).analyse o k)).1 = .ok () :=
    congrArg Prod.fst hrun
  obtain ⟨left, hleft, hleaves⟩ := Inputs.leaves_analyse (result_of_runScript hcompleted)
  have hresult : placeOf working ((d.copyInputs working o (Path.ofNames names) input text).resultPath k) =
      names ++ [k.resultFile] := by
    rw [placeOf_resultPath rfl, resultPlace, placeOf_ofNames h]
  have hnode := node?_of_leaves hleaves (fun other hother hplace => by
    refine (havoids other (by simp [hother])).placeOf ?_
    rw [hplace, hresult]
    exact List.prefix_append _ _) hcompleted
  rw [hrun, hresult] at hnode
  obtain rfl : table = left := by
    obtain ⟨place, hplace, hfound⟩ := read_eq_ok_iff.1 htable
    rw [locate_eq_ok hplace, hresultPlace, hnode] at hfound
    exact (Node.file.inj (Option.some.inj hfound)).symm
  -- which is then copied to the output
  obtain ⟨-, hroot, -, hput⟩ := write_eq_ok hcopied
  have hprefix : names.isPrefixOf (placeOf working output) = false := by
    rw [← Bool.not_eq_true, List.isPrefixOf_iff_prefix]
    exact houtput
  refine ⟨text, table, read_of_withTemporary h hne hfresh hfile hread, hleft, ?_⟩
  rw [runSingle_located h hlocate, node?_removeBelow _ hprefix, hput, node?_put_self _ hroot]

end Fresh

end Disk

end Variability
