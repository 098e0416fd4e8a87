import Variability.Proofs.Delimited.RoundTrip
import Variability.Proofs.Number.Rendering
import Variability.Proofs.Scattering.Pool
import Variability.Scattering.Cache

set_option autoImplicit false

namespace Variability

/-- A name that is read as it was written: it has neither line ends nor blanks around it and it fits
into a cell. -/
structure Cacheable (name : String) : Prop where
  unbroken : ∀ c ∈ name.toList, Text.isLineEnd c = false
  bare : Text.stripText name = name
  narrow : name.length ≤ Delimited.cellLimit

instance (name : String) : Decidable (Cacheable name) :=
  -- character by character of the name, not of the alphabet
  have : Decidable (∀ c ∈ name.toList, Text.isLineEnd c = false) := List.decidableBAll _ _
  decidable_of_iff ((∀ c ∈ name.toList, Text.isLineEnd c = false) ∧ Text.stripText name = name ∧
      name.length ≤ Delimited.cellLimit)
    ⟨fun ⟨hunbroken, hbare, hnarrow⟩ => ⟨hunbroken, hbare, hnarrow⟩,
      fun h => ⟨h.unbroken, h.bare, h.narrow⟩⟩

def Known (model : Option Model) (name : String) : Bool := model.all (·.declares name)

namespace Degree

structure Kept (d : Degree) : Prop where
  name : Cacheable d.name
  ifdefs : Number.isShort d.ifdefs
  files : Number.isShort d.files

/-- A degree as it is read again. Of its variable only the name is written. -/
def reread (model : Option Model) (d : Degree) : Degree := { d with subject := subjectOf model d.name }

theorem name_reread (model : Option Model) (d : Degree) : (d.reread model).name = d.name :=
  name_subjectOf model d.name

theorem row?_eq_ok_iff {d : Degree} {cells : List String} :
    d.row? = .ok cells ↔ (Number.isShort d.ifdefs ∧ Number.isShort d.files) ∧ d.row = cells := by
  unfold row?
  by_cases h : Number.isShort d.ifdefs ∧ Number.isShort d.files <;> simp [h]

end Degree

namespace Degrees

variable {model : Option Model}

/-- What is read of degrees that are written. -/
def recovered (model : Option Model) (c : Degrees) : Degrees :=
  ⟨(c.toList.filter fun d => Known model d.name).map (Degree.reread model)⟩

theorem write_snd_eq_none_iff {c : Degrees} :
    c.write.2 = none ↔ ∀ d ∈ c.toList, Number.isShort d.ifdefs ∧ Number.isShort d.files := by
  change (untilFailure (c.toList.map Degree.row?)).2 = none ↔ _
  rw [untilFailure_eq_none_iff]
  constructor
  · rintro ⟨rows, hrows⟩ d hd
    have hrow : d.row? ∈ rows.map Except.ok := hrows ▸ List.mem_map_of_mem hd
    obtain ⟨cells, -, hcells⟩ := List.mem_map.1 hrow
    exact (Degree.row?_eq_ok_iff.1 hcells.symm).1
  · intro h
    refine ⟨c.toList.map Degree.row, ?_⟩
    rw [List.map_map]
    exact List.map_congr_left fun d hd => Degree.row?_eq_ok_iff.2 ⟨h d hd, rfl⟩

theorem untilFailure_row?_of_long {ds : List Degree}
    (h : ∃ d ∈ ds, ¬ (Number.isShort d.ifdefs ∧ Number.isShort d.files)) :
    (untilFailure (ds.map Degree.row?)).2 = some .unwritable := by
  induction ds with
  | nil => simp at h
  | cons d ds ih =>
    rw [List.map_cons]
    by_cases hd : Number.isShort d.ifdefs ∧ Number.isShort d.files
    · have hrest : ∃ e ∈ ds, ¬ (Number.isShort e.ifdefs ∧ Number.isShort e.files) := by
        obtain ⟨e, he, hlong⟩ := h
        rcases List.mem_cons.1 he with rfl | he
        · exact absurd hd hlong
        · exact ⟨e, he, hlong⟩
      rw [Degree.row?_eq_ok_iff.2 ⟨hd, rfl⟩]
      exact ih hrest
    · have hrow : d.row? = .error .unwritable := by
        unfold Degree.row?
        simpa using hd
      rw [hrow]
      rfl

theorem write_snd_of_long {c : Degrees}
    (h : ∃ d ∈ c.toList, ¬ (Number.isShort d.ifdefs ∧ Number.isShort d.files)) :
    c.write.2 = some .unwritable := untilFailure_row?_of_long h

theorem write_of_short {c : Degrees}
    (h : ∀ d ∈ c.toList, Number.isShort d.ifdefs ∧ Number.isShort d.files) :
    c.write = (Delimited.writeRows (header :: c.toList.map Degree.row), none) := by
  have hrows : c.toList.map Degree.row? = (c.toList.map Degree.row).map .ok := by
    rw [List.map_map]
    exact List.map_congr_left fun d hd => Degree.row?_eq_ok_iff.2 ⟨h d hd, rfl⟩
  simp only [write, hrows, untilFailure_ok]

theorem ofList_of_sorted {ds : List Degree} (h : ds.Pairwise fun c d => c.name < d.name) :
    ofList ds = ⟨ds⟩ := by
  have hnodup : (ds.map Degree.name).Nodup := by
    refine List.pairwise_map.2 (h.imp fun hlt (heq : _ = _) => ?_)
    rw [heq] at hlt
    exact String.lt_irrefl _ hlt
  have hbyName : ds.Pairwise fun c d => byName c d = true :=
    h.imp fun hlt => decide_eq_true (String.not_lt.1 (String.lt_asymm hlt))
  have hlist := toList_ofList hnodup
  rw [List.mergeSort_of_pairwise hbyName] at hlist
  exact congrArg Degrees.mk hlist

theorem ofRow_cells (name ifdefs files : String) (more : List String) :
    ofRow model (name :: ifdefs :: files :: more) =
      if Known model (Text.stripText name) then
        match Number.readInteger ifdefs, Number.readInteger files with
        | some i, some f => .kept ⟨subjectOf model (Text.stripText name), i, f⟩
        | _, _ => .malformed
      else .dropped := by
  simp only [ofRow]
  cases model with
  | none => rfl
  | some m =>
    cases hfound : m.find? (Text.stripText name) with
    | none => simp [Known, Model.declares, hfound]
    | some v =>
      have hknown : Known (some m) (Text.stripText name) := by simp [Known, Model.declares, hfound]
      have hsubject : subjectOf (some m) (Text.stripText name) = v := by simp [subjectOf, hfound]
      cases Number.readInteger ifdefs <;> cases Number.readInteger files <;>
        simp [hfound, hknown, hsubject]

theorem ofRow_row {d : Degree} (h : d.Kept) :
    ofRow model d.row = if Known model d.name then .kept (d.reread model) else .dropped := by
  rw [Degree.row, ofRow_cells, h.name.bare, Number.readInteger_toString h.ifdefs,
    Number.readInteger_toString h.files]
  rfl

theorem ofRows_rows (path : String) (line : Nat) {ds : List Degree} (h : ∀ d ∈ ds, d.Kept) :
    ofRows path model line (ds.map Degree.row) =
      ([], (ds.filter fun d => Known model d.name).map (Degree.reread model)) := by
  induction ds generalizing line with
  | nil => rfl
  | cons d ds ih =>
    obtain ⟨hd, hds⟩ := List.forall_mem_cons.1 h
    rw [List.map_cons, ofRows, ih (line + 1) hds, ofRow_row hd]
    by_cases hknown : Known model d.name <;> simp [hknown]

theorem isLineEnd_header : ∀ cell ∈ header, ∀ ch ∈ cell.toList, Text.isLineEnd ch = false := by
  have hall : (header.all fun cell => cell.toList.all fun ch => !Text.isLineEnd ch) = true := by decide
  simpa only [List.all_eq_true, Bool.not_eq_true'] using hall

theorem isLineEnd_row {d : Degree} (h : d.Kept) :
    ∀ cell ∈ d.row, ∀ ch ∈ cell.toList, Text.isLineEnd ch = false := by
  intro cell hcell
  simp only [Degree.row, List.mem_cons, List.not_mem_nil, or_false] at hcell
  rcases hcell with rfl | rfl | rfl
  · exact h.name.unbroken
  · exact (Number.isNumeralText_toString d.ifdefs).not_lineEnd
  · exact (Number.isNumeralText_toString d.files).not_lineEnd

theorem isNarrow_row {d : Degree} (h : d.Kept) : Delimited.isNarrow d.row := by
  have hdigits : Number.digitLimit + 1 ≤ Delimited.cellLimit := by decide
  have hifdefs := (Number.length_toString_le h.ifdefs).trans hdigits
  have hfiles := (Number.length_toString_le h.files).trans hdigits
  simp only [Delimited.isNarrow, Degree.row, List.all_cons, List.all_nil, Bool.and_true,
    Bool.and_eq_true, decide_eq_true_eq]
  exact ⟨h.name.narrow, hifdefs, hfiles⟩

theorem splitLines_writeRows {ds : List Degree} (h : ∀ d ∈ ds, d.Kept) :
    Text.splitLines (Delimited.writeRows (header :: ds.map Degree.row)).toList =
      Delimited.writeCells ';' (header.map String.toList) ::
        ds.map fun d => Delimited.writeCells ';' (d.row.map String.toList) := by
  rw [Delimited.splitLines_writeRows]
  · simp
  · refine List.forall_mem_cons.2 ⟨isLineEnd_header, fun row hrow => ?_⟩
    obtain ⟨d, hd, rfl⟩ := List.mem_map.1 hrow
    exact isLineEnd_row (h d hd)

theorem isBreak_of_not_isLineEnd {ch : Char} (h : Text.isLineEnd ch = false) :
    Delimited.Row.isBreak ch = false := by
  have hfeed : ch ≠ '\n' := by
    rintro rfl
    exact absurd h (by decide)
  have hreturn : ch ≠ '\r' := by
    rintro rfl
    exact absurd h (by decide)
  simp [Delimited.Row.isBreak, hfeed, hreturn]

theorem rows_writeCells {ds : List Degree} (h : ∀ d ∈ ds, d.Kept) :
    Delimited.rows ';' (ds.map fun d => Delimited.writeCells ';' (d.row.map String.toList)) =
      (ds.map Degree.row, none) := by
  have hseparator : Delimited.IsSeparator ';' := by
    unfold Delimited.IsSeparator
    decide
  have hcells : ds.map (fun d => Delimited.writeCells ';' (d.row.map String.toList)) =
      (ds.map fun d => d.row.map String.toList).map (Delimited.writeCells ';') := by simp
  rw [Delimited.rows, hcells, Delimited.rowsFrom_writeCells hseparator]
  · have hrow : ∀ d ∈ ds, Delimited.row? ((d.row.map String.toList).map String.ofList) = .ok d.row := by
      intro d hd
      rw [List.map_map, String.ofList_comp_toList, List.map_id, Delimited.row?, if_pos (isNarrow_row (h d hd))]
    have hrows := untilFailure_ok (ds.map Degree.row)
    rw [List.map_map] at hrows ⊢
    exact (congrArg untilFailure (List.map_congr_left hrow)).trans hrows
  · intro row hrow
    obtain ⟨d, hd, rfl⟩ := List.mem_map.1 hrow
    refine ⟨by simp [Degree.row], fun cell hcell ch hch => ?_⟩
    obtain ⟨text, htext, rfl⟩ := List.mem_map.1 hcell
    exact isBreak_of_not_isLineEnd (isLineEnd_row (h d hd) text htext ch hch)

theorem read_write (path : String) {c : Degrees} (hsorted : c.toList.Pairwise fun c d => c.name < d.name)
    (h : ∀ d ∈ c.toList, d.Kept) : read path model c.write.1 = ⟨[], .ok (c.recovered model)⟩ := by
  have hhint : "sep=".toList.isPrefixOf (Delimited.writeCells ';' (header.map String.toList)) = false :=
    by decide
  have hsep : Delimited.separatorOf (Delimited.writeCells ';' (header.map String.toList)) = ';' := by
    decide
  have hrecovered : (c.recovered model).toList.Pairwise fun c d => c.name < d.name := by
    refine List.pairwise_map.2 ((hsorted.filter _).imp fun hlt => ?_)
    rwa [Degree.name_reread, Degree.name_reread]
  rw [write_of_short fun d hd => ⟨(h d hd).ifdefs, (h d hd).files⟩, read, splitLines_writeRows h,
    withoutHint, hhint]
  simp only [Bool.false_eq_true, if_false, hsep, rows_writeCells h, ofRows_rows path 2 h]
  rw [show ofList _ = c.recovered model from ofList_of_sorted hrecovered]
  rfl

/-- A container whose counts have a text is written. What is read of it are its degrees of known
variables, in the same order and with the same counts, and nothing is told. Other containers are not
written to their end. -/
theorem read_write_exact (degrees : List Degree) (declared : Option (List Variable)) (path : String)
    (hnames : ∀ d ∈ (ofList degrees).toList, Cacheable d.name) :
    let c := ofList degrees
    let model := declared.map Model.ofList
    ((∀ d ∈ c.toList, Number.isShort d.ifdefs ∧ Number.isShort d.files) →
      c.write.2 = none ∧ read path model c.write.1 = ⟨[], .ok (c.recovered model)⟩) ∧
    ((∃ d ∈ c.toList, ¬ (Number.isShort d.ifdefs ∧ Number.isShort d.files)) →
      c.write.2 = some .unwritable) := by
  intro c model
  refine ⟨fun hshort => ⟨write_snd_eq_none_iff.2 hshort, ?_⟩, write_snd_of_long⟩
  exact read_write path (ascending_ofList degrees) fun d hd =>
    { name := hnames d hd, ifdefs := (hshort d hd).1, files := (hshort d hd).2 }

def quotedDegrees : List Degree :=
  [⟨⟨"b;\"c\", d", "bool"⟩, 3, 2⟩, ⟨⟨"", "unknown"⟩, 0, -10⟩, ⟨⟨"\"", "tristate"⟩, 7, 1⟩,
    ⟨⟨"a b", "hex"⟩, 1, 1⟩, ⟨⟨"\"", "tristate"⟩, 8, 4⟩]

theorem ofList_quotedDegrees : ofList quotedDegrees =
    ⟨[⟨⟨"", "unknown"⟩, 0, -10⟩, ⟨⟨"\"", "tristate"⟩, 8, 4⟩, ⟨⟨"a b", "hex"⟩, 1, 1⟩,
      ⟨⟨"b;\"c\", d", "bool"⟩, 3, 2⟩]⟩ := by
  simp [ofList, quotedDegrees, List.mergeSort, lastByKey, putBy, Degree.name]

theorem read_write_exact_quoted :
    (∀ d ∈ (ofList quotedDegrees).toList, Cacheable d.name) ∧
      (ofList quotedDegrees).write.2 = none ∧
      read "cache.csv" (some (Model.ofList [⟨"a b", "bool"⟩, ⟨"\"", "string"⟩]))
          (ofList quotedDegrees).write.1 =
        ⟨[], .ok ⟨[⟨⟨"\"", "string"⟩, 8, 4⟩, ⟨⟨"a b", "bool"⟩, 1, 1⟩]⟩⟩ := by
  have hnames : ∀ d ∈ (ofList quotedDegrees).toList, Cacheable d.name := by
    rw [ofList_quotedDegrees]
    decide +kernel
  have hshort : ∀ d ∈ (ofList quotedDegrees).toList,
      Number.isShort d.ifdefs ∧ Number.isShort d.files := by
    rw [ofList_quotedDegrees]
    decide +kernel
  obtain ⟨hwritten, hread⟩ := (read_write_exact quotedDegrees
    (some [⟨"a b", "bool"⟩, ⟨"\"", "string"⟩]) "cache.csv" hnames).1 hshort
  have hrecovered : (ofList quotedDegrees).recovered
      (some (Model.ofList [⟨"a b", "bool"⟩, ⟨"\"", "string"⟩])) =
        ⟨[⟨⟨"\"", "string"⟩, 8, 4⟩, ⟨⟨"a b", "bool"⟩, 1, 1⟩]⟩ := by
    rw [ofList_quotedDegrees]
    decide +kernel
  exact ⟨hnames, hwritten, hread.trans (by rw [← hrecovered]; rfl)⟩

def hugeDegree : Degree := ⟨⟨"A", "unknown"⟩, 10 ^ Number.digitLimit, 1⟩

/-- The row is not written, and if it were it would be reported. -/
theorem read_write_huge :
    (∀ d ∈ (ofList [hugeDegree]).toList, Cacheable d.name) ∧
      (ofList [hugeDegree]).write.2 = some .unwritable ∧ ofRow none hugeDegree.row = .malformed := by
  have hlist : (ofList [hugeDegree]).toList = [hugeDegree] := by
    simp [ofList, lastByKey, putBy]
  have hlong : ¬ Number.isShort hugeDegree.ifdefs := by
    rw [Number.isShort_iff, hugeDegree, Int.natAbs_pow]
    exact Nat.lt_irrefl _
  have hwritten : (ofList [hugeDegree]).write.2 = some .unwritable :=
    write_snd_of_long ⟨hugeDegree, by simp [hlist], fun h => hlong h.1⟩
  refine ⟨?_, hwritten, ?_⟩
  · rw [hlist]
    exact List.forall_mem_singleton.2 (by decide)
  · have hrow : hugeDegree.row = ["A", toString hugeDegree.ifdefs, "1"] := rfl
    rw [hrow, ofRow_cells, Number.readInteger_toString_of_long hlong]
    rfl

theorem read_write_countDegrees {files : List Code.SourceFile}
    (hmodel : ∀ m ∈ model, (m.toList.map Variable.name).Nodup) (path : String)
    (h : ∀ name, Listed model files name →
      Cacheable name ∧ Known model name ∧ directivesWith model files name < 10 ^ Number.digitLimit) :
    (countDegrees model files).write.2 = none ∧
      read path model (countDegrees model files).write.1 = ⟨[], .ok (countDegrees model files)⟩ := by
  have hholds := Tally.holds_foldl hmodel files
  have hkept : ∀ d ∈ (countDegrees model files).toList,
      d.Kept ∧ Known model d.name ∧ d.reread model = d := by
    intro d hd
    obtain ⟨hlisted, hdegree⟩ := (mem_countDegrees hmodel).1 hd
    obtain ⟨hname, hknown, hlimit⟩ := h d.name hlisted
    have hfiles := filesWith_le_directivesWith model files d.name
    have hifdefsEq : d.ifdefs = directivesWith model files d.name := congrArg Degree.ifdefs hdegree
    have hfilesEq : d.files = filesWith model files d.name := congrArg Degree.files hdegree
    have hsubject : subjectOf model d.name = d.subject := (congrArg Degree.subject hdegree).symm
    refine ⟨⟨hname, Number.isShort_iff.2 ?_, Number.isShort_iff.2 ?_⟩, hknown, by rw [Degree.reread, hsubject]⟩
    · rwa [hifdefsEq, Int.natAbs_natCast]
    · rw [hfilesEq, Int.natAbs_natCast]
      exact hfiles.trans_lt hlimit
  have hsorted : (countDegrees model files).toList.Pairwise fun c d => c.name < d.name :=
    strictly_sorted hholds.nodup
  refine ⟨write_snd_eq_none_iff.2 fun d hd => ⟨(hkept d hd).1.ifdefs, (hkept d hd).1.files⟩, ?_⟩
  have hfilter : (countDegrees model files).toList.filter (fun d => Known model d.name) =
      (countDegrees model files).toList := List.filter_eq_self.2 fun d hd => (hkept d hd).2.1
  have hmap : (countDegrees model files).toList.map (Degree.reread model) =
      (countDegrees model files).toList :=
    (List.map_congr_left fun d hd => (hkept d hd).2.2).trans (List.map_id _)
  rw [read_write path hsorted fun d hd => (hkept d hd).1, recovered, hfilter, hmap]

theorem toList_write (c : Degrees) : ∃ rest, c.write.1.toList = 'V' :: rest :=
  ⟨_, String.toList_ofList⟩

end Degrees
end Variability
