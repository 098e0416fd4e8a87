import Variability.Proofs.Delimited.Rows
import Variability.Proofs.Scattering.Cache

set_option autoImplicit false

namespace Variability

namespace Degrees

variable {model : Option Model}

def RowResult.kept? : RowResult → Option Degree
  | .kept d => some d
  | _ => none

/-- A row with a known name and two integers, and the degree that it gives. -/
inductive Records (model : Option Model) : List String → Degree → Prop where
  | row {name ifdefs files : String} {more : List String} {i f : Int}
      (known : Known model (Text.stripText name)) (hi : Number.readInteger ifdefs = some i)
      (hf : Number.readInteger files = some f) :
      Records model (name :: ifdefs :: files :: more) ⟨subjectOf model (Text.stripText name), i, f⟩

/-- A row with cells but too few of them, or with a known name and a count that is no integer. -/
def Reported (model : Option Model) : List String → Prop
  | [] => False
  | name :: ifdefs :: files :: _ => Known model (Text.stripText name) ∧
    (Number.readInteger ifdefs = none ∨ Number.readInteger files = none)
  | _ => True

instance (model : Option Model) (cells : List String) : Decidable (Reported model cells) := by
  unfold Reported
  split <;> infer_instance

theorem kept?_ofRow_eq_some_iff {cells : List String} {d : Degree} :
    (ofRow model cells).kept? = some d ↔ Records model cells d := by
  constructor
  · intro h
    match cells with
    | [] | [_] | [_, _] => cases h
    | name :: ifdefs :: files :: more =>
      rw [ofRow_cells] at h
      split at h
      · next hknown =>
        split at h
        · next i f hi hf =>
          cases h
          exact .row hknown hi hf
        · cases h
      · cases h
  · rintro ⟨hknown, hi, hf⟩
    rw [ofRow_cells, if_pos hknown, hi, hf]
    rfl

theorem Records.of_all {cells : List String} {d : Degree} (h : Records model cells d) {p : Degree → Bool}
    (hp : (ofRow model cells).kept?.all p) : p d := by
  simpa [kept?_ofRow_eq_some_iff.2 h] using hp

theorem ofRow_eq_malformed_iff {cells : List String} :
    ofRow model cells = .malformed ↔ Reported model cells := by
  match cells with
  | [] => simp [ofRow, Reported]
  | [_] | [_, _] => simp [ofRow, Reported]
  | name :: ifdefs :: files :: more =>
    rw [ofRow_cells, Reported]
    by_cases hknown : Known model (Text.stripText name)
    · cases Number.readInteger ifdefs <;> cases Number.readInteger files <;> simp [hknown]
    · simp [hknown]

def hints (lines : List (List Char)) : Nat := if lines.head?.any ("sep=".toList.isPrefixOf ·) then 1 else 0

def separator (lines : List (List Char)) : Char :=
  Delimited.separatorOf ((lines.drop (hints lines)).headD [])

structure CacheRow where
  cells : List String
  line : Nat
  deriving DecidableEq, Repr

def CacheRow.isNarrow (row : CacheRow) : Bool := Delimited.isNarrow row.cells

/-- The lines behind the header as rows. All lines of the file are numbered, from one. -/
def rowsBelow (lines : List (List Char)) : List CacheRow :=
  ((lines.zipIdx 1).drop (hints lines + 1)).map fun (line, number) =>
    ⟨Delimited.rowOf (separator lines) line, number⟩

def Unspanned (lines : List (List Char)) : Prop :=
  Delimited.OneLine (separator lines) (lines.drop (hints lines + 1))

theorem withoutHint_eq_drop (lines : List (List Char)) : withoutHint lines = lines.drop (hints lines) := by
  cases lines with
  | nil => rfl
  | cons line lines =>
    by_cases hhint : "sep=".toList.isPrefixOf line
    · rw [withoutHint, if_pos hhint, hints, if_pos (by simpa using hhint)]
      rfl
    · rw [withoutHint, if_neg hhint, hints, if_neg (by simpa using hhint)]
      rfl

theorem line_rowsBelow (lines : List (List Char)) :
    (rowsBelow lines).map (·.line) = List.range' (2 + hints lines) (lines.length - (hints lines + 1)) := by
  have hline : (rowsBelow lines).map (·.line) = ((lines.zipIdx 1).drop (hints lines + 1)).map Prod.snd := by
    rw [rowsBelow, List.map_map]
    rfl
  rw [hline, List.map_drop, List.zipIdx_map_snd, List.drop_range']
  congr 1
  omega

theorem cells_rowsBelow (lines : List (List Char)) :
    (rowsBelow lines).map (·.cells) =
      (lines.drop (hints lines + 1)).map (Delimited.rowOf (separator lines)) := by
  have hcells : (rowsBelow lines).map (·.cells) =
      (((lines.zipIdx 1).drop (hints lines + 1)).map Prod.fst).map
        (Delimited.rowOf (separator lines)) := by
    rw [rowsBelow, List.map_map, List.map_map]
    rfl
  rw [hcells, List.map_drop, List.zipIdx_map_fst]

def rowsRead (lines : List (List Char)) : List CacheRow := (rowsBelow lines).takeWhile CacheRow.isNarrow

theorem rows_eq_rowsRead {lines : List (List Char)} (h : Unspanned lines) :
    Delimited.rows (separator lines) (lines.drop (hints lines + 1)) =
      ((rowsRead lines).map (·.cells),
        if (rowsBelow lines).all CacheRow.isNarrow then none else some .wideCell) := by
  rw [Delimited.rows_eq_takeWhile h, ← cells_rowsBelow, List.takeWhile_map, List.all_map]
  rfl

theorem ofRows_cells (path : String) {rows : List CacheRow} {first shift : Nat}
    (h : rows.map (·.line) = List.range' (first + shift) rows.length) :
    ofRows path model first (rows.map (·.cells)) =
      ((rows.filter fun row => Reported model row.cells).map fun row =>
          .malformedDegree (row.line - shift) path (Text.quoteList row.cells),
        rows.filterMap fun row => (ofRow model row.cells).kept?) := by
  induction rows generalizing first with
  | nil => rfl
  | cons row rows ih =>
    rw [List.map_cons, List.length_cons, List.range'_succ, Nat.add_right_comm] at h
    obtain ⟨hline, hlines⟩ := List.cons.inj h
    have hnumber : row.line - shift = first := by rw [hline, Nat.add_sub_cancel]
    have hreported : Reported model row.cells ↔ ofRow model row.cells = .malformed :=
      ofRow_eq_malformed_iff.symm
    rw [List.map_cons, ofRows, ih hlines]
    cases hrow : ofRow model row.cells <;> simp [hreported, hrow, hnumber, RowResult.kept?]

theorem read_eq_ofRows (path : String) (model : Option Model) {text : String} {lines : List (List Char)}
    (h : Text.splitLines text.toList = lines) :
    read path model text =
      let read := Delimited.rows (separator lines) (lines.drop (hints lines + 1))
      let kept := ofRows path model 2 read.1
      ⟨kept.1, read.2.elim (.ok (.ofList kept.2)) .error⟩ := by
  have hbehind : lines.drop (hints lines + 1) = (lines.drop (hints lines)).tail := by
    rw [← List.drop_one, List.drop_drop]
  rw [read, h, withoutHint_eq_drop, hbehind, separator]
  cases lines.drop (hints lines) <;> rfl

theorem line_rowsRead (lines : List (List Char)) :
    (rowsRead lines).map (·.line) = List.range' (2 + hints lines) (rowsRead lines).length := by
  have hprefix : rowsRead lines <+: rowsBelow lines := List.takeWhile_prefix _
  have hlines := hprefix.map (·.line)
  rw [line_rowsBelow, List.prefix_iff_eq_take, List.length_map] at hlines
  have hlength : (rowsBelow lines).length = lines.length - (hints lines + 1) := by simp [rowsBelow]
  obtain ⟨rest, hrest⟩ := Nat.exists_eq_add_of_le (hlength ▸ hprefix.length_le)
  rw [hlines, hrest, ← List.range'_append_1, List.take_left' List.length_range']

theorem read_eq (path : String) (model : Option Model) {text : String} {lines : List (List Char)}
    (hlines : Text.splitLines text.toList = lines) (h : Unspanned lines) :
    read path model text =
      ⟨((rowsRead lines).filter fun row => Reported model row.cells).map fun row =>
          .malformedDegree (row.line - hints lines) path (Text.quoteList row.cells),
        if (rowsBelow lines).all CacheRow.isNarrow then
          .ok (.ofList ((rowsRead lines).filterMap fun row => (ofRow model row.cells).kept?))
        else .error .wideCell⟩ := by
  rw [read_eq_ofRows path model hlines, rows_eq_rowsRead h]
  simp only [ofRows_cells path (line_rowsRead lines)]
  split <;> rfl

/-- What a cache is read as: for each name the degree of its last good row, and a report for each bad row,
in the order of the file. A cell that is too wide ends the reading; what is reported are the bad rows before
its own. -/
theorem read_rows (path : String) (model : Option Model) (text : String)
    (h : Unspanned (Text.splitLines text.toList)) :
    let lines := Text.splitLines text.toList
    let rows := rowsBelow lines
    let outcome := read path model text
    outcome.messages = ((rowsRead lines).filter fun row => Reported model row.cells).map (fun row =>
      .malformedDegree (row.line - hints lines) path (Text.quoteList row.cells)) ∧
    ((∃ row ∈ rows, ¬ row.isNarrow) → outcome.result = .error .wideCell) ∧
    ((∀ row ∈ rows, row.isNarrow) → rowsRead lines = rows ∧ ∃ container, outcome.result = .ok container ∧
      container.toList.Pairwise (fun a b => a.name < b.name) ∧
      ∀ d, d ∈ container.toList ↔ ∃ before row after, rows = before ++ row :: after ∧
        Records model row.cells d ∧
        ∀ later ∈ after, ∀ e, Records model later.cells e → e.name ≠ d.name) := by
  intro lines rows outcome
  have hread : outcome = _ := read_eq path model rfl h
  rw [hread]
  refine ⟨rfl, fun ⟨row, hrow, hwide⟩ => if_neg fun hall => ?_, fun hnarrow => ?_⟩
  · exact hwide (List.all_eq_true.1 hall row hrow)
  · have hrows : rowsRead lines = rows := List.takeWhile_eq_self_iff.2 hnarrow
    refine ⟨hrows, _, if_pos (List.all_eq_true.2 hnarrow), ascending_ofList _, fun d => ?_⟩
    rw [hrows, mem_ofList_iff_last, findRev?_filterMap_eq_some_iff]
    simp only [decide_true, true_and, decide_eq_false_iff_not, kept?_ofRow_eq_some_iff]

def hintedCache : String :=
  "sep=;\nVariable;#ifdef Count;File Count\nA;2;1\n\nB;5\nA;x;1\nA; 7 ;\"3\";\nB;4;2\nC;y;1\nA;1;\n"

/-- The reports name the lines that stand one above the rows. -/
theorem read_rows_hinted :
    let lines := Text.splitLines hintedCache.toList
    let model := some (Model.ofList [⟨"A", "bool"⟩, ⟨"B", "string"⟩])
    Unspanned lines ∧ hints lines = 1 ∧
    rowsBelow lines = [⟨["A", "2", "1"], 3⟩, ⟨[], 4⟩, ⟨["B", "5"], 5⟩, ⟨["A", "x", "1"], 6⟩,
      ⟨["A", " 7 ", "3", ""], 7⟩, ⟨["B", "4", "2"], 8⟩, ⟨["C", "y", "1"], 9⟩, ⟨["A", "1", ""], 10⟩] ∧
    (read "sd.csv" model hintedCache).messages = [.malformedDegree 4 "sd.csv" "['B', '5']",
      .malformedDegree 5 "sd.csv" "['A', 'x', '1']", .malformedDegree 9 "sd.csv" "['A', '1', '']"] ∧
    ∃ container, (read "sd.csv" model hintedCache).result = .ok container ∧
      ⟨⟨"A", "bool"⟩, 7, 3⟩ ∈ container.toList ∧ ∀ d ∈ container.toList, d.name ≠ "C" := by
  intro lines model
  have hunspanned : Unspanned lines := by unfold Unspanned; decide +kernel
  have hhints : hints lines = 1 := by decide +kernel
  have hrows : rowsBelow lines = [⟨["A", "2", "1"], 3⟩, ⟨[], 4⟩, ⟨["B", "5"], 5⟩, ⟨["A", "x", "1"], 6⟩,
      ⟨["A", " 7 ", "3", ""], 7⟩, ⟨["B", "4", "2"], 8⟩, ⟨["C", "y", "1"], 9⟩, ⟨["A", "1", ""], 10⟩] := by
    decide +kernel
  have hnarrow : ∀ row ∈ rowsBelow lines, row.isNarrow := by
    rw [hrows]
    decide +kernel
  obtain ⟨hmessages, -, hcontainer⟩ := read_rows "sd.csv" model hintedCache hunspanned
  obtain ⟨hread, container, hresult, -, hmem⟩ := hcontainer hnarrow
  rw [hread, hrows, hhints] at hmessages
  rw [hrows] at hmem
  have hlast : ∀ later ∈ [CacheRow.mk ["B", "4", "2"] 8, ⟨["C", "y", "1"], 9⟩, ⟨["A", "1", ""], 10⟩],
      (ofRow model later.cells).kept?.all (·.name ≠ "A") := by decide +kernel
  have hdeclared : ∀ row ∈ rowsBelow lines, (ofRow model row.cells).kept?.all (·.name ≠ "C") := by
    rw [hrows]
    decide +kernel
  refine ⟨hunspanned, hhints, hrows, hmessages.trans (by decide +kernel), container, hresult, ?_,
    fun d hd => ?_⟩
  · refine (hmem _).2 ⟨[_, _, _, _], ⟨["A", " 7 ", "3", ""], 7⟩, _, rfl,
      .row (by decide +kernel) (by decide +kernel) (by decide +kernel), fun later hlater e he => ?_⟩
    exact of_decide_eq_true (he.of_all (hlast later hlater))
  · obtain ⟨before, row, after, hsplit, hrecords, -⟩ := (hmem d).1 hd
    have hrow : row ∈ rowsBelow lines := by
      rw [hrows, hsplit]
      simp
    exact of_decide_eq_true (hrecords.of_all (hdeclared row hrow))

end Degrees
end Variability
