import Variability.Model
import Variability.Proofs.Delimited.Rows
import Variability.Proofs.Keyed

set_option autoImplicit false

namespace Variability

open Delimited (Cell IsSeparator writeLine)
open Text (Line LineEnd WithoutBreaks Ended EndedButLast)

def Skipped (cs : List Char) : Prop := (∀ c ∈ cs, Text.isBlank c) ∨ cs.head? = some '#'

instance (cs : List Char) : Decidable (Skipped cs) :=
  @instDecidableOr _ _ (List.decidableBAll _ _) inferInstance

namespace Model

theorem isContent_iff {cs : List Char} : isContent cs = true ↔ ¬ Skipped cs := by
  rw [isContent, Skipped, ← Text.strip_eq_nil_iff]
  simp

theorem ignoresEnds_isContent : Text.IgnoresEnds isContent where
  ended := by
    rintro cs line ⟨breaks, hbreaks, rfl⟩
    have hblank : ∀ c ∈ breaks, Text.isBlank c := by
      intro c hc
      rcases of_decide_eq_true (hbreaks c hc) with rfl | rfl <;> decide
    have hhash : ∀ c ∈ breaks, c ≠ '#' := by
      rintro c hc rfl
      exact absurd (hblank _ hc) (by decide)
    rw [Bool.eq_iff_iff, isContent_iff, isContent_iff, not_iff_not, Skipped, Skipped]
    cases cs with
    | nil =>
      have hhead : breaks.head? ≠ some '#' := fun h => hhash '#' (List.mem_of_mem_head? h) rfl
      simpa [hhead] using hblank
    | cons c cs =>
      have hall : (∀ d ∈ c :: cs ++ breaks, Text.isBlank d) ↔ ∀ d ∈ c :: cs, Text.isBlank d :=
        ⟨fun h d hd => h d (List.mem_append_left _ hd),
          fun h d hd => (List.mem_append.1 hd).elim (h d) (hblank d)⟩
      rw [hall]
      rfl
  empty := by decide

end Model

/-- A row of a model file. Further cells than the name and the type say nothing. -/
structure Declaration where
  nameCell : Cell
  others : List Cell
  deriving DecidableEq, Repr

namespace Declaration

def cells (d : Declaration) : List Cell := d.nameCell :: d.others

def name (d : Declaration) : String := Text.stripText d.nameCell.text

def type (d : Declaration) : String :=
  match d.others.head? with
  | none => "unknown"
  | some cell => if Text.stripText cell.text = "" then "unknown" else Text.stripText cell.text

def write (separator : Char) (d : Declaration) : List Char := writeLine separator d.cells

def isNarrow (d : Declaration) : Bool := Delimited.isNarrow (d.cells.map (·.text))

def declared? (d : Declaration) : Option Variable := if d.name = "" then none else some ⟨d.name, d.type⟩

variable {d : Declaration}

theorem variableOfRow_cells : Model.variableOfRow (d.cells.map (·.text)) = d.declared? := by
  obtain ⟨nameCell, others⟩ := d
  cases others <;> rfl

theorem declared?_eq_none_of_blank {separator : Char} (h : ∀ c ∈ d.write separator, Text.isBlank c) :
    d.declared? = none := by
  have hname : Text.strip d.nameCell.text.toList = [] := Text.strip_eq_nil_iff.2 fun c hc =>
    h c (Delimited.mem_writeLine_of_mem_head hc d.others)
  have hempty : d.name = "" := congrArg String.ofList hname
  rw [declared?, if_pos hempty]

end Declaration

inductive Entry where
  | row (d : Declaration)
  | skipped (cs : List Char)
  deriving DecidableEq, Repr

def Entry.declaration? : Entry → Option Declaration
  | .row d => some d
  | .skipped _ => none

def Entry.write (separator : Char) : Entry → List Char
  | .row d => d.write separator
  | .skipped cs => cs

/-- No cell goes over the end of its line, and no row looks like one that is skipped. -/
def Entry.WellWritten (separator : Char) : Entry → Prop
  | .row d => (∀ cell ∈ d.cells, WithoutBreaks cell.text.toList) ∧ (d.write separator).head? ≠ some '#'
  | .skipped cs => WithoutBreaks cs ∧ Skipped cs

instance (separator : Char) (e : Entry) : Decidable (e.WellWritten separator) := by
  cases e <;> (unfold Entry.WellWritten; infer_instance)

def rowsIn (below : List (Entry × LineEnd)) : List Declaration :=
  below.filterMap fun (entry, _) => entry.declaration?

structure ModelFile where
  before : List Line
  header : Line
  below : List (Entry × LineEnd)
  deriving DecidableEq, Repr

namespace ModelFile

variable (file : ModelFile)

def separator : Char := if ';' ∈ file.header.chars then ';' else ','

def linesBelow : List Line := file.below.map fun (entry, ending) => ⟨entry.write file.separator, ending⟩

def lines : List Line := file.before ++ file.header :: file.linesBelow

def text : String := String.ofList (Text.writeLines file.lines)

def rows : List Declaration := rowsIn file.below

structure WellWritten : Prop where
  before : ∀ line ∈ file.before, WithoutBreaks line.chars ∧ Skipped line.chars
  header : WithoutBreaks file.header.chars ∧ ¬ Skipped file.header.chars
  below : ∀ below ∈ file.below, below.1.WellWritten file.separator
  ends : EndedButLast file.lines

instance : Decidable file.WellWritten :=
  decidable_of_iff ((∀ line ∈ file.before, WithoutBreaks line.chars ∧ Skipped line.chars) ∧
      (WithoutBreaks file.header.chars ∧ ¬ Skipped file.header.chars) ∧
      (∀ below ∈ file.below, below.1.WellWritten file.separator) ∧ EndedButLast file.lines)
    ⟨fun ⟨before, header, below, ends⟩ => ⟨before, header, below, ends⟩,
      fun h => ⟨h.before, h.header, h.below, h.ends⟩⟩

def Narrow : Prop := ∀ d ∈ file.rows, Model.isContent (d.write file.separator) → d.isNarrow

instance : Decidable file.Narrow := List.decidableBAll _ _

variable {file}

theorem isSeparator_separator : IsSeparator file.separator := by
  unfold separator
  split <;> exact ⟨by decide, by decide⟩

theorem separatorOf_ended {line : List Char} (h : Ended file.header.chars line) :
    Delimited.separatorOf line = file.separator := by
  obtain ⟨breaks, hbreaks, rfl⟩ := h
  have hmem : ';' ∉ breaks := fun h => absurd (hbreaks _ h) (by decide)
  simp [Delimited.separatorOf, separator, hmem]

theorem Entry.withoutBreaks_write {entry : Entry} (h : entry.WellWritten file.separator) :
    WithoutBreaks (entry.write file.separator) := by
  cases entry with
  | skipped cs => exact h.1
  | row d =>
    intro c hc
    rcases Delimited.mem_writeLine hc with rfl | rfl | ⟨cell, hcell, hc⟩
    · exact isSeparator_separator.2
    · rfl
    · exact h.1 cell hcell c hc

theorem WellWritten.withoutBreaks (h : file.WellWritten) : ∀ line ∈ file.lines, WithoutBreaks line.chars := by
  intro line hline
  rcases List.mem_append.1 hline with hline | hline
  · exact (h.before line hline).1
  · rcases List.mem_cons.1 hline with rfl | hline
    · exact h.header.1
    · obtain ⟨below, hbelow, rfl⟩ := List.mem_map.1 hline
      exact Entry.withoutBreaks_write (h.below below hbelow)

theorem WellWritten.filter_lines (h : file.WellWritten) :
    (file.lines.map (·.chars)).filter Model.isContent =
      file.header.chars :: (file.linesBelow.map (·.chars)).filter Model.isContent := by
  have hbefore : (file.before.map (·.chars)).filter Model.isContent = [] := by
    rw [List.filter_eq_nil_iff]
    intro cs hcs
    obtain ⟨line, hline, rfl⟩ := List.mem_map.1 hcs
    rw [Model.isContent_iff, not_not]
    exact (h.before line hline).2
  rw [lines, List.map_append, List.filter_append, hbefore, List.nil_append, List.map_cons,
    List.filter_cons_of_pos (Model.isContent_iff.2 h.header.2)]

theorem declared_of_ended {d : Declaration} {line : List Char}
    (h : (Entry.row d).WellWritten file.separator) (hline : Ended (d.write file.separator) line) :
    (line.foldl (Delimited.Row.step file.separator) .empty).place ≠ .quoted ∧
      Delimited.isNarrow (Delimited.rowOf file.separator line) = d.isNarrow ∧
      Model.variableOfRow (Delimited.rowOf file.separator line) = d.declared? := by
  obtain ⟨hplace, hrow⟩ :=
    Delimited.rowOf_writeLine isSeparator_separator h.1 (List.cons_ne_nil _ _) hline
  refine ⟨hplace, ?_⟩
  rw [← Declaration.variableOfRow_cells, Declaration.isNarrow]
  rcases hrow with hrow | ⟨hrow, hcells⟩
  · rw [hrow]
    exact ⟨rfl, rfl⟩
  · -- no row and a row of one empty cell declare nothing
    have hempty : Model.variableOfRow (d.cells.map (·.text)) = none := by
      rw [hcells]
      rfl
    have hnarrow : Delimited.isNarrow (d.cells.map (·.text)) = true := by
      rw [hcells]
      rfl
    rw [hrow, hempty, hnarrow]
    exact ⟨rfl, rfl⟩

structure ReadBelow (file : ModelFile) (below : List (Entry × LineEnd)) (lines : List (List Char)) :
    Prop where
  oneLine : ∀ line ∈ lines, (line.foldl (Delimited.Row.step file.separator) .empty).place ≠ .quoted
  narrow : (lines.map (Delimited.rowOf file.separator)).all Delimited.isNarrow ↔
    ∀ d ∈ rowsIn below, Model.isContent (d.write file.separator) → d.isNarrow
  declared : (lines.map (Delimited.rowOf file.separator)).filterMap Model.variableOfRow =
    (rowsIn below).filterMap Declaration.declared?

/-- The induction is on the entries; those that do not count have no line that is read. -/
theorem readBelow_of_forall₂ {below : List (Entry × LineEnd)} {lines : List (List Char)}
    (hbelow : ∀ b ∈ below, b.1.WellWritten file.separator)
    (hlines : List.Forall₂ Ended
      ((below.map fun b => b.1.write file.separator).filter Model.isContent) lines) :
    ReadBelow file below lines := by
  induction below generalizing lines with
  | nil =>
    cases hlines
    exact ⟨fun _ hline => (nomatch hline), by simp [rowsIn], rfl⟩
  | cons b below ih =>
    obtain ⟨hb, hrest⟩ := List.forall_mem_cons.1 hbelow
    obtain ⟨entry, ending⟩ := b
    rw [List.map_cons] at hlines
    cases entry with
    | skipped cs =>
      have hskipped : ¬ Model.isContent cs := fun hcontent => Model.isContent_iff.1 hcontent hb.2
      rw [Entry.write, List.filter_cons_of_neg hskipped] at hlines
      obtain ⟨honeLine, hnarrow, hdeclared⟩ := ih hrest hlines
      exact ⟨honeLine, hnarrow, hdeclared⟩
    | row d =>
      have hrows : rowsIn ((.row d, ending) :: below) = d :: rowsIn below := rfl
      by_cases hcontent : Model.isContent (d.write file.separator)
      · rw [Entry.write, List.filter_cons_of_pos hcontent] at hlines
        obtain ⟨line, others, hline, hothers, rfl⟩ := List.forall₂_cons_left_iff.1 hlines
        obtain ⟨hplace, hwidth, hdeclared⟩ := declared_of_ended hb hline
        have hbehind := ih hrest hothers
        refine ⟨List.forall_mem_cons.2 ⟨hplace, hbehind.oneLine⟩, ?_, ?_⟩
        · rw [List.map_cons, List.all_cons, Bool.and_eq_true, hwidth, hbehind.narrow, hrows,
            List.forall_mem_cons, forall_prop_of_true hcontent]
        · rw [hrows, List.filterMap_cons, List.map_cons, List.filterMap_cons, hdeclared,
            hbehind.declared]
      · have hblank : ∀ c ∈ d.write file.separator, Text.isBlank c := by
          have hskipped := hcontent
          rw [Model.isContent_iff, not_not] at hskipped
          exact hskipped.resolve_right hb.2
        rw [Entry.write, List.filter_cons_of_neg hcontent] at hlines
        have hbehind := ih hrest hlines
        refine ⟨hbehind.oneLine, ?_, ?_⟩
        · rw [hbehind.narrow, hrows, List.forall_mem_cons]
          exact ⟨fun h => ⟨fun hc => absurd hc hcontent, h⟩, fun h => h.2⟩
        · rw [hrows, List.filterMap_cons, Declaration.declared?_eq_none_of_blank hblank,
            hbehind.declared]

theorem WellWritten.read_eq (h : file.WellWritten) :
    Model.read file.text =
      if file.Narrow then .ok (.ofList (file.rows.filterMap Declaration.declared?))
      else .error .wideCell := by
  have hread := Model.ignoresEnds_isContent.filter_writeLines h.withoutBreaks h.ends
  rw [h.filter_lines] at hread
  obtain ⟨header, lines, hheader, hlines, hcontent⟩ := List.forall₂_cons_left_iff.1 hread
  have hbelow : file.linesBelow.map (·.chars) = file.below.map fun b => b.1.write file.separator := by
    rw [linesBelow, List.map_map]
    rfl
  rw [hbelow] at hlines
  have hrows := readBelow_of_forall₂ h.below hlines
  have honeLine : Delimited.OneLine file.separator lines := fun line hline =>
    hrows.oneLine line (List.dropLast_subset _ hline)
  have hnarrow : (lines.map (Delimited.rowOf file.separator)).all Delimited.isNarrow ↔ file.Narrow :=
    hrows.narrow
  rw [Model.read, text, String.toList_ofList, hcontent]
  simp only
  rw [separatorOf_ended hheader, Delimited.rows_eq_takeWhile honeLine]
  by_cases hfile : file.Narrow
  · have hall := hnarrow.2 hfile
    rw [if_pos hall, if_pos hfile, List.takeWhile_eq_self_iff.2 (List.all_eq_true.1 hall)]
    simp only [hrows.declared]
    rfl
  · rw [if_neg (mt hnarrow.1 hfile), if_neg hfile]

end ModelFile

/-- What a model file is read as: the names of its rows in the order in which they first come, each with the
type in the last row of the name. Looking up a name gives the variable in this list. A row that counts and
has a cell that is too wide ends the reading. -/
theorem Model.read_written (file : ModelFile) (h : file.WellWritten) :
    (¬ file.Narrow → Model.read file.text = .error .wideCell) ∧
    (file.Narrow → ∃ model, Model.read file.text = .ok model ∧
      let named := file.rows.filter (·.name ≠ "")
      model.toList.map (·.name) = firstOccurrences (named.map (·.name)) ∧
      (∀ v, v ∈ model.toList ↔ ∃ before row after, named = before ++ row :: after ∧
        v = ⟨row.name, row.type⟩ ∧ ∀ later ∈ after, later.name ≠ row.name) ∧
      (∀ name v, model.find? name = some v ↔ v ∈ model.toList ∧ v.name = name) ∧
      ∀ name, model.declares name = true ↔ ∃ v ∈ model.toList, v.name = name) := by
  refine ⟨fun hwide => h.read_eq.trans (if_neg hwide), fun hnarrow => ?_⟩
  refine ⟨_, h.read_eq.trans (if_pos hnarrow), ?_⟩
  intro named
  generalize hread : Model.ofList (file.rows.filterMap Declaration.declared?) = model
  have hmodel : model.toList = lastByKey Variable.name (named.map fun d => ⟨d.name, d.type⟩) := by
    have hnamed : file.rows.filterMap Declaration.declared? = named.map fun d => ⟨d.name, d.type⟩ := by
      rw [← List.filterMap_eq_map, List.filterMap_filter]
      refine List.filterMap_congr fun d _ => ?_
      by_cases hd : d.name = "" <;> simp [Declaration.declared?, hd]
    rw [← hread, Model.ofList, hnamed]
  have hnodup : (model.toList.map (·.name)).Nodup := by
    rw [hmodel]
    exact nodup_keys_lastByKey _ _
  have hfind : ∀ name v, model.find? name = some v ↔ v ∈ model.toList ∧ v.name = name :=
    fun name v => find?_key_eq_some_iff hnodup
  refine ⟨?_, fun v => ?_, hfind, fun name => ?_⟩
  · rw [hmodel, keys_lastByKey, List.map_map]
    rfl
  · have hlast : v ∈ model.toList ↔
        (named.map fun d : Declaration => (⟨d.name, d.type⟩ : Variable)).findRev? (·.name = v.name) =
          some v := by
      rw [← find?_lastByKey, ← hmodel, find?_key_eq_some_iff hnodup]
      simp
    rw [hlast, ← List.filterMap_eq_map, findRev?_filterMap_eq_some_iff]
    simp only [Function.comp_apply, decide_true, true_and, Option.some.injEq, forall_eq',
      decide_eq_false_iff_not]
    refine exists_congr fun before => exists_congr fun row => exists_congr fun after =>
      and_congr_right fun _ => ?_
    constructor
    · rintro ⟨rfl, hafter⟩
      exact ⟨rfl, hafter⟩
    · rintro ⟨rfl, hafter⟩
      exact ⟨rfl, hafter⟩
  · rw [Model.declares, Option.isSome_iff_exists]
    exact exists_congr fun v => hfind name v

def mixedModelFile : ModelFile where
  before := [⟨"# names".toList, .feed⟩, ⟨" \t".toList, .carriage⟩]
  header := ⟨"Variable;Type".toList, .carriage⟩
  below := [(.skipped [], .feed), (.row ⟨⟨" A,1", false⟩, [⟨"bool ", false⟩]⟩, .both),
    (.row ⟨⟨"#B", true⟩, []⟩, .feed), (.skipped "#A;hex".toList, .carriage),
    (.row ⟨⟨"", false⟩, [⟨"bool", false⟩]⟩, .feed),
    (.row ⟨⟨"C;\"x\"", false⟩, [⟨" ", true⟩, ⟨"", false⟩]⟩, .feed),
    (.row ⟨⟨"A,1 ", false⟩, [⟨"int;eger", false⟩]⟩, .missing)]

theorem Model.read_written_mixed :
    mixedModelFile.WellWritten ∧ mixedModelFile.Narrow ∧
    mixedModelFile.text = "# names\n \t\rVariable;Type\r\n A,1;bool \r\n\"#B\"\n#A;hex\r;bool\n" ++
      "\"C;\"\"x\"\"\";\" \";\nA,1 ;\"int;eger\"" ∧
    ∃ model, Model.read mixedModelFile.text = .ok model ∧
      model.toList.map (·.name) = ["A,1", "#B", "C;\"x\""] ∧
      model.find? "A,1" = some ⟨"A,1", "int;eger"⟩ := by
  have hwritten : mixedModelFile.WellWritten := by decide +kernel
  have hnarrow : mixedModelFile.Narrow := by decide +kernel
  obtain ⟨model, hread, hnames, hmem, hfind, -⟩ :=
    (Model.read_written mixedModelFile hwritten).2 hnarrow
  refine ⟨hwritten, hnarrow, by decide +kernel, model, hread, hnames.trans (by decide +kernel),
    (hfind _ _).2 ⟨(hmem _).2 ?_, rfl⟩⟩
  exact ⟨[⟨⟨" A,1", false⟩, [⟨"bool ", false⟩]⟩, ⟨⟨"#B", true⟩, []⟩,
    ⟨⟨"C;\"x\"", false⟩, [⟨" ", true⟩, ⟨"", false⟩]⟩], ⟨⟨"A,1 ", false⟩, [⟨"int;eger", false⟩]⟩, [],
    by decide +kernel, by decide +kernel, by simp⟩

def singleModelFile (name : String) : ModelFile where
  before := []
  header := ⟨"Name;Type".toList, .feed⟩
  below := [(.row ⟨⟨name, true⟩, [⟨"bool", false⟩]⟩, .feed)]

section

variable {name : String}

theorem not_skipped_quoted (separator : Char) (others : List Cell) :
    ¬ Skipped (Declaration.write separator ⟨⟨name, true⟩, others⟩) := by
  have hquote : ∃ cs, Declaration.write separator ⟨⟨name, true⟩, others⟩ = '"' :: cs := by
    cases others <;> exact ⟨_, rfl⟩
  obtain ⟨cs, hcs⟩ := hquote
  rw [hcs]
  rintro (hblank | hhash)
  · exact absurd (hblank '"' List.mem_cons_self) (by decide)
  · exact absurd (Option.some.inj hhash) (by decide)

theorem wellWritten_singleModelFile (h : WithoutBreaks name.toList) :
    (singleModelFile name).WellWritten where
  before := by simp [singleModelFile]
  header := (by decide : WithoutBreaks "Name;Type".toList ∧ ¬ Skipped "Name;Type".toList)
  below := by
    have htype : WithoutBreaks "bool".toList := by decide
    refine List.forall_mem_singleton.2 ⟨?_, fun hhash => not_skipped_quoted _ _ (.inr hhash)⟩
    exact List.forall_mem_cons.2 ⟨h, List.forall_mem_singleton.2 htype⟩
  ends := by
    rintro line hline
    obtain rfl := List.mem_singleton.1 hline
    exact LineEnd.noConfusion

theorem not_narrow_singleModelFile (h : Delimited.cellLimit < name.length) :
    ¬ (singleModelFile name).Narrow := by
  intro hnarrow
  have hrow : (⟨⟨name, true⟩, [⟨"bool", false⟩]⟩ : Declaration) ∈ (singleModelFile name).rows :=
    List.mem_singleton_self _
  have hcells := hnarrow _ hrow (Model.isContent_iff.2 (not_skipped_quoted _ _))
  have hname := List.all_eq_true.1 hcells name List.mem_cons_self
  exact Nat.not_lt.2 (of_decide_eq_true hname) h

end

/-- Rows that are written well are not read if a name has one character more than a cell can have. -/
theorem Model.read_tooWide :
    let file := singleModelFile (String.ofList (List.replicate (Delimited.cellLimit + 1) 'a'))
    file.WellWritten ∧ Model.read file.text = .error .wideCell := by
  have hplain : WithoutBreaks
      (String.ofList (List.replicate (Delimited.cellLimit + 1) 'a')).toList := by
    rw [String.toList_ofList]
    intro c hc
    rw [List.eq_of_mem_replicate hc]
    rfl
  have hwide : Delimited.cellLimit <
      (String.ofList (List.replicate (Delimited.cellLimit + 1) 'a')).length := by
    rw [String.length_ofList, List.length_replicate]
    exact Nat.lt_succ_self _
  have hwritten := wellWritten_singleModelFile hplain
  exact ⟨hwritten, hwritten.read_eq.trans (if_neg (not_narrow_singleModelFile hwide))⟩

end Variability
