import Mathlib.Data.List.Forall2
import Variability.Comparison.Report

set_option autoImplicit false

namespace Variability.Comparison

def verdict (verbose : Bool) (old new : List (List String)) : Bool :=
  !(compareTables verbose old new).any Remark.isFault

theorem verdict_eq_true_iff {verbose : Bool} {old new : List (List String)} :
    verdict verbose old new = true ↔ (compareTables verbose old new).any Remark.isFault = false := by
  rw [verdict, Bool.not_eq_true']

def MatchingRows : List String → List String → Prop :=
  List.Forall₂ fun old new => sameCell old new = true

theorem matchingRows_cons {a b : String} {old new : List String} :
    MatchingRows (a :: old) (b :: new) ↔ sameCell a b = true ∧ MatchingRows old new :=
  List.forall₂_cons

structure Matching (old new : List (List String)) : Prop where
  length : old.length = new.length
  header : old.head? = new.head?
  rows : List.Forall₂ MatchingRows old.tail new.tail

section

variable (verbose : Bool) (names : List String) (line : Nat)

theorem faultless_compareCells (column : Nat) {old new : List String}
    (h : old.length = new.length) :
    (compareCells verbose names line column old new).any Remark.isFault = false ↔
      MatchingRows old new := by
  induction old generalizing column new with
  | nil =>
    obtain rfl := List.length_eq_zero_iff.1 h.symm
    simp [compareCells, MatchingRows]
  | cons a old ih =>
    cases new with
    | nil => cases h
    | cons b new =>
      have hrest := ih (column + 1) (Nat.succ.inj h)
      rw [matchingRows_cons, ← hrest]
      cases hcell : sameCell a b with
      | false => simp [compareCells, hcell]
      | true => cases verbose <;> simp [compareCells, hcell]

theorem faultless_compareRow {old new : List String} :
    (compareRow verbose names line old new).any Remark.isFault = false ↔ MatchingRows old new := by
  by_cases h : old.length = new.length
  · rw [compareRow, if_neg (not_not_intro h), faultless_compareCells verbose names line 0 h]
  · refine iff_of_false ?_ fun hrows => h (List.Forall₂.length_eq hrows)
    simp [compareRow, h]

theorem faultless_compareRows {old new : List (List String)}
    (h : old.length = new.length) :
    (compareRows verbose names line old new).any Remark.isFault = false ↔
      List.Forall₂ MatchingRows old new := by
  induction old generalizing line new with
  | nil =>
    obtain rfl := List.length_eq_zero_iff.1 h.symm
    simp [compareRows]
  | cons a old ih =>
    cases new with
    | nil => cases h
    | cons b new =>
      rw [List.forall₂_cons, ← ih (line + 1) (Nat.succ.inj h),
        ← faultless_compareRow verbose names line, compareRows, List.any_append,
        Bool.or_eq_false_iff]

end

theorem compareTables_of_header {old new : List (List String)} (hlength : old.length = new.length)
    (hheader : old.head? = new.head?) (verbose : Bool) :
    compareTables verbose old new = compareRows verbose (old.headD []) 2 old.tail new.tail := by
  cases old with
  | nil =>
    obtain rfl := List.length_eq_zero_iff.1 hlength.symm
    rfl
  | cons names old =>
    cases new with
    | nil => cases hlength
    | cons names' new =>
      obtain rfl : names = names' := Option.some.inj hheader
      simp only [compareTables, hlength, ne_eq, not_true_eq_false, if_false]
      rfl

theorem verdict_iff_matching (verbose : Bool) {old new : List (List String)} :
    verdict verbose old new = true ↔ Matching old new := by
  rw [verdict_eq_true_iff]
  by_cases hlength : old.length = new.length
  · have htails : old.tail.length = new.tail.length := by simp [hlength]
    by_cases hheader : old.head? = new.head?
    · rw [compareTables_of_header hlength hheader, faultless_compareRows _ _ _ htails]
      exact ⟨fun hrows => ⟨hlength, hheader, hrows⟩, Matching.rows⟩
    · refine iff_of_false ?_ fun h => hheader h.header
      cases old with
      | nil =>
        obtain rfl := List.length_eq_zero_iff.1 hlength.symm
        exact absurd rfl hheader
      | cons names old =>
        cases new with
        | nil => cases hlength
        | cons names' new =>
          have hne : names ≠ names' := fun heq => hheader (congrArg some heq)
          simp [compareTables, hlength, hne, Remark.isFault]
  · refine iff_of_false ?_ fun h => hlength h.length
    simp [compareTables, hlength, Remark.isFault]

theorem sameTables_eq_verdict (verbose : Bool) (old new : List (List String)) :
    sameTables old new = verdict verbose old new := by
  rw [Bool.eq_iff_iff, verdict_iff_matching, ← verdict_iff_matching false]
  rfl

def cellRemarks (verbose : Bool) (place : Place) (old new : String) : List Remark :=
  if sameCell old new then if verbose then [.agreement place old] else []
  else [.values place old new]

/-- Two rows of different width are told as such, the cells of others from left to right. -/
def rowRemarks (verbose : Bool) (names : List String) (line : Nat) (old new : List String) :
    List Remark :=
  if old.length = new.length then
    (old.zip new).zipIdx.flatMap fun ((a, b), column) =>
      cellRemarks verbose ⟨line, column + 1, columnName names column⟩ a b
  else [.widths line old.length new.length]

theorem compareCells_eq_flatMap (verbose : Bool) (names : List String) (line column : Nat)
    (old new : List String) :
    compareCells verbose names line column old new =
      ((old.zip new).zipIdx column).flatMap fun ((a, b), column) =>
        cellRemarks verbose ⟨line, column + 1, columnName names column⟩ a b := by
  induction old generalizing column new with
  | nil => cases new <;> rfl
  | cons a old ih =>
    cases new with
    | nil => rfl
    | cons b new =>
      rw [compareCells, ih, List.zip_cons_cons, List.zipIdx_cons, List.flatMap_cons]
      cases hcell : sameCell a b <;> cases verbose <;> simp [cellRemarks, hcell]

theorem compareRow_eq_rowRemarks (verbose : Bool) (names : List String) (line : Nat)
    (old new : List String) :
    compareRow verbose names line old new = rowRemarks verbose names line old new := by
  by_cases h : old.length = new.length
  · rw [compareRow, rowRemarks, if_neg (not_not_intro h), if_pos h, compareCells_eq_flatMap]
  · rw [compareRow, rowRemarks, if_pos h, if_neg h]

theorem compareRows_eq_flatMap (verbose : Bool) (names : List String) (line : Nat)
    (old new : List (List String)) :
    compareRows verbose names line old new =
      ((old.zip new).zipIdx line).flatMap fun ((a, b), line) => rowRemarks verbose names line a b := by
  induction old generalizing line new with
  | nil => cases new <;> rfl
  | cons a old ih =>
    cases new with
    | nil => rfl
    | cons b new =>
      rw [compareRows, ih, compareRow_eq_rowRemarks, List.zip_cons_cons, List.zipIdx_cons,
        List.flatMap_cons]

/-- The verdict is the same with and without the agreements, and under one header the remarks are those
of all lines from the second one on. -/
theorem compareTables_exact (verbose : Bool) (old new : List (List String)) :
    (verdict verbose old new = true ↔ Matching old new) ∧
      sameTables old new = verdict verbose old new ∧
      (old.length = new.length → old.head? = new.head? →
        compareTables verbose old new =
          ((old.tail.zip new.tail).zipIdx 2).flatMap fun ((a, b), line) =>
            rowRemarks verbose (old.headD []) line a b) := by
  refine ⟨verdict_iff_matching verbose, sameTables_eq_verdict verbose old new, fun hlength hheader => ?_⟩
  rw [compareTables_of_header hlength hheader, compareRows_eq_flatMap]

end Variability.Comparison
