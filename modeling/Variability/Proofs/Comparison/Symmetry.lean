import Variability.Proofs.Comparison.Verdict

set_option autoImplicit false

namespace Variability

namespace Double

theorem equal_comm (x y : Double) : x.equal y = y.equal x := by
  cases x <;> cases y <;> simp [equal, eq_comm]

theorem equal_self_iff {x : Double} : x.equal x = true ↔ x ≠ .nan := by
  cases x <;> simp [equal]

theorem signed_not (negative : Bool) (units : Nat) :
    signed (!negative) units = -signed negative units := by
  cases negative <;> simp [signed]

theorem abs_ofQuotient (negative : Bool) (num den : Nat) :
    (ofQuotient negative num den).abs = ofQuotient false num den := by
  simp only [ofQuotient]
  split <;> rfl

theorem abs_add_finite (s t : Bool) (u v : Nat) :
    (add (.finite s u) (.finite t v)).abs =
      if signed s u + signed t v = 0 then zero
      else ofQuotient false (signed s u + signed t v).natAbs 1 := by
  simp only [add]
  split
  · rfl
  · exact abs_ofQuotient _ _ _

theorem abs_sub_comm (x y : Double) : (x.sub y).abs = (y.sub x).abs := by
  cases x with
  | finite s u =>
    cases y with
    | finite t v =>
      have hneg : signed t v + signed (!s) u = -(signed s u + signed (!t) v) := by
        rw [signed_not, signed_not]
        omega
      simp only [sub, neg, abs_add_finite, hneg, Int.neg_eq_zero, Int.natAbs_neg]
    | _ => rfl
  | infinite s =>
    cases y with
    | infinite t => cases s <;> cases t <;> rfl
    | _ => rfl
  | nan => cases y <;> rfl

theorem isClose_comm (x y : Double) : x.isClose y = y.isClose x := by
  have hequal := equal_comm x y
  have hgap := abs_sub_comm x y
  cases x with
  | infinite s => cases y <;> simp only [isClose, hequal]
  | _ =>
    cases y with
    | infinite t => simp only [isClose, hequal]
    | _ => simp only [isClose, hequal, hgap, Bool.or_comm]

theorem isClose_self_iff {x : Double} : x.isClose x = true ↔ x ≠ .nan := by
  cases x with
  | nan => decide
  | _ => simp [isClose, equal_self_iff]

end Double

namespace Comparison

theorem sameCell_comm (old new : String) : sameCell old new = sameCell new old := by
  by_cases hempty : old = "" ∨ new = ""
  · rw [sameCell, sameCell, if_pos hempty, if_pos hempty.symm]
    exact decide_eq_decide.2 eq_comm
  · rw [sameCell, sameCell, if_neg hempty, if_neg (mt Or.symm hempty)]
    cases Number.readDouble old with
    | none => cases Number.readDouble new <;> exact decide_eq_decide.2 eq_comm
    | some x =>
      cases Number.readDouble new with
      | none => exact decide_eq_decide.2 eq_comm
      | some y => exact Double.isClose_comm x y

theorem sameCell_self_iff {cell : String} :
    sameCell cell cell = true ↔ Number.readDouble cell ≠ some .nan := by
  by_cases hempty : cell = ""
  · subst hempty
    exact iff_of_true (by decide) (by decide +kernel)
  · cases hread : Number.readDouble cell with
    | none => simp [sameCell, hempty, hread]
    | some x => simp [sameCell, hempty, hread, Double.isClose_self_iff]

theorem MatchingRows.symm {old new : List String} (h : MatchingRows old new) :
    MatchingRows new old :=
  List.Forall₂.flip (List.Forall₂.imp (fun a b hcell => (sameCell_comm b a).trans hcell) h)

theorem matchingRows_self_iff {row : List String} :
    MatchingRows row row ↔ ∀ cell ∈ row, Number.readDouble cell ≠ some .nan := by
  rw [MatchingRows, List.forall₂_same]
  exact forall₂_congr fun _ _ => sameCell_self_iff

theorem Matching.symm {old new : List (List String)} (h : Matching old new) : Matching new old :=
  ⟨h.length.symm, h.header.symm, (h.rows.imp fun _ _ => MatchingRows.symm).flip⟩

theorem matching_self_iff {t : List (List String)} :
    Matching t t ↔ ∀ row ∈ t.tail, ∀ cell ∈ row, Number.readDouble cell ≠ some .nan := by
  have hrows : List.Forall₂ MatchingRows t.tail t.tail ↔
      ∀ row ∈ t.tail, ∀ cell ∈ row, Number.readDouble cell ≠ some .nan := by
    rw [List.forall₂_same]
    exact forall₂_congr fun _ _ => matchingRows_self_iff
  exact ⟨fun h => hrows.1 h.rows, fun h => ⟨rfl, rfl, hrows.2 h⟩⟩

/-- Two tables match in both directions or in neither. A table matches itself unless one of its cells
below the header is read as no number. -/
theorem verdict_symmetric (verbose : Bool) :
    (∀ t : List (List String), verdict verbose t t = true ↔
      ∀ row ∈ t.tail, ∀ cell ∈ row, Number.readDouble cell ≠ some .nan) ∧
    ∀ old new : List (List String), verdict verbose old new = verdict verbose new old := by
  refine ⟨fun t => ?_, fun old new => ?_⟩
  · rw [verdict_iff_matching, matching_self_iff]
  · rw [Bool.eq_iff_iff, verdict_iff_matching, verdict_iff_matching]
    exact ⟨Matching.symm, Matching.symm⟩

example : verdict false [["a"], ["nan"]] [["a"], ["nan"]] = false := by decide +kernel

end Comparison
end Variability
