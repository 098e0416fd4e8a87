import Variability.Proofs.Disk.Frame

set_option autoImplicit false

namespace Variability.Disk

/-- Paths with a folder in front go by its name first. -/
theorem walkOrder_folders {a a' b b' : String} {as bs : List String} :
    walkOrder (a :: a' :: as) (b :: b' :: bs) ↔ a < b ∨ a = b ∧ walkOrder (a' :: as) (b' :: bs) := by
  simp [walkOrder]

theorem walkOrder_total (as bs : List String) : walkOrder as bs || walkOrder bs as := by
  induction as generalizing bs with
  | nil =>
    match bs with
    | [] | [_] | _ :: _ :: _ => rfl
  | cons a as ih =>
    match as, bs with
    | [], [b] => simpa [walkOrder] using String.le_total a b
    | [], [] | [], _ :: _ :: _ | _ :: _, [] | _ :: _, [_] => rfl
    | a' :: as, b :: b' :: bs =>
      rw [Bool.or_eq_true]
      by_cases hab : a < b
      · exact .inl (walkOrder_folders.2 (.inl hab))
      · by_cases hba : b < a
        · exact .inr (walkOrder_folders.2 (.inl hba))
        · obtain rfl := String.le_antisymm (String.not_lt.1 hba) (String.not_lt.1 hab)
          exact (Bool.or_eq_true_iff.1 (ih (b' :: bs))).imp
            (fun h => walkOrder_folders.2 (.inr ⟨rfl, h⟩))
            fun h => walkOrder_folders.2 (.inr ⟨rfl, h⟩)

theorem walkOrder_antisymm {as bs : List String} (hab : walkOrder as bs) (hba : walkOrder bs as) :
    as = bs := by
  induction as generalizing bs with
  | nil =>
    match bs with
    | [] => rfl
    | [_] => simp [walkOrder] at hab
    | _ :: _ :: _ => simp [walkOrder] at hba
  | cons a as ih =>
    match as, bs with
    | [], [b] =>
      simp only [walkOrder, decide_eq_true_eq] at hab hba
      rw [String.le_antisymm hab hba]
    | [], [] => simp [walkOrder] at hba
    | [], _ :: _ :: _ => simp [walkOrder] at hba
    | _ :: _, [] => simp [walkOrder] at hab
    | _ :: _, [_] => simp [walkOrder] at hab
    | a' :: as, b :: b' :: bs =>
      rcases walkOrder_folders.1 hab with hlt | ⟨rfl, hrest⟩
      · rcases walkOrder_folders.1 hba with hgt | ⟨rfl, -⟩
        · exact absurd hgt (String.lt_asymm hlt)
        · exact absurd hlt (String.lt_irrefl _)
      · rcases walkOrder_folders.1 hba with hgt | ⟨-, hback⟩
        · exact absurd hgt (String.lt_irrefl _)
        · rw [ih hrest hback]

theorem walkOrder_trans (as bs cs : List String) (hab : walkOrder as bs) (hbc : walkOrder bs cs) :
    walkOrder as cs := by
  induction as generalizing bs cs with
  | nil =>
    match bs, cs with
    | _, [] => rfl
    | _, _ :: _ :: _ => rfl
    | [], [_] => simp [walkOrder] at hbc
    | [_], [_] => simp [walkOrder] at hab
    | _ :: _ :: _, [_] => simp [walkOrder] at hbc
  | cons a as ih =>
    match as, bs, cs with
    | [], [b], [c] =>
      simp only [walkOrder, decide_eq_true_eq] at hab hbc ⊢
      exact String.le_trans hab hbc
    | [], _, [] | [], _, _ :: _ :: _ => rfl
    | [], [], [_] | [], _ :: _ :: _, [_] => simp [walkOrder] at hbc
    | _ :: _, [], _ | _ :: _, [_], _ => simp [walkOrder] at hab
    | _ :: _, _ :: _ :: _, [] | _ :: _, _ :: _ :: _, [_] => simp [walkOrder] at hbc
    | a' :: as, b :: b' :: bs, c :: c' :: cs =>
      refine walkOrder_folders.2 ?_
      rcases walkOrder_folders.1 hab with hlt | ⟨rfl, hrest⟩
      · rcases walkOrder_folders.1 hbc with hlt' | ⟨rfl, -⟩
        · exact .inl (String.lt_trans hlt hlt')
        · exact .inl hlt
      · rcases walkOrder_folders.1 hbc with hlt | ⟨rfl, hrest'⟩
        · exact .inl hlt
        · exact .inr ⟨rfl, ih _ _ hrest hrest'⟩

theorem pairwise_walkOrder (names : List (List String)) :
    (names.mergeSort walkOrder).Pairwise fun as bs => walkOrder as bs :=
  List.pairwise_mergeSort walkOrder_trans walkOrder_total names

theorem filter_mergeSort (p : List String → Bool) (names : List (List String)) :
    (names.mergeSort walkOrder).filter p = (names.filter p).mergeSort walkOrder := by
  refine List.Perm.eq_of_pairwise (fun _ _ _ _ hab hba => walkOrder_antisymm hab hba)
    ((pairwise_walkOrder _).filter _) (pairwise_walkOrder _) ?_
  exact ((List.mergeSort_perm _ _).filter _).trans (List.mergeSort_perm _ _).symm

end Variability.Disk
