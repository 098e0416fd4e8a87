import Mathlib
import Variability.Number.Integer

set_option autoImplicit false

namespace Variability

theorem toNat_bounds_of_isDigit {c : Char} (h : c.isDigit) : 48 ≤ c.toNat ∧ c.toNat < 58 := by
  have hdigit : c.val ≥ '0'.val ∧ c.val ≤ '9'.val := by simpa [Char.isDigit] using h
  obtain ⟨hzero, hnine⟩ := hdigit
  rw [ge_iff_le, UInt32.le_iff_toNat_le] at hzero
  rw [UInt32.le_iff_toNat_le] at hnine
  exact ⟨hzero, Nat.lt_succ_of_le hnine⟩

namespace Text

theorem digit?_of_isDigit {c : Char} (h : c.isDigit) : digit? c = some (c.toNat - 48) := by
  have hbounds := toNat_bounds_of_isDigit h
  simp [digit?, zeros, hbounds]

theorem digits_of_isDigit {cs : List Char} (h : ∀ c ∈ cs, c.isDigit) :
    digits cs = (cs.map fun c => c.toNat - 48, []) := by
  have hmore : ∀ cs : List Char, (∀ c ∈ cs, c.isDigit) →
      moreDigits cs = (cs.map fun c => c.toNat - 48, []) := by
    intro cs
    induction cs with
    | nil => exact fun _ => rfl
    | cons c cs ih =>
      intro h
      obtain ⟨hc, hcs⟩ := List.forall_mem_cons.1 h
      have hunderscore : c ≠ '_' := by
        rintro rfl
        exact absurd hc (by decide)
      rw [moreDigits, digit?_of_isDigit hc, ih hcs]
      · rfl
      · rintro d ds rfl
        exact absurd rfl hunderscore
  cases cs with
  | nil => rfl
  | cons c cs =>
    obtain ⟨hc, hcs⟩ := List.forall_mem_cons.1 h
    rw [digits, digit?_of_isDigit hc, hmore cs hcs]
    rfl

theorem decimalValue_toDigits (n : Nat) :
    decimalValue ((Nat.toDigits 10 n).map fun c => c.toNat - 48) = n := by
  have hfold : ∀ (cs : List Char) (m : Nat),
      (cs.map fun c => c.toNat - 48).foldl (fun n d => n * 10 + d) m = Nat.ofDigitChars 10 cs m := by
    intro cs
    induction cs with
    | nil => exact fun m => Nat.ofDigitChars_nil.symm
    | cons c cs ih =>
      intro m
      rw [List.map_cons, List.foldl_cons, ih, Nat.ofDigitChars_cons, Nat.mul_comm]
      rfl
  rw [decimalValue, hfold, Nat.ofDigitChars_ten_toDigits]

end Text

namespace Number

theorem stripAround_eq_self {cs : List Char} (h : ∀ c ∈ cs, isBlankAround c = false) :
    stripAround cs = cs := by
  have hdrop : ∀ cs : List Char, (∀ c ∈ cs, isBlankAround c = false) →
      cs.dropWhile isBlankAround = cs := by
    intro cs h
    cases cs with
    | nil => rfl
    | cons c cs => simp [h c List.mem_cons_self]
  rw [stripAround, hdrop cs h, hdrop cs.reverse (by simpa using h), List.reverse_reverse]

theorem isBlankAround_of_isDigit {c : Char} (h : c.isDigit) : isBlankAround c = false := by
  obtain ⟨hlow, hhigh⟩ := toNat_bounds_of_isDigit h
  have hblank : Text.isBlank c = false := by
    simp only [Text.isBlank, Bool.or_eq_false_iff, Bool.and_eq_false_iff, decide_eq_false_iff_not,
      beq_eq_false_iff_ne]
    omega
  simp [isBlankAround, hblank]

theorem isShort_iff {n : Int} : isShort n ↔ n.natAbs < 10 ^ digitLimit := by
  rw [isShort, decide_eq_true_iff, Nat.length_toDigits_le_iff (by decide) (by decide)]

theorem readInteger_digits {text : String} {negative : Bool} {n : Nat}
    (hblank : ∀ c ∈ text.toList, isBlankAround c = false)
    (hsign : splitSign text.toList = (negative, Nat.toDigits 10 n)) :
    readInteger text =
      if digitLimit < (Nat.toDigits 10 n).length then none
      else some (if negative then -(n : Int) else n) := by
  have hdigits : ∀ c ∈ Nat.toDigits 10 n, c.isDigit := fun c =>
    Nat.isDigit_of_mem_toDigits (by decide) (by decide)
  simp only [readInteger, stripAround_eq_self hblank, hsign, Text.digits_of_isDigit hdigits]
  obtain ⟨digit, digits, hcons⟩ : ∃ digit digits,
      (Nat.toDigits 10 n).map (fun c => c.toNat - 48) = digit :: digits :=
    List.exists_cons_of_ne_nil (mt List.map_eq_nil_iff.1 Nat.toDigits_ne_nil)
  have hvalue := Text.decimalValue_toDigits n
  have hlength : ((Nat.toDigits 10 n).map fun c => c.toNat - 48).length =
      (Nat.toDigits 10 n).length := List.length_map _
  rw [hcons] at hvalue hlength ⊢
  rw [← hlength]
  simp only [hvalue]

theorem toList_toString (n : Int) :
    (toString n).toList = (if n < 0 then ['-'] else []) ++ Nat.toDigits 10 n.natAbs := by
  rw [Int.toString_eq_repr, Int.repr_eq_if]
  by_cases hn : 0 ≤ n
  · have hnat : n.toNat = n.natAbs := by omega
    simp [hn, hnat]
  · have hnat : (-n).toNat = n.natAbs := by omega
    simp [hn, Int.not_le.1 hn, hnat]

theorem length_toString_le {n : Int} (h : isShort n) : (toString n).length ≤ digitLimit + 1 := by
  have hdigits : (Nat.toDigits 10 n.natAbs).length ≤ digitLimit := of_decide_eq_true h
  rw [← String.length_toList, toList_toString, List.length_append]
  split <;> simp only [List.length_cons, List.length_nil] <;> omega

theorem isDigit_of_mem_toString {n : Int} {c : Char} (h : c ∈ (toString n).toList) :
    c = '-' ∨ c.isDigit := by
  rw [toList_toString] at h
  rcases List.mem_append.1 h with hsign | hdigit
  · left
    split at hsign
    · simpa using hsign
    · cases hsign
  · exact .inr (Nat.isDigit_of_mem_toDigits (by decide) (by decide) hdigit)

theorem splitSign_toString (n : Int) :
    splitSign (toString n).toList = (decide (n < 0), Nat.toDigits 10 n.natAbs) := by
  rw [toList_toString]
  by_cases hn : n < 0
  · simp [hn, splitSign]
  · have hdigits : ∀ c ∈ Nat.toDigits 10 n.natAbs, c.isDigit := fun c =>
      Nat.isDigit_of_mem_toDigits (by decide) (by decide)
    simp only [hn, if_false, List.nil_append, decide_false]
    -- no digit is a sign
    unfold splitSign
    split
    · next heq => exact absurd (hdigits '-' (heq ▸ List.mem_cons_self)) (by decide)
    · next heq => exact absurd (hdigits '+' (heq ▸ List.mem_cons_self)) (by decide)
    · rfl

theorem readInteger_eq {n : Int} : readInteger (toString n) = if isShort n then some n else none := by
  have hblank : ∀ c ∈ (toString n).toList, isBlankAround c = false := by
    intro c hc
    rcases isDigit_of_mem_toString hc with rfl | hdigit
    · decide
    · exact isBlankAround_of_isDigit hdigit
  have hvalue : (if decide (n < 0) then -(n.natAbs : Int) else n.natAbs) = n := by
    simp only [decide_eq_true_eq]
    split <;> omega
  rw [readInteger_digits hblank (splitSign_toString n), hvalue, isShort]
  by_cases hlong : digitLimit < (Nat.toDigits 10 n.natAbs).length
  · simp [hlong]
  · simp [hlong, Nat.not_lt.1 hlong]

theorem readInteger_toString {n : Int} (h : isShort n) : readInteger (toString n) = some n :=
  readInteger_eq.trans (if_pos h)

theorem readInteger_toString_of_long {n : Int} (h : ¬ isShort n) : readInteger (toString n) = none :=
  readInteger_eq.trans (if_neg h)

end Number
end Variability
