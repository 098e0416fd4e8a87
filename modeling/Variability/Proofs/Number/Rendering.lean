import Mathlib
import Variability.Number.Shortest
import Variability.Proofs.Number.Integer
import Variability.Text.Line

set_option autoImplicit false

namespace Variability.Number

def IsNumeral (c : Char) : Prop := c.isDigit ∨ c ∈ ['-', '+', '.', 'e', 'i', 'n', 'f', 'a']

def IsNumeralText (s : String) : Prop := ∀ c ∈ s.toList, IsNumeral c

theorem IsNumeral.not_lineEnd {c : Char} (h : IsNumeral c) : Text.isLineEnd c = false := by
  rcases h with hdigit | hother
  · have hbounds := toNat_bounds_of_isDigit hdigit
    simp only [Text.isLineEnd, Bool.or_eq_false_iff, Bool.and_eq_false_iff, decide_eq_false_iff_not,
      beq_eq_false_iff_ne]
    omega
  · simp only [List.mem_cons, List.not_mem_nil, or_false] at hother
    rcases hother with rfl | rfl | rfl | rfl | rfl | rfl | rfl | rfl <;> decide

theorem IsNumeral.ne_of_not {c d : Char} (h : IsNumeral c) (hd : ¬ IsNumeral d) : c ≠ d := by
  rintro rfl
  exact hd h

theorem isNumeral_of_mem_toDigits {n : Nat} {c : Char} (h : c ∈ Nat.toDigits 10 n) : IsNumeral c :=
  .inl (Nat.isDigit_of_mem_toDigits (by decide) (by decide) h)

theorem IsNumeralText.not_lineEnd {s : String} (h : IsNumeralText s) :
    ∀ c ∈ s.toList, Text.isLineEnd c = false :=
  fun c hc => (h c hc).not_lineEnd

theorem isNumeralText_append {s t : String} :
    IsNumeralText (s ++ t) ↔ IsNumeralText s ∧ IsNumeralText t := by
  simp [IsNumeralText, or_imp, forall_and]

theorem isNumeralText_ofList {cs : List Char} : IsNumeralText (.ofList cs) ↔ ∀ c ∈ cs, IsNumeral c := by
  simp [IsNumeralText]

theorem isNumeralText_toString (n : Int) : IsNumeralText (toString n) := by
  intro c hc
  rcases isDigit_of_mem_toString hc with rfl | hdigit
  · exact .inr (by decide)
  · exact .inl hdigit

/-- Whichever form is chosen, the digits are only cut, padded with zeros and joined by signs. -/
theorem Decimal.isNumeralText_render (d : Decimal) : IsNumeralText d.render := by
  have hshown : ∀ cs : List Char, (∀ c ∈ cs, c ∈ Nat.toDigits 10 d.digits ∨ c = '0') →
      IsNumeralText (.ofList cs) := by
    intro cs h
    refine isNumeralText_ofList.2 fun c hc => ?_
    rcases h c hc with hdigit | rfl
    · exact isNumeral_of_mem_toDigits hdigit
    · exact .inl (by decide)
  have hsigns : ∀ s ∈ ["0.", ".0", ".", "", "e", "-", "+"], IsNumeralText s := by
    simp [IsNumeralText, IsNumeral]
  unfold Decimal.render
  dsimp only
  split
  · split
    · refine isNumeralText_append.2 ⟨hsigns _ (by simp), hshown _ fun c hc => ?_⟩
      rcases List.mem_append.1 hc with hc | hc
      · exact .inr (List.eq_of_mem_replicate hc)
      · exact .inl hc
    · split
      · refine isNumeralText_append.2 ⟨hshown _ fun c hc => ?_, hsigns _ (by simp)⟩
        rcases List.mem_append.1 hc with hc | hc
        · exact .inl hc
        · exact .inr (List.eq_of_mem_replicate hc)
      · exact isNumeralText_append.2 ⟨isNumeralText_append.2
          ⟨hshown _ fun c hc => .inl (List.mem_of_mem_take hc), hsigns _ (by simp)⟩,
          hshown _ fun c hc => .inl (List.mem_of_mem_drop hc)⟩
  · simp only [isNumeralText_append]
    refine ⟨⟨⟨⟨⟨hshown _ fun c hc => .inl (List.mem_of_mem_take hc), ?_⟩,
      hshown _ fun c hc => .inl (List.mem_of_mem_drop hc)⟩, hsigns _ (by simp)⟩, ?_⟩, ?_⟩
    · split <;> exact hsigns _ (by simp)
    · split <;> exact hsigns _ (by simp)
    · refine isNumeralText_ofList.2 fun c hc => ?_
      split at hc
      · rcases List.mem_cons.1 hc with rfl | hc
        · exact .inl (by decide)
        · exact isNumeral_of_mem_toDigits hc
      · exact isNumeral_of_mem_toDigits hc

theorem isNumeralText_render (x : Double) : IsNumeralText (render x) := by
  have hsigns : ∀ s ∈ ["nan", "inf", "-inf", "-", "", "0.0"], IsNumeralText s := by
    simp [IsNumeralText, IsNumeral]
  cases x with
  | nan => exact hsigns "nan" (by simp)
  | infinite s =>
    cases s with
    | false => exact hsigns "inf" (by simp)
    | true => exact hsigns "-inf" (by simp)
  | finite s u =>
    refine isNumeralText_append.2 ⟨by cases s <;> exact hsigns _ (by simp), ?_⟩
    split
    · exact hsigns _ (by simp)
    · exact Decimal.isNumeralText_render _

end Variability.Number
