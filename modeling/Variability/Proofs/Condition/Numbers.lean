import Variability.Proofs.Condition.Lexing

set_option autoImplicit false

namespace Variability.Condition

theorem isSuffixLetter_cases {c : Char} (h : isSuffixLetter c) :
    c = 'u' ∨ c = 'U' ∨ c = 'l' ∨ c = 'L' := by
  simpa [isSuffixLetter] using h

theorem not_isHexDigit_of_isSuffixLetter {c : Char} (h : isSuffixLetter c) :
    isHexDigit c = false := by
  rcases isSuffixLetter_cases h with rfl | rfl | rfl | rfl <;> decide

theorem isWordChar_of_isSuffixLetter {c : Char} (h : isSuffixLetter c) : isWordChar c := by
  rcases isSuffixLetter_cases h with rfl | rfl | rfl | rfl <;> decide

theorem isLower_of_le {c : Char} (ha : 'a' ≤ c) (hf : c ≤ 'f') : c.isLower := by
  have hz : c.val ≤ 'z'.val := UInt32.le_trans hf (by decide)
  change (decide (c.val ≥ 'a'.val) && decide (c.val ≤ 'z'.val)) = true
  exact Bool.and_eq_true_iff.2 ⟨decide_eq_true ha, decide_eq_true hz⟩

theorem isUpper_of_le {c : Char} (hA : 'A' ≤ c) (hF : c ≤ 'F') : c.isUpper := by
  have hZ : c.val ≤ 'Z'.val := UInt32.le_trans hF (by decide)
  exact decide_eq_true (And.intro hA hZ)

theorem isWordChar_of_isHexDigit {c : Char} (h : isHexDigit c) : isWordChar c := by
  simp only [isHexDigit, Bool.or_eq_true, Bool.and_eq_true, decide_eq_true_eq] at h
  have hchar : c.isAlphanum := by
    rcases h with (h | ⟨ha, hf⟩) | ⟨hA, hF⟩
    · exact Bool.or_eq_true_iff.2 (.inr h)
    · exact Bool.or_eq_true_iff.2 (.inl (Bool.or_eq_true_iff.2 (.inr (isLower_of_le ha hf))))
    · exact Bool.or_eq_true_iff.2 (.inl (Bool.or_eq_true_iff.2 (.inl (isUpper_of_le hA hF))))
  simp [isWordChar, hchar]

theorem not_isDigit_of_isAlpha {c : Char} (h : c.isAlpha) : c.isDigit = false := by
  have hA : 'A'.val ≤ c.val := by
    rcases Bool.or_eq_true_iff.1 h with h | h
    · exact (of_decide_eq_true h).1
    · have ha : c.val ≥ 'a'.val := of_decide_eq_true (Bool.and_eq_true_iff.1 h).1
      exact UInt32.le_trans (by decide) ha
  cases hd : c.isDigit with
  | false => rfl
  | true =>
    have hnine : c.val ≤ '9'.val := of_decide_eq_true (Bool.and_eq_true_iff.1 hd).2
    have hle := UInt32.le_trans hA hnine
    revert hle
    decide

theorem splitNumber_hexadecimal {x : Char} {digits letters : List Char} (hx : x = 'x' ∨ x = 'X')
    (hne : digits ≠ []) (hdigits : ∀ c ∈ digits, isHexDigit c)
    (hletters : ∀ c ∈ letters, isSuffixLetter c) :
    splitNumber ('0' :: x :: digits ++ letters) =
      some (.number (String.ofList ('0' :: x :: digits)) (valueIn 16 digits), letters) := by
  have hhead : ∀ c ∈ letters.head?, isHexDigit c = false := fun c hc =>
    not_isHexDigit_of_isSuffixLetter (hletters c (List.mem_of_mem_head? hc))
  obtain ⟨htake, hdrop⟩ := span_append hdigits hhead
  rcases hx with rfl | rfl <;> simp [splitNumber, htake, hdrop, hne]

theorem splitNumber_decimal {digits letters : List Char} (hne : digits ≠ [])
    (hdigits : ∀ c ∈ digits, c.isDigit) (hletters : ∀ c ∈ letters, isSuffixLetter c) :
    splitNumber (digits ++ letters) =
      some (.number (String.ofList digits) (valueIn 10 digits), letters) := by
  have hhead : ∀ c ∈ letters.head?, c.isDigit = false := fun c hc => by
    have hhex := not_isHexDigit_of_isSuffixLetter (hletters c (List.mem_of_mem_head? hc))
    simp only [isHexDigit, Bool.or_eq_false_iff] at hhex
    exact hhex.1.1
  obtain ⟨htake, hdrop⟩ := span_append hdigits hhead
  cases digits with
  | nil => exact absurd rfl hne
  | cons c digits =>
    have hc := hdigits c List.mem_cons_self
    have hmark : ∀ d ∈ (digits ++ letters).head?, d ≠ 'x' ∧ d ≠ 'X' := by
      intro d hd
      rcases List.mem_append.1 (List.mem_of_mem_head? hd) with hd | hd
      · have hdigit := hdigits d (List.mem_cons_of_mem c hd)
        constructor <;> rintro rfl <;> revert hdigit <;> decide
      · have hletter := hletters d hd
        constructor <;> rintro rfl <;> revert hletter <;> decide
    rw [List.cons_append] at htake hdrop ⊢
    rw [splitNumber, if_neg, if_pos hc, htake, hdrop]
    rintro ⟨_, hx | hx, _⟩
    · exact (hmark _ hx).1 rfl
    · exact (hmark _ hx).2 rfl

theorem exists_of_splitNumber {word rest : List Char} {e : Expression}
    (h : splitNumber word = some (e, rest)) :
    ∃ body, word = body ++ rest ∧ body ≠ [] ∧
      ∀ suffix, Suffix suffix → Spells .operand (body ++ suffix) e := by
  cases word with
  | nil => cases h
  | cons c cs =>
    rw [splitNumber] at h
    split at h
    · next hmark =>
      obtain ⟨rfl, hx, hne⟩ := hmark
      obtain ⟨rfl, rfl⟩ := Prod.mk.inj (Option.some.inj h)
      cases cs with
      | nil => simp at hx
      | cons x cs =>
        have hx' : x = 'x' ∨ x = 'X' := by simpa using hx
        refine ⟨'0' :: x :: cs.takeWhile isHexDigit, ?_, by simp, fun suffix hs => ?_⟩
        · simp [List.takeWhile_append_dropWhile]
        · exact .hexadecimal hx' hne (fun d hd => List.mem_takeWhile_imp hd) hs
    · split at h
      · next hc =>
        obtain ⟨rfl, rfl⟩ := Prod.mk.inj (Option.some.inj h)
        refine ⟨(c :: cs).takeWhile Char.isDigit, List.takeWhile_append_dropWhile.symm, ?_, ?_⟩
        · simp [hc]
        · exact fun suffix hs => .decimal (by simp [hc]) (fun d hd => List.mem_takeWhile_imp hd) hs
      · cases h

end Variability.Condition
