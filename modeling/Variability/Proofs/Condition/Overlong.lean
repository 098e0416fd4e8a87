import Variability.Proofs.Condition.Soundness

set_option autoImplicit false

namespace Variability.Condition

theorem prefix_of_mem_wordNumeral {word : List Char} {n : String} (h : n ∈ wordNumeral word) :
    n.toList <+: word := by
  unfold wordNumeral at h
  split at h
  · next spelling value rest hsplit =>
    obtain rfl := List.mem_singleton.1 h
    cases word with
    | nil => cases hsplit
    | cons c cs =>
      rw [splitNumber] at hsplit
      split at hsplit
      · obtain ⟨hnumber, _⟩ := Prod.mk.inj (Option.some.inj hsplit)
        obtain ⟨rfl, _⟩ := Expression.number.inj hnumber
        have hdigits := List.takeWhile_prefix isHexDigit (l := cs.drop 1)
        rw [String.toList_ofList, List.cons_append, List.cons_prefix_cons]
        refine ⟨rfl, ?_⟩
        conv => rhs; rw [← List.take_append_drop 1 cs]
        exact (List.prefix_append_right_inj _).2 hdigits
      · split at hsplit
        · obtain ⟨hnumber, _⟩ := Prod.mk.inj (Option.some.inj hsplit)
          obtain ⟨rfl, _⟩ := Expression.number.inj hnumber
          rw [String.toList_ofList]
          exact List.takeWhile_prefix _
        · cases hsplit
  · cases h

/-- The numbers that are evaluated for the tokens of a text stand in it. -/
def Found (nums : Numerals) : Prop :=
  ∀ ⦃cs left ts n⦄, Token.scan cs = (ts, left) → n ∈ nums ts → n.toList <:+: cs

theorem infix_behind {n cs : List Char} (h : n <:+: cs) (before : List Char) :
    n <:+: before ++ cs :=
  h.trans (List.suffix_append before cs).isInfix

theorem found_operandNumerals {inner : Numerals} (h : Found inner) :
    Found (operandNumerals inner) := by
  intro cs left ts n hscan hn
  unfold operandNumerals at hn
  split at hn
  · obtain ⟨gap, rest, rfl, _, hrest⟩ := front_lparen hscan
    exact infix_behind (infix_behind (h hrest hn) ['(']) gap
  · next word ts =>
    obtain ⟨gap, rest, rfl, _⟩ := front_word hscan
    have hword := (prefix_of_mem_wordNumeral hn).trans (List.prefix_append word rest)
    exact infix_behind hword.isInfix gap
  · cases hn

theorem found_definedNumerals {inner : Numerals} (h : Found inner) (read : Reader Expression) :
    Found (definedNumerals read inner) := by
  intro cs left ts n hscan hn
  induction ts generalizing cs with
  | nil => cases hn
  | cons t ts ih =>
    rw [definedNumerals] at hn
    split at hn
    · next ht =>
      obtain ⟨rfl, _⟩ := ht
      obtain ⟨gap, rest, rfl, _, _, _, hrest⟩ := front_word hscan
      exact infix_behind (infix_behind (ih hrest hn) _) gap
    · exact found_operandNumerals h hscan hn

theorem found_unaryNumerals {inner : Numerals} (h : Found inner) (read : Reader Expression) :
    Found (unaryNumerals read inner) := by
  intro cs left ts n hscan hn
  induction ts generalizing cs with
  | nil => cases hn
  | cons t ts ih =>
    rw [unaryNumerals] at hn
    split at hn
    · next ht =>
      obtain ⟨rfl, _⟩ := ht
      obtain ⟨gap, rest, rfl, _, _, hrest⟩ := front_not hscan
      exact infix_behind (infix_behind (ih hrest hn) ['!']) gap
    · exact found_definedNumerals h read hscan hn

section

variable {level : Level} {read : Reader Expression} {inner : Numerals} {join : Join}

theorem found_laterNumerals (hread : Sound level read) (h : Found inner) (fuel : Nat) :
    Found (laterNumerals join.joins read inner fuel) := by
  intro cs left ts n hscan hn
  induction fuel generalizing cs ts with
  | zero => cases hn
  | succ fuel ih =>
    cases ts with
    | nil => cases hn
    | cons t ts =>
      rw [laterNumerals] at hn
      split at hn
      · next hjoins =>
        obtain ⟨gap, symbol, rest, rfl, _, _, _, hrest⟩ :=
          front_symbol hscan (isSymbol_of_joins hjoins)
        refine infix_behind (infix_behind ?_ symbol) gap
        rcases List.mem_append.1 hn with hn | hn
        · exact h hrest hn
        · split at hn
          · next e ts' hoperand =>
            obtain ⟨gap', body, after, rfl, _, _, hafter⟩ := hread hrest hoperand
            exact infix_behind (infix_behind (ih hafter hn) body) gap'
          · cases hn
      · cases hn

theorem found_chainNumerals (hread : Sound level read) (h : Found inner) :
    Found (chainNumerals join.joins read inner) := by
  intro cs left ts n hscan hn
  unfold chainNumerals at hn
  split at hn
  · next e t ts' hfirst =>
    split at hn
    · rcases List.mem_append.1 hn with hn | hn
      · exact h hscan hn
      · obtain ⟨gap, body, after, rfl, _, _, hafter⟩ := hread hscan hfirst
        exact infix_behind (infix_behind (found_laterNumerals hread h _ hafter hn) body) gap
    · exact h hscan hn
  · exact h hscan hn

end

theorem found_numerals (depth : Nat) : Found (numerals depth) := by
  induction depth with
  | zero =>
    intro cs left ts n _ hn
    cases hn
  | succ depth ih =>
    have hjoin : ∀ join : Join, Found (join.below.numerals depth) →
        Found ((Level.join join).numerals depth) := by
      intro join hbelow
      rw [Level.numerals_join]
      exact found_chainNumerals (sound_reader depth join.below) hbelow
    have hoperands : Found (Level.not.numerals depth) := found_unaryNumerals ih _
    have hsums := hjoin .arithmetic hoperands
    have hcomparisons := hjoin .comparison hsums
    have hconjunctions := hjoin .conjunction hcomparisons
    exact hjoin .disjunction hconjunctions

theorem exists_of_hasOverlong {text : List Char} (h : hasOverlong (Token.scan text).1) :
    ∃ n, isOverlong n ∧ n.toList <:+: text := by
  obtain ⟨n, hn, hlong⟩ := List.any_eq_true.1 h
  exact ⟨n, hlong, found_numerals _ rfl hn⟩

end Variability.Condition
