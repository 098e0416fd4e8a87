import Mathlib
import Variability.Number.Double
import Variability.Scattering.Statistics

/-!
Doubles that hold natural numbers exactly. Below `2 ^ 53` no bit of a number has to be dropped.
-/

set_option autoImplicit false

namespace Variability.Double

/-- The unit is a power of two; its exponent is only used by name, so that nothing evaluates it. -/
theorem exists_one_eq : ∃ e, one = Nat.pow 2 e := ⟨_, one.eq_1⟩

theorem one_pos : 0 < one := by
  obtain ⟨e, he⟩ := exists_one_eq
  rw [he]
  exact Nat.two_pow_pos e

theorem two_pow_le {d e : Nat} (h : d ≤ e) : Nat.pow 2 d ≤ Nat.pow 2 e :=
  Nat.pow_le_pow_right (by decide) h

theorem lt_limit {n : Nat} (h : n < 2 ^ precision) : n < Nat.pow 2 1024 :=
  Nat.lt_of_lt_of_le h (two_pow_le (by decide))

theorem ofQuotient_exact (negative : Bool) {units : Nat}
    (hdropped : Nat.pow 2 (droppedBits units) ∣ units) (hfinite : units < Nat.pow 2 1024 * one) :
    ofQuotient negative units 1 = .finite negative units := by
  have hpos : 0 < Nat.pow 2 (droppedBits units) := Nat.two_pow_pos _
  have hround : roundDiv units (1 * Nat.pow 2 (droppedBits (units / 1))) *
      Nat.pow 2 (droppedBits (units / 1)) = units := by
    rw [Nat.div_one, Nat.one_mul]
    generalize Nat.pow 2 (droppedBits units) = d at hdropped hpos
    obtain ⟨q, rfl⟩ := hdropped
    rw [Nat.mul_comm d q, roundDiv_mul hpos]
  simp only [ofQuotient, hround]
  exact if_pos hfinite

/-- What is dropped of a number below the bound are zeros. -/
theorem droppedBits_mul_two_pow {n : Nat} (h : n < 2 ^ precision) (e : Nat) :
    droppedBits (n * 2 ^ e) ≤ e := by
  have hlog : (n * 2 ^ e).log2 < e + precision := by
    by_cases hn : n = 0
    · subst hn
      rw [Nat.zero_mul, Nat.log2_zero]
      exact Nat.lt_add_left e (by decide)
    · refine (Nat.log2_lt (Nat.mul_ne_zero hn (Nat.two_pow_pos e).ne')).2 ?_
      rw [Nat.add_comm, Nat.pow_add]
      exact Nat.mul_lt_mul_of_pos_right h (Nat.two_pow_pos e)
  unfold droppedBits
  omega

theorem ofQuotient_mul_one (negative : Bool) {n : Nat} (h : n < 2 ^ precision) :
    ofQuotient negative (n * one) 1 = .finite negative (n * one) := by
  have hdropped : Nat.pow 2 (droppedBits (n * one)) ∣ one := by
    obtain ⟨e, he⟩ := exists_one_eq
    rw [he]
    exact Nat.pow_dvd_pow 2 (droppedBits_mul_two_pow h e)
  exact ofQuotient_exact negative (hdropped.mul_left n)
    (Nat.mul_lt_mul_of_pos_right (lt_limit h) one_pos)

theorem ofInt_natCast {n : Nat} (h : n < 2 ^ precision) : ofInt n = .finite false (n * one) := by
  have hsign : decide ((n : Int) < 0) = false := by simp
  rw [ofInt, hsign, Int.natAbs_natCast, ofQuotient_mul_one false h]

theorem inRange?_eq_some {x y : Double} (h : x.inRange? = some y) : y = x := by
  cases x with
  | infinite s => cases h
  | finite s u => exact (Option.some.inj h).symm
  | nan => exact (Option.some.inj h).symm

theorem ofInt?_eq_some {n : Int} {x : Double} (h : ofInt? n = some x) : x = ofInt n :=
  inRange?_eq_some h

theorem ofInt?_natCast {n : Nat} (h : n < 2 ^ precision) : ofInt? n = some (ofInt n) := by
  rw [ofInt?, ofInt_natCast h, inRange?_finite]

theorem ofInt_zero : ofInt (0 : Nat) = zero := by
  rw [ofInt_natCast (Nat.two_pow_pos precision), Nat.zero_mul, zero]

theorem add_finite (u v : Nat) :
    (finite false u).add (finite false v) =
      if u + v = 0 then finite false 0 else ofQuotient false (u + v) 1 := by
  have htotal : signed false u + signed false v = (u + v : Nat) := by simp [signed]
  have hsign : decide (((u + v : Nat) : Int) < 0) = false :=
    decide_eq_false (Int.not_lt.2 (Int.natCast_nonneg _))
  simp only [add, htotal, hsign, Int.natAbs_natCast, Int.natCast_eq_zero, Bool.and_self]

theorem add_natCast {m n : Nat} (h : m + n < 2 ^ precision) :
    (ofInt m).add (ofInt n) = ofInt (m + n : Nat) := by
  have hm : m < 2 ^ precision := Nat.lt_of_le_of_lt (Nat.le_add_right m n) h
  have hn : n < 2 ^ precision := Nat.lt_of_le_of_lt (Nat.le_add_left n m) h
  have hquotient := ofQuotient_mul_one false h
  rw [ofInt_natCast hm, ofInt_natCast hn, ofInt_natCast h, add_finite, ← Nat.add_mul]
  generalize (m + n) * one = total at hquotient ⊢
  split
  · next hzero => rw [hzero]
  · exact hquotient

/-- Adding numbers from left to right is exact as long as the sum stays below the bound. -/
theorem sumOf_natCast {ns : List Nat} (h : ns.sum < 2 ^ precision) :
    sumOf (ns.map fun n : Nat => ofInt n) = ofInt ns.sum := by
  suffices hfrom : ∀ m : Nat, m + ns.sum < 2 ^ precision →
      (ns.map fun n : Nat => ofInt n).foldl add (ofInt m) = ofInt (m + ns.sum : Nat) by
    have hstart := hfrom 0 (by rwa [Nat.zero_add])
    rw [Nat.zero_add, ofInt_zero] at hstart
    exact hstart
  clear h
  induction ns with
  | nil =>
    intro m _
    rw [List.map_nil, List.foldl_nil, List.sum_nil, Nat.add_zero]
  | cons n ns ih =>
    intro m hm
    rw [List.sum_cons, ← Nat.add_assoc] at hm ⊢
    have hstep : m + n < 2 ^ precision := Nat.lt_of_le_of_lt (Nat.le_add_right _ _) hm
    rw [List.map_cons, List.foldl_cons, add_natCast hstep, ih (m + n) hm]

end Variability.Double
