import Variability.Condition.Token

/-!
The room that the grammar has for calls within calls. Each parenthesis and each prefix that is open
holds calls back, so deeply nested conditions run out of it.
-/

set_option autoImplicit false

namespace Variability

namespace Condition

/-- The tokens behind which a condition goes on inside of another one. -/
def Token.nests : Token → Bool
  | .lparen | .not => true
  | .word letters => letters = "defined".toList
  | _ => false

def shallowNesting : Nat := 16

end Condition

/-- The parser of conditions, as far as its stack goes: the texts that it gives up because it runs
out of calls before it meets an error or the end. -/
class ParserStack where
  exhausts : List Char → Bool
  shallow : ∀ text : List Char,
    (Condition.Token.scan text).1.countP Condition.Token.nests ≤ Condition.shallowNesting →
      exhausts text = false

namespace ParserStack

variable [ParserStack]

theorem exhausts_of_length_le {text : List Char}
    (h : (Condition.Token.scan text).1.length ≤ Condition.shallowNesting) :
    exhausts text = false :=
  shallow text (Nat.le_trans List.countP_le_length h)

end ParserStack

namespace Condition

def callsPerParenthesis : Nat := 88

def callsPerPrefix : Nat := 16

/-- The calls that wait: up to each open parenthesis, the innermost one first, and in all. -/
structure Pending where
  parentheses : List Nat := []
  calls : Nat := 0

namespace Pending

def innermost : List Nat → Nat
  | [] => 0
  | calls :: _ => calls

theorem innermost_le {ns : List Nat} {bound : Nat} (h : ∀ n ∈ ns, n ≤ bound) :
    innermost ns ≤ bound := by
  cases ns with
  | nil => exact Nat.zero_le bound
  | cons n ns => exact h n List.mem_cons_self

def step (p : Pending) (t : Token) : Pending :=
  if t = .lparen then
    ⟨(p.calls + callsPerParenthesis) :: p.parentheses, p.calls + callsPerParenthesis⟩
  else if t.nests then ⟨p.parentheses, p.calls + callsPerPrefix⟩
  else if t = .rparen then ⟨p.parentheses.tail, innermost p.parentheses.tail⟩
  else ⟨p.parentheses, innermost p.parentheses⟩

def deepest : Pending → List Token → Nat
  | p, [] => p.calls
  | p, t :: ts => max p.calls (deepest (p.step t) ts)

structure Within (p : Pending) (bound : Nat) : Prop where
  calls : p.calls ≤ bound
  parentheses : ∀ n ∈ p.parentheses, n ≤ bound

theorem Within.step_nesting {p : Pending} {bound : Nat} (h : p.Within bound) {t : Token}
    (ht : t.nests) : (p.step t).Within (bound + callsPerParenthesis) := by
  have hcalls := h.calls
  have hprefix : callsPerPrefix ≤ callsPerParenthesis := by decide
  have hmore : ∀ n ∈ p.parentheses, n ≤ bound + callsPerParenthesis := fun n hn =>
    Nat.le_add_right_of_le (h.parentheses n hn)
  by_cases hopen : t = .lparen
  · have hnow : p.calls + callsPerParenthesis ≤ bound + callsPerParenthesis := by omega
    rw [step, if_pos hopen]
    exact ⟨hnow, List.forall_mem_cons.2 ⟨hnow, hmore⟩⟩
  · have hnow : p.calls + callsPerPrefix ≤ bound + callsPerParenthesis := by omega
    rw [step, if_neg hopen, if_pos ht]
    exact ⟨hnow, hmore⟩

theorem Within.step_flat {p : Pending} {bound : Nat} (h : p.Within bound) {t : Token}
    (ht : ¬t.nests) : (p.step t).Within bound := by
  have hopen : t ≠ .lparen := by
    rintro rfl
    exact ht rfl
  have htail : ∀ n ∈ p.parentheses.tail, n ≤ bound := fun n hn =>
    h.parentheses n (List.mem_of_mem_tail hn)
  rw [step, if_neg hopen, if_neg ht]
  split
  · exact ⟨innermost_le htail, htail⟩
  · exact ⟨innermost_le h.parentheses, h.parentheses⟩

/-- The induction is on the tokens; the bound grows with each one that nests. -/
theorem Within.deepest_le {p : Pending} {bound : Nat} (h : p.Within bound) (ts : List Token) :
    p.deepest ts ≤ bound + callsPerParenthesis * ts.countP Token.nests := by
  induction ts generalizing p bound with
  | nil => exact Nat.le_add_right_of_le h.calls
  | cons t ts ih =>
    have hcalls := h.calls
    rw [deepest]
    by_cases ht : t.nests
    · have hrest := ih (h.step_nesting ht)
      rw [List.countP_cons_of_pos ht, Nat.mul_succ]
      omega
    · have hrest := ih (h.step_flat ht)
      rw [List.countP_cons_of_neg ht]
      omega

end Pending

def deepestCalls (ts : List Token) : Nat := Pending.deepest {} ts

theorem deepestCalls_le (ts : List Token) :
    deepestCalls ts ≤ callsPerParenthesis * ts.countP Token.nests := by
  have hstart : Pending.Within {} 0 := ⟨Nat.le_refl 0, by simp⟩
  have hbound := hstart.deepest_le ts
  rwa [Nat.zero_add] at hbound

end Condition

namespace ParserStack

open Condition

@[reducible]
def ofRoom (room : Nat) (h : callsPerParenthesis * shallowNesting ≤ room) : ParserStack where
  exhausts text := room < deepestCalls (Token.scan text).1
  shallow text hshallow := by
    have hcalls := deepestCalls_le (Token.scan text).1
    have hbound := Nat.mul_le_mul_left callsPerParenthesis hshallow
    rw [decide_eq_false_iff_not]
    omega

instance : ParserStack := ofRoom 1000000 (by decide)

end ParserStack

end Variability
