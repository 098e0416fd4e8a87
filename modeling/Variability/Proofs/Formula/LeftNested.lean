import Variability.Formula.Names
import Variability.Formula.Truth

/-!
Formulas as chains of operands. A maximal tree of one connective is the chain of its operands, which
can be nested to the left without a change of meaning.
-/

set_option autoImplicit false

namespace Variability

open Formula (Shape)

inductive Connective where
  | conj
  | disj
  deriving DecidableEq, Repr

namespace Connective

def join : Connective → Formula → Formula → Formula
  | .conj => .conj
  | .disj => .disj

def shape : Connective → Shape
  | .conj => .conj
  | .disj => .disj

def other : Connective → Connective
  | .conj => .disj
  | .disj => .conj

def sign : Connective → List Char
  | .conj => ['&', '&']
  | .disj => ['|', '|']

/-- The first operand with the others joined to it one after the other. -/
def nest (c : Connective) : List Formula → Formula
  | [] => .tru
  | f :: fs => fs.foldl c.join f

def combine : Connective → List Bool → Bool
  | .conj, bs => bs.all id
  | .disj, bs => bs.any id

theorem shape_join (c : Connective) (l r : Formula) : (c.join l r).shape = c.shape := by
  cases c <;> rfl

theorem shape_other_ne (c : Connective) : c.shape ≠ c.other.shape := by
  cases c <;> decide

theorem occurrences_join (c : Connective) (l r : Formula) :
    (c.join l r).occurrences = l.occurrences ++ r.occurrences := by
  cases c <;> rfl

theorem occurrences_foldl (c : Connective) (f : Formula) (fs : List Formula) :
    (fs.foldl c.join f).occurrences = f.occurrences ++ fs.flatMap Formula.occurrences := by
  induction fs generalizing f with
  | nil => simp
  | cons g fs ih => simp [ih, occurrences_join]

theorem eval_foldl (v : String → Bool) (c : Connective) (f : Formula) (fs : List Formula) :
    (fs.foldl c.join f).eval v = c.combine ((f :: fs).map (·.eval v)) := by
  induction fs generalizing f with
  | nil => cases c <;> simp [combine]
  | cons g fs ih =>
    rw [List.foldl_cons, ih]
    cases c <;> simp [combine, join, Formula.eval, Bool.and_assoc, Bool.or_assoc]

end Connective

namespace Formula

/-- Induction over trees of one connective, whose leaves are all other formulas. -/
theorem byTree {P : Formula → Prop} (c : Connective) (leaf : ∀ f : Formula, f.shape ≠ c.shape → P f)
    (node : ∀ l r, P l → P r → P (c.join l r)) (f : Formula) : P f := by
  induction f with
  | conj l r hl hr =>
    cases c with
    | conj => exact node l r hl hr
    | disj => exact leaf _ (by simp [shape, Connective.shape])
  | disj l r hl hr =>
    cases c with
    | conj => exact leaf _ (by simp [shape, Connective.shape])
    | disj => exact node l r hl hr
  | _ => exact leaf _ (by cases c <;> simp [shape, Connective.shape])

/-- The operands of a tree of one connective from left to right; any other formula is its own only
operand. -/
def operands (c : Connective) : Formula → List Formula
  | .conj l r => if c = .conj then operands c l ++ operands c r else [.conj l r]
  | .disj l r => if c = .disj then operands c l ++ operands c r else [.disj l r]
  | f => [f]

theorem operands_leaf {c : Connective} {f : Formula} (h : f.shape ≠ c.shape) :
    f.operands c = [f] := by
  cases f <;> cases c <;> simp_all [operands, shape, Connective.shape]

theorem operands_join (c : Connective) (l r : Formula) :
    (c.join l r).operands c = l.operands c ++ r.operands c := by
  cases c <;> simp [Connective.join, operands]

theorem exists_operands (c : Connective) (f : Formula) :
    ∃ first more, f.operands c = first :: more := by
  induction f using byTree c with
  | leaf f h => exact ⟨f, [], operands_leaf h⟩
  | node l r hl _ =>
    obtain ⟨first, more, hl⟩ := hl
    exact ⟨first, more ++ r.operands c, by rw [operands_join, hl, List.cons_append]⟩

theorem shape_of_mem_operands {c : Connective} {f g : Formula} (h : g ∈ f.operands c) :
    g.shape ≠ c.shape := by
  induction f using byTree c with
  | leaf f hf =>
    rw [operands_leaf hf, List.mem_singleton] at h
    exact h ▸ hf
  | node l r hl hr =>
    rw [operands_join] at h
    exact (List.mem_append.1 h).elim hl hr

theorem sizeOf_join (c : Connective) (l r : Formula) :
    sizeOf (c.join l r) = 1 + sizeOf l + sizeOf r := by
  cases c <;> rfl

theorem sizeOf_le_of_mem_operands {c : Connective} {f g : Formula} (h : g ∈ f.operands c) :
    sizeOf g ≤ sizeOf f := by
  induction f using byTree c with
  | leaf f hf =>
    rw [operands_leaf hf, List.mem_singleton] at h
    exact Nat.le_of_eq (congrArg sizeOf h)
  | node l r hl hr =>
    rw [operands_join] at h
    rw [sizeOf_join]
    rcases List.mem_append.1 h with h | h
    · have := hl h
      omega
    · have := hr h
      omega

theorem sizeOf_lt_of_mem_operands {c : Connective} {l r g : Formula}
    (h : g ∈ (c.join l r).operands c) : sizeOf g < sizeOf (c.join l r) := by
  rw [operands_join] at h
  rw [sizeOf_join]
  rcases List.mem_append.1 h with h | h <;> have := sizeOf_le_of_mem_operands h <;> omega

theorem occurrences_operands (c : Connective) (f : Formula) :
    (f.operands c).flatMap occurrences = f.occurrences := by
  induction f using byTree c with
  | leaf f h => simp [operands_leaf h]
  | node l r hl hr => rw [operands_join, List.flatMap_append, hl, hr, c.occurrences_join]

theorem combine_operands (v : String → Bool) (c : Connective) (f : Formula) :
    c.combine ((f.operands c).map (·.eval v)) = f.eval v := by
  induction f using byTree c with
  | leaf f h => cases c <;> simp [operands_leaf h, Connective.combine]
  | node l r hl hr =>
    rw [operands_join]
    cases c <;> simp_all [Connective.combine, Connective.join, eval]

/-- Induction over maximal trees: one of a connective follows from all of its operands. -/
theorem byOperands {P : Formula → Prop} (tru : P .tru) (fls : P .fls) (var : ∀ name, P (.var name))
    (neg : ∀ f, P f → P (.neg f))
    (tree : ∀ (c : Connective) (l r : Formula),
      (∀ g ∈ (c.join l r).operands c, P g) → P (c.join l r)) (f : Formula) : P f :=
  match f with
  | .tru => tru
  | .fls => fls
  | .var name => var name
  | .neg f => neg f (byOperands tru fls var neg tree f)
  | .conj l r => tree .conj l r fun g _ => byOperands tru fls var neg tree g
  | .disj l r => tree .disj l r fun g _ => byOperands tru fls var neg tree g
termination_by sizeOf f
decreasing_by
  · simp
  · exact sizeOf_lt_of_mem_operands (c := .conj) ‹_›
  · exact sizeOf_lt_of_mem_operands (c := .disj) ‹_›

/-- Each maximal tree of one connective is nested to the left, and a double negation is dropped. -/
def leftNested : Formula → Formula
  | .tru => .tru
  | .fls => .fls
  | .var name => .var name
  | .neg f => (leftNested f).negate
  | .conj l r => Connective.conj.nest (((conj l r).operands .conj).attach.map fun g => leftNested g.1)
  | .disj l r => Connective.disj.nest (((disj l r).operands .disj).attach.map fun g => leftNested g.1)
termination_by f => sizeOf f
decreasing_by
  · simp
  · exact sizeOf_lt_of_mem_operands (c := .conj) g.2
  · exact sizeOf_lt_of_mem_operands (c := .disj) g.2

theorem leftNested_join (c : Connective) (l r : Formula) :
    (c.join l r).leftNested = c.nest (((c.join l r).operands c).map leftNested) := by
  cases c <;> simp [Connective.join, leftNested]

theorem occurrences_leftNested (f : Formula) : f.leftNested.occurrences = f.occurrences := by
  induction f using byOperands with
  | tru | fls | var => simp [leftNested]
  | neg f ih => rw [leftNested, occurrences_negate, ih, occurrences]
  | tree c l r ih =>
    obtain ⟨first, more, hoperands⟩ := exists_operands c (c.join l r)
    have hsame : ∀ g ∈ first :: more, g.leftNested.occurrences = g.occurrences := by
      rwa [hoperands] at ih
    calc (c.join l r).leftNested.occurrences
        = ((first :: more).map leftNested).flatMap occurrences := by
          rw [leftNested_join, hoperands, List.map_cons, Connective.nest, c.occurrences_foldl,
            List.flatMap_cons]
      _ = (first :: more).flatMap occurrences := by
          rw [List.flatMap_map, List.flatMap_def, List.flatMap_def, List.map_congr_left hsame]
      _ = (c.join l r).occurrences := by rw [← hoperands, occurrences_operands]

theorem eval_leftNested (v : String → Bool) (f : Formula) : f.leftNested.eval v = f.eval v := by
  induction f using byOperands with
  | tru | fls | var => simp [leftNested]
  | neg f ih => rw [leftNested, eval_negate, ih, eval]
  | tree c l r ih =>
    obtain ⟨first, more, hoperands⟩ := exists_operands c (c.join l r)
    have hsame : ∀ g ∈ first :: more, g.leftNested.eval v = g.eval v := by
      rwa [hoperands] at ih
    calc (c.join l r).leftNested.eval v
        = c.combine (((first :: more).map leftNested).map (·.eval v)) := by
          rw [leftNested_join, hoperands, List.map_cons, Connective.nest, c.eval_foldl]
      _ = c.combine ((first :: more).map (·.eval v)) := by
          rw [List.map_map]
          exact congrArg c.combine (List.map_congr_left hsame)
      _ = (c.join l r).eval v := by rw [← hoperands, combine_operands]

def operandText (c : Connective) (f : Formula) : List Char :=
  (bracket (f.shape = c.other.shape) f.render).toList

def bodyText (f : Formula) : List Char :=
  (bracket (f.shape = .conj ∨ f.shape = .disj) f.render).toList

theorem toList_render_neg (f : Formula) : (neg f).render.toList = '!' :: f.bodyText := by
  simp [render, bodyText]

theorem operandText_join (c : Connective) (l r : Formula) :
    (c.join l r).operandText c = (c.join l r).render.toList := by
  simp [operandText, c.shape_join, c.shape_other_ne, bracket]

theorem toList_render_join (c : Connective) (l r : Formula) :
    (c.join l r).render.toList =
      l.operandText c ++ ' ' :: c.sign ++ ' ' :: r.operandText c := by
  cases c <;> simp [Connective.join, render, operandText, Connective.sign] <;> rfl

theorem operandText_operands {c : Connective} {f first : Formula} {more : List Formula}
    (h : f.operands c = first :: more) :
    f.operandText c =
      first.operandText c ++ more.flatMap fun g => ' ' :: c.sign ++ ' ' :: g.operandText c := by
  induction f using byTree c generalizing first more with
  | leaf f hf =>
    rw [operands_leaf hf] at h
    obtain ⟨rfl, rfl⟩ := List.cons.inj h
    simp
  | node l r hl hr =>
    obtain ⟨a, as, ha⟩ := exists_operands c l
    obtain ⟨b, bs, hb⟩ := exists_operands c r
    rw [operands_join, ha, hb, List.cons_append] at h
    obtain ⟨rfl, rfl⟩ := List.cons.inj h
    rw [operandText_join, toList_render_join, hl ha, hr hb]
    simp

end Formula
end Variability
