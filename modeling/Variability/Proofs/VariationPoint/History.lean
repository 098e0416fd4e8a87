import Variability.Formula.Truth
import Variability.VariationPoint

/-!
The record that a counter keeps of its points. A counter is reached by counting new points one after
the other, so what it holds is read off how it was reached.
-/

set_option autoImplicit false

namespace Variability
namespace Formula

/-- A conjunction that takes over the predecessor as one of its operands. -/
def Inherits (predecessor : Option Formula) : Formula → Prop
  | .conj l r => some l = predecessor ∨ some r = predecessor
  | _ => False

instance (predecessor : Option Formula) (p : Formula) : Decidable (p.Inherits predecessor) := by
  cases p <;> unfold Inherits <;> infer_instance

variable {predecessor : Option Formula} {p : Formula}

theorem alternativeAfter_of_not_inherits (h : ¬ p.Inherits predecessor) :
    p.alternativeAfter predecessor = p.negate := by
  cases p with
  | conj l r =>
    obtain ⟨hl, hr⟩ := not_or.1 h
    rw [alternativeAfter, if_neg hl, if_neg hr]
    rfl
  | _ => rfl

theorem eval_alternativeAfter (v : String → Bool) (predecessor : Option Formula) (p : Formula) :
    (p.alternativeAfter predecessor).eval v =
      ((if p.Inherits predecessor then holds v predecessor else true) && !p.eval v) := by
  by_cases h : p.Inherits predecessor
  · cases p with
    | conj l r =>
      rw [if_pos h, alternativeAfter]
      by_cases hl : some l = predecessor
      · subst hl
        cases hv : l.eval v <;> simp [eval, holds, hv]
      · have hr : some r = predecessor := h.resolve_left hl
        subst hr
        rw [if_neg hl, if_pos rfl]
        cases hv : r.eval v <;> simp [eval, holds, hv]
    | _ => exact h.elim
  · rw [if_neg h, alternativeAfter_of_not_inherits h]
    simp

theorem holds_of_inherits {v : String → Bool} (h : p.Inherits predecessor) (hp : p.eval v) :
    holds v predecessor := by
  cases p with
  | conj l r =>
    obtain ⟨hl, hr⟩ := Bool.and_eq_true_iff.1 hp
    rcases h with rfl | rfl
    · exact hl
    · exact hr
  | _ => exact h.elim

theorem alternativeAfter_excludes (v : String → Bool) (predecessor : Option Formula) (p : Formula) :
    (p.eval v && (p.alternativeAfter predecessor).eval v) = false := by
  rw [eval_alternativeAfter]
  cases p.eval v <;> simp

theorem alternativeAfter_covers (v : String → Bool) (predecessor : Option Formula) (p : Formula) :
    (p.eval v || (p.alternativeAfter predecessor).eval v) =
      if p.Inherits predecessor then holds v predecessor else true := by
  rw [eval_alternativeAfter]
  by_cases h : p.Inherits predecessor
  · cases hp : p.eval v with
    | false => simp
    | true => simp [h, holds_of_inherits h hp]
  · simp [h]

end Formula

namespace PointCounter

variable {baseline p : Option Formula} {c : PointCounter}

/-- The baseline and all points, in the order in which they were counted. -/
def active (c : PointCounter) : List (Option Formula) := c.baseline :: c.points.reverse.map some

/-- The alternatives in the order of the points that left them. -/
def known (c : PointCounter) : List Formula := c.alternatives.reverse

def Recorded (c : PointCounter) (p : Option Formula) : Prop :=
  p = none ∨ p = c.last ∨ ∃ a ∈ c.known, p = some a

def push (c : PointCounter) (p : Formula) : PointCounter :=
  { c with
    points := p :: c.points
    alternatives := p.alternativeAfter c.last :: c.alternatives }

theorem mem_known {a : Formula} : a ∈ c.known ↔ a ∈ c.alternatives := List.mem_reverse

theorem recorded_some {p : Formula} : c.Recorded (some p) ↔ some p = c.last ∨ p ∈ c.alternatives := by
  simp [Recorded, mem_known]

theorem add_recorded (h : c.Recorded p) : c.add p = c := by
  cases p with
  | none => rfl
  | some p => exact if_pos (recorded_some.1 h)

theorem add_new {p : Formula} (h : ¬ c.Recorded (some p)) : c.add (some p) = c.push p :=
  if_neg (mt recorded_some.2 h)

theorem addAll_concat (c : PointCounter) (ps : List (Option Formula)) (p : Option Formula) :
    c.addAll (ps ++ [p]) = (c.addAll ps).add p := List.foldl_append

@[simp] theorem active_push (c : PointCounter) (p : Formula) :
    (c.push p).active = c.active ++ [some p] := by
  simp [active, push]

@[simp] theorem known_push (c : PointCounter) (p : Formula) :
    (c.push p).known = c.known ++ [p.alternativeAfter c.last] := by
  simp [known, push]

@[simp] theorem count_push (c : PointCounter) (p : Formula) : (c.push p).count = c.count + 1 := rfl

@[simp] theorem length_active (c : PointCounter) : c.active.length = c.count + 1 := by
  simp [active, count]

theorem getLast?_active (c : PointCounter) : c.active.getLast? = some c.last := by
  obtain ⟨baseline, points, alternatives⟩ := c
  cases points with
  | nil => rfl
  | cons p points =>
    have hactive : (PointCounter.mk baseline (p :: points) alternatives).active =
        baseline :: points.reverse.map some ++ [some p] := by simp [active]
    rw [hactive, List.getLast?_concat]
    rfl

/-- Counters that have taken only new points since their start. -/
inductive Reached (baseline : Option Formula) : PointCounter → Prop where
  | start : Reached baseline ⟨baseline, [], []⟩
  | push {c : PointCounter} (before : Reached baseline c) (p : Formula) (new : ¬ c.Recorded (some p)) :
      Reached baseline (c.push p)

theorem Reached.add (h : Reached baseline c) (p : Option Formula) : Reached baseline (c.add p) := by
  by_cases hp : c.Recorded p
  · rwa [add_recorded hp]
  · cases p with
    | none => exact absurd (.inl rfl) hp
    | some p =>
      rw [add_new hp]
      exact h.push p hp

theorem Reached.addAll (h : Reached baseline c) (ps : List (Option Formula)) :
    Reached baseline (c.addAll ps) := by
  induction ps generalizing c with
  | nil => exact h
  | cons p ps ih => exact ih (h.add p)

namespace Reached

theorem head?_active (h : Reached baseline c) : c.active.head? = some baseline := by
  induction h with
  | start => rfl
  | push before p new ih => exact ih

theorem length_known (h : Reached baseline c) : c.known.length = c.count := by
  induction h with
  | start => rfl
  | push before p new ih => simp [ih]

/-- The points of a counter, added one by one, are all new again. -/
theorem addAll_tail_active (h : Reached baseline c) :
    PointCounter.addAll ⟨baseline, [], []⟩ c.active.tail = c := by
  induction h with
  | start => rfl
  | @push c before p new ih =>
    have htail : (c.push p).active.tail = c.active.tail ++ [some p] := by
      simp [active, PointCounter.push]
    rw [htail, addAll_concat, ih, add_new new]

end Reached

/-- The point with number `i`: the condition before it, the point, and the alternative that it left. -/
structure PointAt (c : PointCounter) (i : Nat) (before : Option Formula) (p a : Formula) : Prop where
  preceded : c.active[i]? = some before
  point : c.active[i + 1]? = some (some p)
  alternative : c.known[i]? = some a
  changes : some p ≠ before
  new : p ∉ c.known.take i
  derived : a = p.alternativeAfter before

theorem PointAt.push {i : Nat} {before : Option Formula} {p a : Formula}
    (h : c.PointAt i before p a) (q : Formula) : (c.push q).PointAt i before p a := by
  obtain ⟨hpoint, -⟩ := List.getElem?_eq_some_iff.1 h.point
  obtain ⟨hknown, -⟩ := List.getElem?_eq_some_iff.1 h.alternative
  refine ⟨?_, ?_, ?_, h.changes, ?_, h.derived⟩
  · rw [active_push, List.getElem?_append_left (Nat.lt_of_succ_lt hpoint), h.preceded]
  · rw [active_push, List.getElem?_append_left hpoint, h.point]
  · rw [known_push, List.getElem?_append_left hknown, h.alternative]
  · rw [known_push, List.take_append_of_le_length (Nat.le_of_lt hknown)]
    exact h.new

theorem Reached.pointAt_last (h : Reached baseline c) {p : Formula} (new : ¬ c.Recorded (some p)) :
    (c.push p).PointAt c.count c.last p (p.alternativeAfter c.last) := by
  obtain ⟨hlast, hmem⟩ := not_or.1 (mt recorded_some.2 new)
  have hactive : c.active[c.count]? = some c.last := by
    rw [← getLast?_active, List.getLast?_eq_getElem?, length_active, Nat.add_sub_cancel]
  have hlength := h.length_known
  refine ⟨?_, ?_, ?_, hlast, ?_, rfl⟩
  · rw [active_push, List.getElem?_append_left (by simp), hactive]
  · rw [active_push, ← length_active, List.getElem?_concat_length]
  · rw [known_push, ← hlength, List.getElem?_concat_length]
  · rw [known_push, ← hlength, List.take_left]
    exact mt mem_known.1 hmem

theorem Reached.exists_pointAt (h : Reached baseline c) :
    ∀ i < c.count, ∃ before p a, c.PointAt i before p a := by
  induction h with
  | start => exact fun i hi => absurd hi (Nat.not_lt_zero i)
  | @push c before p new ih =>
    intro i hi
    rcases Nat.lt_succ_iff_lt_or_eq.1 hi with hi | rfl
    · obtain ⟨b, q, a, hq⟩ := ih i hi
      exact ⟨b, q, a, hq.push p⟩
    · exact ⟨_, p, _, before.pointAt_last new⟩

/-- What a counter has on record after any conditions. -/
theorem record_exact (baseline : Option Formula) (ps : List (Option Formula)) :
    let c := addAll ⟨baseline, [], []⟩ ps
    (c.active.head? = some baseline ∧ c.active.getLast? = some c.last) ∧
    (c.count = c.active.length - 1 ∧ c.count = c.known.length) ∧
    (∀ i < c.count, ∃ before p a, c.PointAt i before p a ∧
      ∀ v, (p.eval v && a.eval v) = false ∧
        (p.eval v || a.eval v) = if p.Inherits before then Formula.holds v before else true) ∧
    (∀ p, c.Recorded p → c.add p = c) ∧
    (∀ p, ¬ c.Recorded p → (c.add p).count = c.count + 1 ∧ (c.add p).active = c.active ++ [p]) ∧
    addAll ⟨baseline, [], []⟩ c.active.tail = c := by
  intro c
  have h : Reached baseline c := Reached.start.addAll ps
  refine ⟨⟨h.head?_active, getLast?_active c⟩, ⟨by simp, h.length_known.symm⟩, fun i hi => ?_,
    fun p => add_recorded, fun p hp => ?_, h.addAll_tail_active⟩
  · obtain ⟨before, p, a, hpoint⟩ := h.exists_pointAt i hi
    refine ⟨before, p, a, hpoint, fun v => ?_⟩
    rw [hpoint.derived]
    exact ⟨Formula.alternativeAfter_excludes v before p, Formula.alternativeAfter_covers v before p⟩
  · cases p with
    | none => exact absurd (.inl rfl) hp
    | some p => rw [add_new hp]; exact ⟨count_push c p, active_push c p⟩

-- the third condition repeats an alternative, the fourth one the last point
example :
    let a := Formula.var "A"
    let ab := Formula.conj a (.var "B")
    (addAll ⟨some .tru, [], []⟩ [some a, some ab, some (.neg a), some ab]).active =
      [some .tru, some a, some ab] := by
  decide

end PointCounter
end Variability
