import Mathlib
import Variability.Code.Document
import Variability.Metric.Points
import Variability.Proofs.Code.Chain

/-!
The variation points of a function, chain by chain. A later branch counts as the alternative that
the first one left, so it is only a point where that alternative is not on record.
-/

set_option autoImplicit false

namespace Variability
namespace PointCounter

variable {c d e : PointCounter} {parent alternative : Option Formula}

structure Grows (c d : PointCounter) : Prop where
  count_le : c.count ≤ d.count
  alternatives : ∀ a ∈ c.alternatives, a ∈ d.alternatives
  eq_of_count : d.count = c.count → d = c

theorem Grows.refl (c : PointCounter) : c.Grows c := ⟨Nat.le_refl _, fun _ => id, fun _ => rfl⟩

theorem Grows.trans (h : c.Grows d) (h' : d.Grows e) : c.Grows e where
  count_le := Nat.le_trans h.count_le h'.count_le
  alternatives a ha := h'.alternatives a (h.alternatives a ha)
  eq_of_count hcount := by
    have hcd : d.count = c.count := by
      have := h.count_le
      have := h'.count_le
      omega
    have hde : e.count = d.count := by omega
    rw [h'.eq_of_count hde, h.eq_of_count hcd]

/-- A condition changes nothing, or it becomes the last point and leaves an alternative. -/
theorem add_cases (c : PointCounter) (p : Option Formula) :
    c.add p = c ∨ (c.add p).count = c.count + 1 ∧ (c.add p).last = p ∧
      ∃ a, (c.add p).alternatives = a :: c.alternatives := by
  cases p with
  | none => exact .inl rfl
  | some f =>
    by_cases hold : some f = c.last ∨ f ∈ c.alternatives
    · exact .inl (if_pos hold)
    · refine .inr ?_
      rw [show c.add (some f) = _ from if_neg hold]
      exact ⟨by simp [count], by simp [last], _, rfl⟩

theorem grows_add (c : PointCounter) (p : Option Formula) : c.Grows (c.add p) := by
  rcases c.add_cases p with hsame | ⟨hcount, -, a, halternatives⟩
  · exact hsame.symm ▸ .refl c
  · exact ⟨by omega, fun b hb => halternatives ▸ List.mem_cons_of_mem a hb, fun h => by omega⟩

theorem add_add (c : PointCounter) (p : Option Formula) : (c.add p).add p = c.add p := by
  rcases c.add_cases p with hsame | ⟨-, hlast, -⟩
  · rw [hsame, hsame]
  · have hrepeated := (c.add p).add_last
    rwa [hlast] at hrepeated

/-- Takes a block itself. Gives also what the later branches of its chain count as. -/
def enter (c : PointCounter) (parent alternative : Option Formula) (b : Code.Block) :
    PointCounter × Option Formula :=
  if b.branch = .first then c.addFirst parent b else (c.add alternative, alternative)

theorem addBlocks_block (c : PointCounter) (parent alternative : Option Formula) (b : Code.Block)
    (children next : Code.Forest) :
    c.addBlocks parent alternative (.block b children next) =
      ((c.enter parent alternative b).1.addBlocks b.presence none children).addBlocks parent
        (c.enter parent alternative b).2 next := rfl

theorem enter_first {b : Code.Block} (h : b.branch = .first) (c : PointCounter)
    (parent alternative : Option Formula) :
    (c.enter parent alternative b).1 = c.add b.presence := by
  rw [enter, if_pos h, addFirst]

theorem enter_later {b : Code.Block} (h : b.branch ≠ .first) (c : PointCounter)
    (parent alternative : Option Formula) :
    c.enter parent alternative b = (c.add alternative, alternative) := if_neg h

theorem grows_enter (c : PointCounter) (parent alternative : Option Formula) (b : Code.Block) :
    c.Grows (c.enter parent alternative b).1 := by
  by_cases h : b.branch = .first
  · rw [enter_first h]
    exact c.grows_add _
  · rw [enter_later h]
    exact c.grows_add _

theorem count_enter_le (c : PointCounter) (parent alternative : Option Formula) (b : Code.Block) :
    (c.enter parent alternative b).1.count ≤ c.count + 1 := by
  by_cases h : b.branch = .first
  · rw [enter_first h]
    exact c.count_add_le _
  · rw [enter_later h]
    exact c.count_add_le _

theorem enter_new {b : Code.Block} (h : b.branch = .first)
    (hnew : c.count < (c.enter parent alternative b).1.count) :
    ∃ a ∈ (c.enter parent alternative b).2, a ∈ (c.enter parent alternative b).1.alternatives := by
  have henter : c.enter parent alternative b = (c.add b.presence, (c.add b.presence).alternatives.head?) := by
    rw [enter_first h] at hnew
    simp only [enter, h, if_true, addFirst, hnew]
  rw [enter_first h] at hnew
  rw [henter]
  rcases c.add_cases b.presence with hsame | ⟨-, -, a, halternatives⟩
  · rw [hsame] at hnew
    exact absurd hnew (Nat.lt_irrefl _)
  · exact ⟨a, by simp [halternatives], by simp [halternatives]⟩

theorem grows_addBlocks (c : PointCounter) (parent alternative : Option Formula) (f : Code.Forest) :
    c.Grows (c.addBlocks parent alternative f) := by
  induction f generalizing c parent alternative with
  | nil => exact .refl c
  | block b children next hchildren hnext =>
    rw [addBlocks_block]
    exact (c.grows_enter parent alternative b).trans ((hchildren _ _ _).trans (hnext _ _ _))

structure Visit where
  block : Code.Block
  isNew : Bool
  /-- it is a later branch with new points nested in it, and the alternative of its chain is not on
  record -/
  reopens : Bool

def newPoints (chain : List Visit) : Nat := chain.countP (·.isNew)

def firsts (chain : List Visit) : Nat := chain.countP (·.block.branch = .first)

def reopened (chain : List Visit) : Nat := chain.countP (·.reopens)

def visit (c : PointCounter) (parent alternative : Option Formula) (b : Code.Block)
    (children : Code.Forest) : Visit :=
  let (d, alternative) := c.enter parent alternative b
  let e := d.addBlocks b.presence none children
  { block := b
    isNew := c.count < d.count
    reopens := b.branch ≠ .first && d.count < e.count && alternative.any (· ∉ e.alternatives) }

def ended : List Visit → List (List Visit)
  | [] => []
  | v :: vs => [v :: vs]

/-- The chains of a level and all that is nested in it, as they are walked. The first one goes on with
the branches in `chain`. -/
def chains (c : PointCounter) (parent alternative : Option Formula) (chain : List Visit) :
    Code.Forest → List (List Visit)
  | .nil => ended chain
  | .block b children next =>
    let (d, other) := c.enter parent alternative b
    (if b.branch = .first then ended chain else []) ++ d.chains b.presence none [] children ++
      (d.addBlocks b.presence none children).chains parent other
        ((if b.branch = .first then [] else chain) ++ [c.visit parent alternative b children]) next

variable {chain : List Visit}

theorem mem_ended {vs : List Visit} : vs ∈ ended chain ↔ vs = chain ∧ chain ≠ [] := by
  cases chain with
  | nil => simp [ended]
  | cons v vs => simp [ended]

theorem map_block_ended (around : Option Code.Block) (chain : List Visit) :
    (ended chain).map (·.map Visit.block) =
      (Code.Forest.ended around (chain.map Visit.block)).map Code.Chain.branches := by
  cases chain <;> rfl

theorem map_block_chains (around : Option Code.Block) (c : PointCounter)
    (parent alternative : Option Formula) (chain : List Visit) (f : Code.Forest) :
    (c.chains parent alternative chain f).map (·.map Visit.block) =
      (f.chains around (chain.map Visit.block)).map Code.Chain.branches := by
  induction f generalizing around c parent alternative chain with
  | nil => exact map_block_ended around chain
  | block b children next hchildren hnext =>
    have hblock : (c.visit parent alternative b children).block = b := rfl
    simp only [chains, Code.Forest.chains, List.map_append, hchildren (some b), hnext around,
      Code.Branch.earlier]
    by_cases hb : b.branch = .first <;> simp [hb, hblock, map_block_ended around]

theorem newPoints_visit (c : PointCounter) (parent alternative : Option Formula) (b : Code.Block)
    (children : Code.Forest) :
    newPoints [c.visit parent alternative b children] =
      (c.enter parent alternative b).1.count - c.count := by
  have hstep := c.count_enter_le parent alternative b
  by_cases hnew : c.count < (c.enter parent alternative b).1.count
  · simp [newPoints, visit, hnew]
    omega
  · simp [newPoints, visit, hnew]
    omega

theorem count_addBlocks (c : PointCounter) (parent alternative : Option Formula) (chain : List Visit)
    (f : Code.Forest) :
    (c.addBlocks parent alternative f).count + newPoints chain =
      c.count + ((c.chains parent alternative chain f).map newPoints).sum := by
  induction f generalizing c parent alternative chain with
  | nil => cases chain <;> simp [addBlocks, chains, ended, newPoints]
  | block b children next hchildren hnext =>
    have hle := (c.grows_enter parent alternative b).count_le
    have hvisit := newPoints_visit c parent alternative b children
    have hinside := hchildren (c.enter parent alternative b).1 b.presence none []
    have hbehind := hnext ((c.enter parent alternative b).1.addBlocks b.presence none children) parent
      (c.enter parent alternative b).2
      ((if b.branch = .first then [] else chain) ++ [c.visit parent alternative b children])
    have hsplit : newPoints ((if b.branch = .first then [] else chain) ++
          [c.visit parent alternative b children]) =
        newPoints (if b.branch = .first then [] else chain) +
          newPoints [c.visit parent alternative b children] := List.countP_append
    have hended : ((ended chain).map newPoints).sum = newPoints chain := by
      cases chain <;> simp [ended, newPoints]
    have hnil : newPoints [] = 0 := rfl
    rw [addBlocks_block, chains, List.map_append, List.map_append, List.sum_append, List.sum_append]
    by_cases hb : b.branch = .first <;> simp only [hb, if_true, if_false, hended, List.map_nil,
      List.sum_nil] at hsplit hbehind ⊢ <;> omega

/-- A chain that has been walked. -/
structure Walked (chain : List Visit) : Prop where
  firsts_le : firsts chain ≤ 1
  newPoints_le : newPoints chain ≤ firsts chain + reopened chain.dropLast
  of_new : ∀ v ∈ chain, v.block.branch = .first → v.isNew → newPoints chain = 1

/-- A chain before its next branch, which counts as the alternative. It is a new point only where the
chain has been opened by its first branch, or opened again. -/
structure Going (c : PointCounter) (alternative : Option Formula) (chain : List Visit) : Prop where
  walked : Walked chain
  next_le : newPoints chain + ((c.add alternative).count - c.count) ≤ firsts chain + reopened chain
  on_record : ∀ v ∈ chain, v.block.branch = .first → v.isNew → ∃ a ∈ alternative, a ∈ c.alternatives

theorem going_nil (c : PointCounter) : c.Going none [] where
  walked := ⟨Nat.zero_le _, Nat.le_refl _, by simp⟩
  next_le := by simp [newPoints, firsts, reopened]
  on_record := by simp

theorem isNew_visit {b : Code.Block} {children : Code.Forest}
    (h : (c.visit parent alternative b children).isNew) :
    c.count < (c.enter parent alternative b).1.count := by
  simpa [visit] using h

theorem add_on_record {p : Option Formula} (h : ∃ a ∈ p, a ∈ c.alternatives) : c.add p = c := by
  obtain ⟨a, rfl, ha⟩ := h
  exact add_alternative ha

theorem Grows.on_record {p : Option Formula} (h : c.Grows d) (hp : ∃ a ∈ p, a ∈ c.alternatives) :
    ∃ a ∈ p, a ∈ d.alternatives := by
  obtain ⟨a, ha, hmem⟩ := hp
  exact ⟨a, ha, h.alternatives a hmem⟩

theorem going_first {b : Code.Block} (hb : b.branch = .first) (c : PointCounter)
    (parent alternative : Option Formula) (children : Code.Forest) :
    ((c.enter parent alternative b).1.addBlocks b.presence none children).Going
      (c.enter parent alternative b).2 [c.visit parent alternative b children] := by
  have hnewPoints := newPoints_visit c parent alternative b children
  have hstep := c.count_enter_le parent alternative b
  have hfirsts : firsts [c.visit parent alternative b children] = 1 := by simp [firsts, visit, hb]
  have hgrows := (c.enter parent alternative b).1.grows_addBlocks b.presence none children
  have hrecord : c.count < (c.enter parent alternative b).1.count →
      ∃ a ∈ (c.enter parent alternative b).2,
        a ∈ ((c.enter parent alternative b).1.addBlocks b.presence none children).alternatives :=
    fun hnew => hgrows.on_record (enter_new hb hnew)
  have hisNew : ∀ v ∈ [c.visit parent alternative b children], v.isNew →
      c.count < (c.enter parent alternative b).1.count := fun v hv hnew => by
    rw [List.mem_singleton.1 hv] at hnew
    exact isNew_visit hnew
  refine ⟨⟨by omega, by omega, fun v hv _ hnew => ?_⟩, ?_, fun v hv _ hnew => hrecord (hisNew v hv hnew)⟩
  · have := hisNew v hv hnew
    omega
  · by_cases hnew : c.count < (c.enter parent alternative b).1.count
    · rw [add_on_record (hrecord hnew)]
      omega
    · have := count_add_le ((c.enter parent alternative b).1.addBlocks b.presence none children)
        (c.enter parent alternative b).2
      omega

/-- Behind a later branch the alternative counts again only if the branch opens its chain again. -/
theorem count_add_behind {b : Code.Block} (hb : b.branch ≠ .first) (c : PointCounter)
    (parent alternative : Option Formula) (children : Code.Forest) :
    let e := (c.add alternative).addBlocks b.presence none children
    (e.add alternative).count - e.count ≤ reopened [c.visit parent alternative b children] := by
  intro e
  rcases e.add_cases alternative with hsame | ⟨hcount, hlast, -⟩
  · rw [hsame]
    omega
  · -- the alternative is not on record, and something nested has been counted
    have hrecord : ¬ ∃ a ∈ alternative, a ∈ e.alternatives := fun h => by
      rw [add_on_record h] at hcount
      omega
    have hgrows : (c.add alternative).Grows e := grows_addBlocks _ _ _ _
    have hinside : (c.add alternative).count < e.count := by
      refine Nat.lt_of_le_of_ne hgrows.count_le fun heq => ?_
      rw [hgrows.eq_of_count heq.symm, add_add] at hcount
      omega
    obtain ⟨a, rfl⟩ : ∃ a, alternative = some a := by
      cases alternative with
      | none => simp at hcount
      | some a => exact ⟨a, rfl⟩
    have ha : a ∉ e.alternatives := fun h => hrecord ⟨a, rfl, h⟩
    have hreopens : (c.visit parent (some a) b children).reopens = true := by
      simp only [visit, enter_later hb, Option.any_some, Bool.and_eq_true, decide_eq_true_eq]
      exact ⟨⟨hb, hinside⟩, ha⟩
    have hone : reopened [c.visit parent (some a) b children] = 1 := by simp [reopened, hreopens]
    omega

theorem Going.later {b : Code.Block} (h : c.Going alternative chain) (hb : b.branch ≠ .first)
    (parent : Option Formula) (children : Code.Forest) :
    ((c.add alternative).addBlocks b.presence none children).Going alternative
      (chain ++ [c.visit parent alternative b children]) := by
  have hnewPoints : newPoints [c.visit parent alternative b children] =
      (c.add alternative).count - c.count := by
    rw [newPoints_visit, enter_later hb]
  have hgrows : c.Grows ((c.add alternative).addBlocks b.presence none children) :=
    (c.grows_add alternative).trans (grows_addBlocks _ _ _ _)
  have hbehind := count_add_behind hb c parent alternative children
  have hfirsts : firsts [c.visit parent alternative b children] = 0 := by simp [firsts, visit, hb]
  have hnewSplit : newPoints (chain ++ [c.visit parent alternative b children]) =
      newPoints chain + newPoints [c.visit parent alternative b children] := List.countP_append
  have hfirstsSplit : firsts (chain ++ [c.visit parent alternative b children]) =
      firsts chain + firsts [c.visit parent alternative b children] := List.countP_append
  have hreopenedSplit : reopened (chain ++ [c.visit parent alternative b children]) =
      reopened chain + reopened [c.visit parent alternative b children] := List.countP_append
  have hbefore := h.next_le
  -- a first branch stands before the one that is new here
  have hold : ∀ v ∈ chain ++ [c.visit parent alternative b children], v.block.branch = .first →
      v ∈ chain := fun v hv hfirst => by
    rcases List.mem_append.1 hv with hv | hv
    · exact hv
    · rw [List.mem_singleton.1 hv] at hfirst
      exact absurd hfirst hb
  refine ⟨⟨?_, ?_, fun v hv hfirst hnew => ?_⟩, ?_, fun v hv hfirst hnew => ?_⟩
  · rw [hfirstsSplit, hfirsts]
    exact h.walked.firsts_le
  · rw [List.dropLast_concat]
    omega
  · have hrecord := h.on_record v (hold v hv hfirst) hfirst hnew
    have hone := h.walked.of_new v (hold v hv hfirst) hfirst hnew
    rw [add_on_record hrecord] at hnewPoints
    omega
  · simp only at hbehind
    omega
  · exact hgrows.on_record (h.on_record v (hold v hv hfirst) hfirst hnew)

theorem walked_chains (parent : Option Formula) (f : Code.Forest) (h : c.Going alternative chain) :
    ∀ vs ∈ c.chains parent alternative chain f, Walked vs := by
  have hended : ∀ {chain}, Walked chain → ∀ vs ∈ ended chain, Walked vs := fun hwalked vs hvs =>
    (mem_ended.1 hvs).1 ▸ hwalked
  induction f generalizing c parent alternative chain with
  | nil => exact hended h.walked
  | block b children next hchildren hnext =>
    intro vs hvs
    rw [chains, List.mem_append, List.mem_append] at hvs
    rcases hvs with (hvs | hvs) | hvs
    · split at hvs
      · exact hended h.walked vs hvs
      · cases hvs
    · exact hchildren _ (going_nil _) vs hvs
    · refine hnext parent ?_ vs hvs
      by_cases hb : b.branch = .first
      · rw [if_pos hb, List.nil_append]
        exact going_first hb c parent alternative children
      · rw [if_neg hb, enter_later hb]
        exact h.later hb parent children

end PointCounter

namespace Code
namespace Function

def chains (f : Function) : List (List PointCounter.Visit) :=
  PointCounter.chains ⟨f.presence, [], []⟩ f.presence none [] f.children

theorem map_block_chains (f : Function) :
    f.chains.map (·.map PointCounter.Visit.block) =
      (f.children.chains none []).map Chain.branches :=
  PointCounter.map_block_chains none _ _ _ [] f.children

theorem sum_firsts_chains (f : Function) :
    (f.chains.map PointCounter.firsts).sum = f.children.walk.countP (·.branch = .first) := by
  have hfirsts : f.chains.map PointCounter.firsts =
      (f.chains.map (·.map PointCounter.Visit.block)).map (List.countP (·.branch = .first)) := by
    rw [List.map_map]
    exact List.map_congr_left fun vs _ => by simp [PointCounter.firsts, List.countP_map, Function.comp_def]
  have hperm := Forest.flatMap_branches_chains none [] f.children
  rw [hfirsts, ← List.countP_flatten, map_block_chains, ← List.flatMap_def]
  exact hperm.countP_eq _

/-- The points of a function are the new points of its chains. A chain has at most one, and one more
only behind a branch that opens it again before its end; if its first branch is a new point, it has no
other one. So the points exceed the first branches at most by the branches that open a chain again. -/
theorem points_le (f : Function) :
    f.chains.map (·.map PointCounter.Visit.block) = (f.children.chains none []).map Chain.branches ∧
      f.points = (f.chains.map PointCounter.newPoints).sum ∧
      (∀ chain ∈ f.chains,
        PointCounter.newPoints chain ≤ 1 + PointCounter.reopened chain.dropLast ∧
        ∀ v ∈ chain, v.block.branch = .first → v.isNew → PointCounter.newPoints chain = 1) ∧
      f.points ≤ f.children.walk.countP (·.branch = .first) +
        (f.chains.map fun chain => PointCounter.reopened chain.dropLast).sum := by
  have hwalked : ∀ chain ∈ f.chains, PointCounter.Walked chain :=
    PointCounter.walked_chains f.presence f.children (PointCounter.going_nil _)
  have hcount : f.points = (f.chains.map PointCounter.newPoints).sum := by
    have htotal := PointCounter.count_addBlocks ⟨f.presence, [], []⟩ f.presence none [] f.children
    exact htotal.trans (Nat.zero_add _)
  refine ⟨f.map_block_chains, hcount, fun chain hchain => ⟨?_, (hwalked chain hchain).of_new⟩, ?_⟩
  · have hle := (hwalked chain hchain).newPoints_le
    have hfirsts := (hwalked chain hchain).firsts_le
    omega
  · rw [hcount, ← sum_firsts_chains, ← List.sum_map_add]
    exact List.sum_le_sum fun chain hchain => (hwalked chain hchain).newPoints_le

end Function

end Code
end Variability
