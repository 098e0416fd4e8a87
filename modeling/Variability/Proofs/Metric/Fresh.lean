import Variability.Proofs.Code.Below
import Variability.Proofs.Metric.Points
import Variability.Proofs.VariationPoint.History

/-!
Variation points under fresh conditions. A counter compares a condition with the last point and with
the alternatives, and these have no other variables than the conditions they come from.
-/

set_option autoImplicit false

namespace Variability

theorem Formula.occurrences_alternativeAfter (predecessor : Option Formula) (p : Formula) :
    (p.alternativeAfter predecessor).occurrences = p.occurrences := by
  cases p with
  | conj l r =>
    rw [alternativeAfter]
    split_ifs <;> simp [occurrences, occurrences_negate]
  | _ => rw [alternativeAfter, occurrences_negate]; simp

namespace Code

def conditionNamesOf (bs : List Block) : List String := bs.flatMap fun b => conditionNames b.condition

def firstPresences (bs : List Block) : List (Option Formula) :=
  (bs.filter (·.branch = .first)).map (·.presence)

/-- Every first branch has a variable in its own condition that is neither one of the given ones nor in
the own condition of a block before it. -/
def Fresh (given : List String) (bs : List Block) : Prop :=
  ∀ before b behind, bs = before ++ b :: behind → b.branch = .first →
    ∃ name ∈ conditionNames b.condition, name ∉ given ∧
      ∀ d ∈ before, name ∉ conditionNames d.condition

variable {given : List String} {b : Block} {bs cs : List Block}

theorem fresh_nil (given : List String) : Fresh given [] := by
  intro before b behind h
  simp at h

theorem fresh_cons :
    Fresh given (b :: bs) ↔
      (b.branch = .first → ∃ name ∈ conditionNames b.condition, name ∉ given) ∧
        Fresh (given ++ conditionNames b.condition) bs := by
  constructor
  · intro h
    refine ⟨fun hb => ?_, ?_⟩
    · obtain ⟨name, hname, hgiven, -⟩ := h [] b bs rfl hb
      exact ⟨name, hname, hgiven⟩
    · rintro before d behind rfl hd
      obtain ⟨name, hname, hgiven, hbefore⟩ := h (b :: before) d behind rfl hd
      have hb := hbefore b List.mem_cons_self
      exact ⟨name, hname, by simp [hgiven, hb], fun e he => hbefore e (List.mem_cons_of_mem b he)⟩
  · rintro ⟨hhead, htail⟩ before d behind h hd
    cases before with
    | nil =>
      obtain ⟨rfl, rfl⟩ := List.cons.inj h
      obtain ⟨name, hname, hgiven⟩ := hhead hd
      exact ⟨name, hname, hgiven, by simp⟩
    | cons e before =>
      obtain ⟨rfl, rfl⟩ := List.cons.inj h
      obtain ⟨name, hname, hgiven, hbefore⟩ := htail before d behind rfl hd
      rw [List.mem_append, not_or] at hgiven
      exact ⟨name, hname, hgiven.1, List.forall_mem_cons.2 ⟨hgiven.2, hbefore⟩⟩

theorem fresh_append :
    Fresh given (bs ++ cs) ↔ Fresh given bs ∧ Fresh (given ++ conditionNamesOf bs) cs := by
  induction bs generalizing given with
  | nil => simp [fresh_nil, conditionNamesOf]
  | cons b bs ih =>
    rw [List.cons_append, fresh_cons, fresh_cons, ih, and_assoc, conditionNamesOf, conditionNamesOf,
      List.flatMap_cons, List.append_assoc]

theorem firstPresences_append (bs cs : List Block) :
    firstPresences (bs ++ cs) = firstPresences bs ++ firstPresences cs := by
  simp [firstPresences]

end Code

namespace PointCounter

open Code (Block Forest Fresh conditionNamesOf fresh_append fresh_cons presenceBelow
  presenceBelow_some firstPresences firstPresences_append)

variable {c : PointCounter} {given : List String}

structure Within (c : PointCounter) (given : List String) : Prop where
  last : ∀ name ∈ conditionNames c.last, name ∈ given
  alternatives : ∀ a ∈ c.alternatives, ∀ name ∈ a.occurrences, name ∈ given

theorem Within.mono {more : List String} (h : c.Within given) (hsub : ∀ name ∈ given, name ∈ more) :
    c.Within more :=
  ⟨fun name hname => hsub name (h.last name hname),
    fun a ha name hname => hsub name (h.alternatives a ha name hname)⟩

theorem Within.not_recorded (h : c.Within given) {p : Formula} {name : String}
    (hname : name ∈ p.occurrences) (hfresh : name ∉ given) : ¬ c.Recorded (some p) := by
  rw [recorded_some]
  rintro (hlast | halternative)
  · exact hfresh (h.last name (mem_conditionNames.2 ⟨p, hlast.symm, hname⟩))
  · exact hfresh (h.alternatives p halternative name hname)

theorem Within.push (h : c.Within given) {p : Formula} (hp : ∀ name ∈ p.occurrences, name ∈ given) :
    (c.push p).Within given where
  last name hname := by
    obtain ⟨q, hq, hname⟩ := mem_conditionNames.1 hname
    obtain rfl := Option.some.inj hq
    exact hp name hname
  alternatives a ha name hname := by
    rcases List.mem_cons.1 ha with rfl | ha
    · exact hp name (by rwa [Formula.occurrences_alternativeAfter] at hname)
    · exact h.alternatives a ha name hname

/-- A counter before a level or the rest of one: the variables of what it compares with, of what is
asked around the level and of the chain that goes on are given, and the alternative that later branches
of this chain count as is on record. -/
structure Ready (c : PointCounter) (given : List String) (around : Option Formula)
    (chain : List Block) (alternative : Option Formula) : Prop where
  within : c.Within given
  around : ∀ name ∈ conditionNames around, name ∈ given
  chain : ∀ name ∈ conditionNamesOf chain, name ∈ given
  on_record : ∀ a ∈ alternative, a ∈ c.alternatives

variable {outer alternative : Option Formula} {around : Option Block} {chain : List Block} {b : Block}

theorem Ready.names_presence (h : c.Ready given (presenceBelow outer around) chain alternative)
    (hb : b.Composed outer around (b.branch.earlier chain)) :
    ∀ name ∈ conditionNames b.presence, name ∈ given ++ conditionNames b.condition := by
  intro name hname
  rcases hb.mem_names hname with hname | ⟨e, he, hname⟩ | hname
  · exact List.mem_append_left _ (h.around name hname)
  · have hchain : e ∈ chain := by
      unfold Code.Branch.earlier at he
      split at he
      · cases he
      · exact he
    exact List.mem_append_left _ (h.chain name (List.mem_flatMap.2 ⟨e, hchain, hname⟩))
  · exact List.mem_append_right _ hname

theorem Ready.names_chain (h : c.Ready given (presenceBelow outer around) chain alternative) :
    ∀ name ∈ conditionNamesOf (b.branch.earlier chain ++ [b]),
      name ∈ given ++ conditionNames b.condition := by
  intro name hname
  rw [conditionNamesOf, List.flatMap_append, List.flatMap_singleton] at hname
  unfold Code.Branch.earlier at hname
  split at hname
  · exact List.mem_append_right _ hname
  · rcases List.mem_append.1 hname with hname | hname
    · exact List.mem_append_left _ (h.chain name hname)
    · exact List.mem_append_right _ hname

theorem Ready.enter_first (h : c.Ready given (presenceBelow outer around) chain alternative)
    (hb : b.Composed outer around (b.branch.earlier chain)) (hfirst : b.branch = .first)
    (hfresh : ∃ name ∈ conditionNames b.condition, name ∉ given) :
    ∃ p, b.presence = some p ∧
      (c.enter (presenceBelow outer around) alternative b).1 = c.push p ∧
      ∀ a ∈ (c.enter (presenceBelow outer around) alternative b).2, a ∈ (c.push p).alternatives := by
  obtain ⟨name, hname, hgiven⟩ := hfresh
  obtain ⟨p, hp, hnamep⟩ := mem_conditionNames.1 (hb.own_names hname)
  have hadd : c.add b.presence = c.push p := by
    rw [hp, add_new (h.within.not_recorded hnamep hgiven)]
  have henter := PointCounter.enter_first hfirst c (presenceBelow outer around) alternative
  rw [hadd] at henter
  have hnew : c.count < (c.enter (presenceBelow outer around) alternative b).1.count := by
    rw [henter, count_push]
    exact Nat.lt_succ_self _
  obtain ⟨a, ha, hrecord⟩ := enter_new hfirst hnew
  refine ⟨p, hp, henter, fun a' ha' => ?_⟩
  rw [← henter, Option.mem_unique ha' ha]
  exact hrecord

theorem Ready.enter_later (h : c.Ready given (presenceBelow outer around) chain alternative)
    (hlater : b.branch ≠ .first) :
    c.enter (presenceBelow outer around) alternative b = (c, alternative) := by
  rw [PointCounter.enter_later hlater]
  cases halternative : alternative with
  | none => rfl
  | some a => rw [add_alternative (h.on_record a halternative)]

theorem Ready.enter (h : c.Ready given (presenceBelow outer around) chain alternative)
    (hb : b.Composed outer around (b.branch.earlier chain))
    (hfresh : b.branch = .first → ∃ name ∈ conditionNames b.condition, name ∉ given) :
    let entered := c.enter (presenceBelow outer around) alternative b
    entered.1.Within (given ++ conditionNames b.condition) ∧
      entered.1.active = c.active ++ firstPresences [b] ∧
      ∀ a ∈ entered.2, a ∈ entered.1.alternatives := by
  intro entered
  have hmore : c.Within (given ++ conditionNames b.condition) :=
    h.within.mono fun name => List.mem_append_left _
  by_cases hfirst : b.branch = .first
  · obtain ⟨p, hp, henter, hrecord⟩ := h.enter_first hb hfirst (hfresh hfirst)
    rw [show entered.1 = c.push p from henter]
    refine ⟨hmore.push fun name hname => ?_, by simp [firstPresences, hfirst, hp], hrecord⟩
    exact h.names_presence hb name (mem_conditionNames.2 ⟨p, hp, hname⟩)
  · rw [show entered = (c, alternative) from h.enter_later hfirst]
    exact ⟨hmore, by simp [firstPresences, hfirst], h.on_record⟩

/-- Over a level and all that is nested in it the new points are the first branches. -/
theorem Ready.addBlocks {f : Forest} (hf : f.Each (Block.Composed outer) around chain)
    (hfresh : Fresh given f.walk)
    (h : c.Ready given (presenceBelow outer around) chain alternative) :
    (c.addBlocks (presenceBelow outer around) alternative f).Within (given ++ conditionNamesOf f.walk) ∧
      (c.addBlocks (presenceBelow outer around) alternative f).active =
        c.active ++ firstPresences f.walk := by
  induction f generalizing c given around chain alternative with
  | nil =>
    exact ⟨h.within.mono fun name => List.mem_append_left _, (List.append_nil c.active).symm⟩
  | block b children next hchildren hnext =>
    obtain ⟨hb, hinside, hbehind⟩ := hf
    obtain ⟨hown, hrest⟩ := fresh_cons.1 hfresh
    obtain ⟨hfreshInside, hfreshBehind⟩ := fresh_append.1 hrest
    obtain ⟨hwithin, hactive, hrecord⟩ := h.enter hb hown
    -- the blocks inside begin without a chain
    have hready : (c.enter (presenceBelow outer around) alternative b).1.Ready
        (given ++ conditionNames b.condition) (presenceBelow outer (some b)) [] none :=
      ⟨hwithin, h.names_presence hb, by simp [conditionNamesOf], by simp⟩
    have hafter := hchildren hinside hfreshInside hready
    rw [presenceBelow_some] at hafter
    obtain ⟨hwithinInside, hactiveInside⟩ := hafter
    have hgrows := grows_addBlocks (c.enter (presenceBelow outer around) alternative b).1
      b.presence none children
    obtain ⟨hwithinBehind, hactiveBehind⟩ := hnext hbehind hfreshBehind
      ⟨hwithinInside, fun name hname => by simp [h.around name hname],
        fun name hname => List.mem_append_left _ (h.names_chain name hname),
        fun a ha => hgrows.alternatives a (hrecord a ha)⟩
    rw [addBlocks_block, Forest.walk]
    refine ⟨?_, ?_⟩
    · simpa [conditionNamesOf, List.append_assoc] using hwithinBehind
    · have hsplit := firstPresences_append [b] (children.walk ++ next.walk)
      rw [List.singleton_append, firstPresences_append] at hsplit
      rw [hactiveBehind, hactiveInside, hactive, hsplit, List.append_assoc, List.append_assoc]

end PointCounter

namespace Code.Function

/-- The points of a function are the first branches if each of them has a fresh variable. -/
theorem points_fresh (f : Function) (hcomposed : f.children.Each (Block.Composed f.presence) none [])
    (hfresh : Fresh (conditionNames f.presence) f.children.walk) :
    f.points = f.children.walk.countP (·.branch = .first) ∧
      (PointCounter.addBlocks ⟨f.presence, [], []⟩ f.presence none f.children).active =
        f.presence :: firstPresences f.children.walk := by
  have hready : (⟨f.presence, [], []⟩ : PointCounter).Ready (conditionNames f.presence)
      (presenceBelow f.presence none) [] none :=
    ⟨⟨fun name => id, by simp⟩, fun name => id, by simp [conditionNamesOf], by simp⟩
  obtain ⟨-, hactive⟩ := hready.addBlocks hcomposed hfresh
  have hlength := congrArg List.length hactive
  refine ⟨?_, hactive⟩
  rw [PointCounter.length_active, List.length_append, firstPresences, List.length_map] at hlength
  rw [List.countP_eq_length_filter]
  exact Nat.succ.inj (hlength.trans (Nat.add_comm 1 _))

def freshChains : Function :=
  let p := Formula.var "P"
  let a := Formula.conj p (.var "A")
  let below (f g : Formula) : Formula := .conj f g
  let block (branch : Branch) (condition : Option Formula) (presence : Formula) : Block :=
    ⟨branch, condition, some presence, 1, 1, none, false⟩
  let children :=
    .block (block .first (some a) (below p a))
      (.block (block .first (some (.neg (.var "B"))) (below (below p a) (.neg (.var "B")))) .nil .nil) <|
    .block (block .further (some (.var "B")) (below (below p (.neg a)) (.var "B")))
      (.block (block .first (some (.var "C")) (below (below (below p (.neg a)) (.var "B")) (.var "C")))
        .nil .nil) <|
    .block (block .last none (below (below p (.neg a)) (.neg (.var "B")))) .nil .nil
  { name := "f"
    lineStart := 1
    lineEnd := 9
    presence := some p
    children
    blocks := children.walk }

theorem points_fresh_freshChains :
    freshChains.children.Each (Block.Composed freshChains.presence) none [] ∧
      Fresh (conditionNames freshChains.presence) freshChains.children.walk ∧ freshChains.points = 3 := by
  have hcomposed : freshChains.children.Each (Block.Composed freshChains.presence) none [] :=
    ⟨rfl, ⟨rfl, trivial, trivial⟩, rfl, ⟨rfl, trivial, trivial⟩, rfl, trivial, trivial⟩
  have hfresh : Fresh (conditionNames freshChains.presence) freshChains.children.walk := by
    simp only [freshChains, Forest.walk, List.cons_append, List.nil_append, fresh_cons]
    exact ⟨by decide, by decide, by decide, by decide, by decide, fresh_nil _⟩
  exact ⟨hcomposed, hfresh, (points_fresh freshChains hcomposed hfresh).1⟩

end Code.Function
end Variability
