import Variability.Proofs.Code.Level
import Variability.Proofs.Code.Matched

/-!
What becomes of the branches that are open. A branch that is closed gets its last line, and more
blocks may follow it on its level.
-/

set_option autoImplicit false

namespace Variability.Code

/-- A block whose owner is as asked, and which leads if the block around it has another owner. -/
structure Block.Belongs (p : Option Nat → Prop) (around : Option Block) (b : Block) : Prop where
  owner : p b.owner
  leads : b.leads = (b.owner.isSome && around.bind (·.owner) ≠ b.owner)

namespace Forest

variable {p : Option Nat → Prop} {around around' : Option Block} {f : Forest}

def Belongs (p : Option Nat → Prop) (around : Option Block) (f : Forest) : Prop :=
  f.Each (fun around _ b => b.Belongs p around) around []

theorem each_of_around {Q : Option Block → Block → Prop} {chain chain' : List Block}
    (h : f.Each (fun around _ b => Q around b) around chain) :
    f.Each (fun around _ b => Q around b) around chain' := by
  induction f generalizing around chain chain' with
  | nil => trivial
  | block b children next _ hn => exact ⟨h.1, h.2.1, hn h.2.2⟩

theorem belongs_block {b : Block} {children next : Forest} :
    (Forest.block b children next).Belongs p around ↔
      b.Belongs p around ∧ children.Belongs p (some b) ∧ next.Belongs p around :=
  ⟨fun ⟨hb, hc, hn⟩ => ⟨hb, hc, each_of_around hn⟩, fun ⟨hb, hc, hn⟩ => ⟨hb, hc, each_of_around hn⟩⟩

theorem Belongs.replace (h : f.Belongs p around)
    (ho : around.bind (·.owner) = around'.bind (·.owner)) : f.Belongs p around' :=
  Each.replace (fun _ _ hb => ⟨hb.owner, ho ▸ hb.leads⟩) h

theorem Belongs.owner (h : f.Belongs p around) : ∀ b ∈ f.walk, p b.owner :=
  Each.forall_walk h fun _ _ _ hb => hb.owner

end Forest

namespace Builder

variable {p : Option Nat → Prop} {base stack : List OpenBranch} {b b' : Builder} {result : Forest}

/-- The level becomes the forest when the branches around it are closed, innermost first, above those
that stay open. -/
def ClosesTo (p : Option Nat → Prop) (base : List OpenBranch) :
    List OpenBranch → Forest → Forest → Prop
  | [], level, result => level = result
  | o :: rest, level, result => ∃ line more, more.Belongs p (around (rest ++ base)) ∧
      ClosesTo p base rest ((o.siblings.snoc { o.block with lineEnd := line } level).append more) result

/-- The forest that a level becomes if more blocks follow on it before the branches around it are
closed. -/
def GrowsTo (p : Option Nat → Prop) (base stack : List OpenBranch) (level result : Forest) : Prop :=
  ∃ more : Forest, more.Anew ∧ more.Belongs p (around (stack ++ base)) ∧
    ClosesTo p base stack (level.append more) result

theorem belongs_openBranch (hp : p b.openFunctions.head?) (kind : Branch) (line last : Int)
    (c : Condition) (earlier : List (Option Formula)) :
    ∀ o ∈ (b.openBranch kind line c earlier).branches.head?,
      ({ o.block with lineEnd := last } : Block).Belongs p (around b.branches) := by
  intro o ho
  obtain rfl := Option.some.inj ho
  refine ⟨hp, ?_⟩
  rw [around, Option.bind_map]
  rfl

theorem closesTo_of_opened (hb : b.branches = stack ++ base) (hp : p b.openFunctions.head?)
    {kind : Branch} {line : Int} {c : Condition} {earlier : List (Option Formula)} {o : OpenBranch}
    (ho : (b.openBranch kind line c earlier).branches = o :: b.branches)
    (h : GrowsTo p base (o :: stack) .nil result) :
    ∃ more : Forest, (kind = .first → more.Anew) ∧ more.Belongs p (around (stack ++ base)) ∧
      ClosesTo p base stack (b.finished.append more) result := by
  obtain ⟨inner, -, hinner, last, outer, houter, hclose⟩ := h
  have hfinished : o.siblings = b.finished := by cases ho; rfl
  have hkind : o.block.branch = kind := by cases ho; rfl
  refine ⟨.block { o.block with lineEnd := last } inner outer, fun hfirst => ?_, ?_, ?_⟩
  · exact hkind.trans hfirst
  · refine Forest.belongs_block.2 ⟨?_, hinner.replace rfl, houter⟩
    exact hb ▸ belongs_openBranch hp kind line last c earlier o (by rw [ho]; rfl)
  · rw [hfinished, Forest.snoc, Forest.append_assoc] at hclose
    exact hclose

theorem growsTo_of_closed {closed : Builder} {line : Int} {earlier : List (Option Formula)}
    (hb : b.branches = stack ++ base) (hstack : stack ≠ [])
    (hclose : b.closeBranch line = .ok (earlier, closed)) :
    ∃ rest, closed.branches = rest ++ base ∧ stack.length = rest.length + 1 ∧
      closed.openFunctions = b.openFunctions ∧
      ∀ {result : Forest} (more : Forest), more.Belongs p (around (rest ++ base)) →
        ClosesTo p base rest (closed.finished.append more) result →
        GrowsTo p base stack b.finished result := by
  obtain ⟨o, rest, rfl⟩ := List.exists_cons_of_ne_nil hstack
  rw [closeBranch, hb] at hclose
  obtain ⟨-, rfl⟩ := Prod.mk.inj (Except.ok.inj hclose)
  refine ⟨rest, rfl, rfl, rfl, fun {_} more hmore hcloses => ⟨.nil, trivial, trivial, line, more, hmore, ?_⟩⟩
  rwa [Forest.append_nil]

/-- One landmark that does not go below some open branches: what its builder becomes, the builder
before it becomes as well. -/
theorem growsTo_of_passes {ms : List Mark} (hpass : b.Passes ms b') (hp : p b.openFunctions.head?)
    (hb : b.branches = stack ++ base) (hstays : Stays stack.length ms) :
    ∃ stack', b'.branches = stack' ++ base ∧ (stack'.length : Int) = stack.length + openCount ms ∧
      ∀ result, GrowsTo p base stack' b'.finished result → GrowsTo p base stack b.finished result := by
  cases hpass with
  | function hbranches hfinished =>
    have hnil : openCount [] = 0 := rfl
    exact ⟨stack, hbranches.trans hb, by omega, by rw [hfinished]; exact fun _ => id⟩
  | opened line c =>
    have hopening : openCount [.branch .first c.formula? line] = 1 := rfl
    obtain ⟨o, ho⟩ : ∃ o, (b.openBranch .first line c []).branches = o :: b.branches := ⟨_, rfl⟩
    refine ⟨o :: stack, by rw [ho, hb]; rfl, by rw [hopening, List.length_cons]; rfl, fun _ h => ?_⟩
    obtain ⟨more, hanew, hmore, hclose⟩ := closesTo_of_opened hb hp ho h
    exact ⟨more, hanew rfl, hmore, hclose⟩
  | @continued kind line c earlier closed hkind hbare hclose =>
    have hends : (Mark.branch kind c.formula? line).ends := by cases kind <;> trivial
    have hcontinuing : openCount [.branch kind c.formula? line] = 0 := by
      cases kind <;> trivial
    have hstack : stack ≠ [] := fun hnil => hstays.1 hends (by simp [hnil])
    obtain ⟨rest, hrest, hlength, hopen, hgrows⟩ := growsTo_of_closed (p := p) hb hstack hclose
    obtain ⟨o, ho⟩ : ∃ o, (closed.openBranch kind line c earlier).branches = o :: closed.branches :=
      ⟨_, rfl⟩
    refine ⟨o :: rest, by rw [ho, hrest]; rfl, ?_, fun _ h => ?_⟩
    · rw [hcontinuing, hlength, List.length_cons, Int.add_zero]
    · obtain ⟨more, -, hmore, hcloses⟩ := closesTo_of_opened hrest (by rwa [hopen]) ho h
      exact hgrows more hmore hcloses
  | @ended line earlier closed hclose =>
    have hending : openCount [.endif line] = -1 := rfl
    have hstack : stack ≠ [] := fun hnil => hstays.1 rfl (by simp [hnil])
    obtain ⟨rest, hrest, hlength, -, hgrows⟩ := growsTo_of_closed (p := p) hb hstack hclose
    exact ⟨rest, hrest, by omega, fun _ ⟨more, _, hmore, hcloses⟩ => hgrows more hmore hcloses⟩

theorem map_ok_injective {ms ns : List Mark}
    (h : ms.map (Except.ok : Mark → Except Fault Mark) = ns.map .ok) : ms = ns :=
  List.map_injective_iff.2 (fun _ _ => Except.ok.inj) h

def walkedBefore : List OpenBranch → List Block
  | [] => []
  | o :: rest => walkedBefore rest ++ (o.siblings.walk ++ [o.block])

def walked (b : Builder) : List Block := walkedBefore b.branches ++ b.finished.walk

theorem filter_toldBefore (branches : List OpenBranch) :
    (toldBefore branches).filter Mark.begins = (walkedBefore branches).map Block.mark := by
  induction branches with
  | nil => rfl
  | cons o rest ih =>
    have hsiblings := Forest.filter_unfold [] o.siblings
    have hclosing : (o.block.branch.closing (o.siblings.lastChain [])).filter Mark.begins = [] := by
      unfold Branch.closing
      split
      · exact Forest.filter_closing _
      · rfl
    have hb : o.block.mark.begins = true := rfl
    rw [Forest.unfold_eq_trail, List.filter_append, Forest.filter_closing, List.append_nil] at hsiblings
    simp [toldBefore, walkedBefore, ih, hsiblings, hclosing, hb]

theorem filter_told (b : Builder) : b.told.filter Mark.begins = b.walked.map Block.mark := by
  rw [told, walked, List.filter_append, filter_toldBefore, Forest.filter_unfold, List.map_append]

/-- A level inside open branches stands in the forest behind the blocks met before it. -/
theorem ClosesTo.stands {branches : List OpenBranch} {level : Forest}
    (h : ClosesTo p [] branches level result) :
    ∃ before enclosing behind, Forest.Stands result before enclosing level behind ∧
      before.map Block.begun = (walkedBefore branches).map Block.begun ∧
      enclosing.map Block.begun = (around branches).map Block.begun ∧ ∀ b ∈ behind, p b.owner := by
  induction branches generalizing level with
  | nil =>
    obtain rfl : level = result := h
    exact ⟨[], none, [], .outermost, rfl, rfl, by simp⟩
  | cons o rest ih =>
    obtain ⟨line, more, hmore, hcloses⟩ := h
    obtain ⟨before, _, behind, hstands, hbefore, -, hbehind⟩ := ih hcloses
    rw [Forest.snoc, Forest.append_assoc] at hstands
    refine ⟨_, _, _, hstands.inside, ?_, rfl, fun b hb => ?_⟩
    · simp [walkedBefore, hbefore, Block.begun]
    · rcases List.mem_append.1 hb with hb | hb
      · exact hmore.owner b hb
      · exact hbehind b hb

variable [ParserStack]

theorem run_cons_ok {m : Landmark} {landmarks : List Landmark}
    (h : b.run (m :: landmarks) = (b', none)) :
    ∃ b₁, b.step m = .ok b₁ ∧ b₁.run landmarks = (b', none) := by
  rw [run] at h
  cases hstep : b.step m with
  | error fault => simp [hstep] at h
  | ok b₁ => exact ⟨b₁, rfl, by rwa [hstep] at h⟩

theorem run_append_ok {landmarks later : List Landmark}
    (h : b.run (landmarks ++ later) = (b', none)) :
    ∃ b₁, b.run landmarks = (b₁, none) ∧ b₁.run later = (b', none) := by
  rw [run_append] at h
  split at h
  · next b₁ hrun => exact ⟨b₁, hrun, h⟩
  · cases h

/-- Directives that never go below some open branches, and end with these, close all above them. -/
theorem growsTo_of_run {I : Builder → Prop} {landmarks : List Landmark} {ms : List Mark}
    (hI : ∀ b b', ∀ m ∈ landmarks, I b → b.step m = .ok b' → I b')
    (hp : ∀ b, I b → p b.openFunctions.head?) (h₀ : I b) (h : b.run landmarks = (b', none))
    (hms : landmarks.flatMap Landmark.marks = ms.map .ok) (hb : b.branches = stack ++ base)
    (hstays : Stays stack.length ms) (hend : stack.length + openCount ms = 0) :
    b'.branches = base ∧ GrowsTo p base stack b.finished b'.finished := by
  induction landmarks generalizing b ms stack with
  | nil =>
    obtain rfl := List.map_eq_nil_iff.1 hms.symm
    have hlength : stack.length = 0 := by
      have hnil : openCount [] = 0 := rfl
      omega
    obtain rfl := List.eq_nil_of_length_eq_zero hlength
    cases h
    exact ⟨hb, .nil, trivial, trivial, Forest.append_nil _⟩
  | cons m landmarks ih =>
    obtain ⟨b₁, hstep, h⟩ := run_cons_ok h
    rw [List.flatMap_cons] at hms
    obtain ⟨first, later, rfl, hfirst, hlater⟩ := List.append_eq_map_iff.1 hms
    obtain ⟨ms₁, hms₁, hpass⟩ := passes_of_step hstep
    obtain rfl : ms₁ = first := map_ok_injective (hms₁.symm.trans hfirst.symm)
    obtain ⟨hstaysFirst, hstaysLater⟩ := stays_append.1 hstays
    obtain ⟨stack₁, hb₁, hlength, hgrows⟩ := growsTo_of_passes hpass (hp b h₀) hb hstaysFirst
    rw [openCount_append, ← Int.add_assoc, ← hlength] at hend
    rw [← hlength] at hstaysLater
    obtain ⟨hbranches, hafter⟩ := ih (fun b b' m hm => hI b b' m (List.mem_cons_of_mem _ hm))
      (hI b b₁ m List.mem_cons_self h₀ hstep) h hlater.symm hb₁ hstaysLater hend
    exact ⟨hbranches, hgrows b'.finished hafter⟩

end Builder
end Variability.Code
