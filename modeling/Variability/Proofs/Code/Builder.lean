import Variability.Proofs.Code.Chain
import Variability.Proofs.Code.Mark

/-!
What holds of every block of a code model. The open branches keep it while landmarks are met, since
closing a branch only sets its last line.
-/

set_option autoImplicit false

namespace Variability.Code

def presenceAround : Option Block → Option Formula
  | none => some .tru
  | some b => b.presence

/-- How a block has to fit to the block around it and the earlier branches of its chain. -/
structure Block.Fits (around : Option Block) (earlier : List Block) (b : Block) : Prop where
  presence : b.presence = some (Builder.branchPresence (presenceAround around)
    (earlier.map (·.condition)) b.condition)
  bare : b.branch = .last → b.condition = none
  continues : b.branch ≠ .first → earlier ≠ []
  joined : ∀ e ∈ earlier.getLast?, e.lineEnd = b.lineStart

theorem Block.Fits.ended {around : Option Block} {earlier : List Block} {b : Block}
    (h : b.Fits around earlier) (line : Int) : ({ b with lineEnd := line } : Block).Fits around earlier :=
  ⟨h.presence, h.bare, h.continues, h.joined⟩

namespace Builder

def around (branches : List OpenBranch) : Option Block := branches.head?.map (·.block)

/-- Each open branch fits after the finished blocks of its level, whose last chain it continues, and
holds the own conditions of that chain. -/
def Standing : List OpenBranch → Prop
  | [] => True
  | o :: rest =>
    let earlier := o.block.branch.earlier (o.siblings.lastChain [])
    o.siblings.Each Block.Fits (around rest) [] ∧ o.block.Fits (around rest) earlier ∧
      o.conditions = (earlier ++ [o.block]).map (·.condition) ∧ Standing rest

structure Sound (b : Builder) : Prop where
  standing : Standing b.branches
  finished : b.finished.Each Block.Fits (around b.branches) []

theorem sound_empty : Sound {} := ⟨trivial, trivial⟩

theorem presenceAround_around (b : Builder) : presenceAround (around b.branches) = b.presence := by
  unfold presence
  cases b.branches <;> rfl

theorem Sound.openBranch {b : Builder} (h : b.Sound) {branch : Branch} {line : Int} {c : Condition}
    (hbare : branch = .last → c.formula? = none)
    (hcontinues : branch ≠ .first → b.finished.lastChain [] ≠ [])
    (hjoined : ∀ e ∈ (branch.earlier (b.finished.lastChain [])).getLast?, e.lineEnd = line) :
    (b.openBranch branch line c
      ((branch.earlier (b.finished.lastChain [])).map (·.condition))).Sound := by
  have hearlier : branch ≠ .first → branch.earlier (b.finished.lastChain []) ≠ [] := by
    intro hb
    rw [Branch.earlier, if_neg hb]
    exact hcontinues hb
  have hpresence := presenceAround_around b
  refine ⟨⟨h.finished, ⟨?_, hbare, hearlier, hjoined⟩, ?_, h.standing⟩, trivial⟩
  · rw [hpresence]
  · simp

theorem Sound.closeBranch {b closed : Builder} (h : b.Sound) {line : Int}
    {earlier : List (Option Formula)} (hc : b.closeBranch line = .ok (earlier, closed)) :
    closed.Sound ∧ earlier = (closed.finished.lastChain []).map (·.condition) ∧
      closed.finished.lastChain [] ≠ [] ∧
      ∀ e ∈ (closed.finished.lastChain []).getLast?, e.lineEnd = line := by
  unfold Builder.closeBranch at hc
  split at hc
  · cases hc
  · next o rest hb =>
    obtain ⟨rfl, rfl⟩ := Prod.mk.inj (Except.ok.inj hc)
    obtain ⟨hstanding, hfinished⟩ := h
    rw [hb] at hstanding hfinished
    obtain ⟨hsiblings, hblock, hconditions, hrest⟩ := hstanding
    -- the blocks inside fit a block that differs in its last line only
    have hinside : b.finished.Each Block.Fits (some { o.block with lineEnd := line }) [] :=
      hfinished.replace fun _ _ hf => ⟨hf.presence, hf.bare, hf.continues, hf.joined⟩
    refine ⟨⟨hrest, Forest.each_snoc hsiblings (hblock.ended line) hinside⟩, ?_, ?_, ?_⟩
    · simp [hconditions, Forest.lastChain_snoc]
    · simp [Forest.lastChain_snoc]
    · simp [Forest.lastChain_snoc]

theorem Sound.passes {b b' : Builder} (h : b.Sound) {ms : List Mark} (hp : b.Passes ms b') :
    b'.Sound := by
  cases hp with
  | function hbranches hfinished =>
    exact ⟨hbranches ▸ h.standing, hbranches ▸ hfinished ▸ h.finished⟩
  | opened line c => exact h.openBranch (by simp) (by simp) (by simp)
  | @continued kind line c earlier closed hkind hbare hclose =>
    obtain ⟨hclosed, rfl, hne, hjoined⟩ := h.closeBranch hclose
    have hchain : kind.earlier (closed.finished.lastChain []) = closed.finished.lastChain [] := by
      rw [Branch.earlier, if_neg hkind]
    rw [← hchain] at hjoined
    have hopen := hclosed.openBranch (c := c) hbare (fun _ => hne) hjoined
    rwa [hchain] at hopen
  | ended hclose => exact (h.closeBranch hclose).1

variable [ParserStack]

theorem Sound.run {b b' : Builder} (h : b.Sound) {landmarks : List Landmark}
    (hr : b.run landmarks = (b', none)) : b'.Sound := by
  induction landmarks generalizing b with
  | nil => cases hr; exact h
  | cons m landmarks ih =>
    rw [Builder.run] at hr
    cases hstep : b.step m with
    | error fault => simp [hstep] at hr
    | ok b₁ =>
      obtain ⟨_, _, hp⟩ := passes_of_step hstep
      rw [hstep] at hr
      exact ih (h.passes hp) hr

end Builder

variable [ParserStack]

theorem assemble_eq {path sourcePath : String} {landmarks : List Landmark} {file : SourceFile}
    (h : (assemble path sourcePath landmarks).result = .ok file) :
    ∃ b : Builder, Builder.run {} landmarks = (b, none) ∧ b.branches = [] ∧
      file = ⟨path, sourcePath, b.finished, Builder.ownedFunctions b.functions b.finished⟩ := by
  unfold assemble at h
  split at h
  · cases h
  · next b hrun =>
    split at h
    · cases h
    · next hb => exact ⟨b, hrun, hb, (Except.ok.inj h).symm⟩

theorem assemble_ok {path sourcePath : String} {landmarks : List Landmark} {file : SourceFile}
    (h : (assemble path sourcePath landmarks).result = .ok file) :
    ∃ b : Builder, Builder.run {} landmarks = (b, none) ∧ b.branches = [] ∧
      file.blocks = b.finished := by
  obtain ⟨b, hrun, hb, rfl⟩ := assemble_eq h
  exact ⟨b, hrun, hb, rfl⟩

theorem fits_of_assemble {path sourcePath : String} {landmarks : List Landmark} {file : SourceFile}
    (h : (assemble path sourcePath landmarks).result = .ok file) :
    file.blocks.Each Block.Fits none [] := by
  obtain ⟨b, hrun, hb, hblocks⟩ := assemble_ok h
  have hfinished := (Builder.sound_empty.run hrun).finished
  rw [hb] at hfinished
  exact hblocks ▸ hfinished

end Variability.Code
