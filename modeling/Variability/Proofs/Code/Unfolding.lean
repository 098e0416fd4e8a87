import Mathlib.Algebra.GroupWithZero.Nat
import Mathlib.Data.List.Chain
import Variability.Proofs.Code.Occurrence
import Variability.Proofs.Code.Presence

set_option autoImplicit false

namespace Variability.Code

def Block.mark (b : Block) : Mark := .branch b.branch b.condition b.lineStart

/-- The `#endif` of a chain, on the last line of its last branch. -/
def closing (chain : List Block) : List Mark :=
  chain.getLast?.toList.map fun b => .endif b.lineEnd

@[simp] theorem closing_nil : closing [] = [] := rfl

@[simp] theorem closing_concat (chain : List Block) (b : Block) :
    closing (chain ++ [b]) = [.endif b.lineEnd] := by
  simp [closing]

def Branch.closing (kind : Branch) (chain : List Block) : List Mark :=
  if kind = .first then Code.closing chain else []

namespace Forest

/-- The directives that a level spells after an open chain: a first branch closes the chain before
it, the blocks inside a branch follow it, and the end of the level closes its last chain. -/
def unfold : List Block → Forest → List Mark
  | chain, .nil => closing chain
  | chain, .block b children next =>
    b.branch.closing chain ++ b.mark :: (unfold [] children ++
      unfold (b.branch.earlier chain ++ [b]) next)

def trail : List Block → Forest → List Mark
  | _, .nil => []
  | chain, .block b children next =>
    b.branch.closing chain ++ b.mark :: (unfold [] children ++
      trail (b.branch.earlier chain ++ [b]) next)

theorem unfold_eq_trail (chain : List Block) (f : Forest) :
    f.unfold chain = f.trail chain ++ closing (f.lastChain chain) := by
  induction f generalizing chain with
  | nil => rfl
  | block b children next _ hn => simp [unfold, trail, lastChain, hn]

theorem trail_append (chain : List Block) (f g : Forest) :
    (f.append g).trail chain = f.trail chain ++ g.trail (f.lastChain chain) := by
  induction f generalizing chain with
  | nil => rfl
  | block b children next _ hn => simp [append, trail, lastChain, hn]

theorem trail_snoc (chain : List Block) (f : Forest) (b : Block) (children : Forest) :
    (f.snoc b children).trail chain = f.trail chain ++
      (b.branch.closing (f.lastChain chain) ++ b.mark :: children.unfold []) := by
  simp [snoc, trail_append, trail]

end Forest

namespace Builder

def toldBefore : List OpenBranch → List Mark
  | [] => []
  | o :: rest => toldBefore rest ++ (o.siblings.trail [] ++
      (o.block.branch.closing (o.siblings.lastChain []) ++ [o.block.mark]))

def told (b : Builder) : List Mark := toldBefore b.branches ++ b.finished.unfold []

theorem told_openBranch (b : Builder) (kind : Branch) (line : Int) (c : Condition)
    (earlier : List (Option Formula)) :
    (b.openBranch kind line c earlier).told = toldBefore b.branches ++ (b.finished.trail [] ++
      (kind.closing (b.finished.lastChain []) ++ [.branch kind c.formula? line])) :=
  List.append_nil _

/-- A closed branch waits for the end of its chain: that is all its builder tells in addition. -/
theorem told_closeBranch {b closed : Builder} {line : Int} {earlier : List (Option Formula)}
    (h : b.closeBranch line = .ok (earlier, closed)) :
    toldBefore closed.branches ++ closed.finished.trail [] = b.told ∧
      closing (closed.finished.lastChain []) = [.endif line] := by
  unfold closeBranch at h
  split at h
  · cases h
  · next o rest hb =>
    obtain ⟨_, rfl⟩ := Prod.mk.inj (Except.ok.inj h)
    constructor
    · simp [told, hb, toldBefore, Forest.trail_snoc, Block.mark]
    · simp [Forest.lastChain_snoc]

theorem told_passes {b b' : Builder} {ms : List Mark} (hp : b.Passes ms b') :
    b'.told = b.told ++ ms := by
  cases hp with
  | function hbranches hfinished => simp [told, hbranches, hfinished]
  | opened line c =>
    rw [told_openBranch, told, Forest.unfold_eq_trail]
    simp [Branch.closing]
  | continued hkind _ hclose =>
    rw [told_openBranch, ← (told_closeBranch hclose).1]
    simp [Branch.closing, hkind]
  | ended hclose =>
    obtain ⟨htold, hend⟩ := told_closeBranch hclose
    rw [← htold, ← hend, told, Forest.unfold_eq_trail, List.append_assoc]

variable [ParserStack]

theorem told_run {b b' : Builder} {landmarks : List Landmark} (h : b.run landmarks = (b', none)) :
    ∃ ms, landmarks.flatMap Landmark.marks = ms.map .ok ∧ b'.told = b.told ++ ms := by
  induction landmarks generalizing b with
  | nil => cases h; exact ⟨[], rfl, by simp⟩
  | cons m landmarks ih =>
    rw [run] at h
    cases hstep : b.step m with
    | error fault => simp [hstep] at h
    | ok b₁ =>
      rw [hstep] at h
      obtain ⟨ms, hms, hp⟩ := passes_of_step hstep
      obtain ⟨ns, hns, htold⟩ := ih h
      refine ⟨ms ++ ns, ?_, ?_⟩
      · rw [List.flatMap_cons, hms, hns, List.map_append]
      · rw [htold, told_passes hp, List.append_assoc]

end Builder

namespace Forest

def tops : Forest → List (Block × Forest)
  | .nil => []
  | .block b children next => (b, children) :: tops next

theorem sum_size_tops (f : Forest) : (f.tops.map fun e => 1 + e.2.size).sum = f.size := by
  induction f with
  | nil => rfl
  | block b children next _ hn => simp [tops, size, hn]

/-- Takes the block on top of the stack and puts those inside it in its place, first one on top. -/
def iterate : List (Block × Forest) → List Block
  | [] => []
  | (b, children) :: stack => b :: iterate (children.tops ++ stack)
termination_by stack => (stack.map fun e => 1 + e.2.size).sum
decreasing_by
  rw [List.map_append, List.sum_append, sum_size_tops]
  simp

theorem iterate_tops (f : Forest) (stack : List (Block × Forest)) :
    iterate (f.tops ++ stack) = f.walk ++ iterate stack := by
  induction f generalizing stack with
  | nil => rfl
  | block b children next hc hn =>
    rw [tops, List.cons_append, iterate, hc, hn, walk, List.cons_append, List.append_assoc]

theorem filter_closing (chain : List Block) : (closing chain).filter Mark.begins = [] := by
  simp [closing, Mark.begins]

theorem filter_unfold (chain : List Block) (f : Forest) :
    (f.unfold chain).filter Mark.begins = f.walk.map Block.mark := by
  induction f generalizing chain with
  | nil => exact filter_closing chain
  | block b children next hc hn =>
    have hend : (b.branch.closing chain).filter Mark.begins = [] := by
      unfold Branch.closing
      split
      · exact filter_closing chain
      · rfl
    have hb : b.mark.begins = true := rfl
    simp [unfold, walk, hend, hb, hc, hn]

end Forest

def SourceFile.iterBlocks (file : SourceFile) : List Block := Forest.iterate file.blocks.tops

theorem iterBlocks_eq_walk (file : SourceFile) : file.iterBlocks = file.blocks.walk := by
  have h := Forest.iterate_tops file.blocks []
  rw [List.append_nil, Forest.iterate, List.append_nil] at h
  exact h

theorem isChain_inTurn {around : Option Block} {earlier bs : List Block}
    (h : Forest.InTurn (Block.Fits around) earlier bs)
    (he : earlier.IsChain fun b b' => b.lineEnd = b'.lineStart) :
    (earlier ++ bs).IsChain fun b b' => b.lineEnd = b'.lineStart := by
  induction bs generalizing earlier with
  | nil => simpa using he
  | cons b bs ih =>
    obtain ⟨hb, hbs⟩ := h
    rw [List.append_cons]
    refine ih hbs (List.isChain_append.2 ⟨he, List.isChain_singleton b, ?_⟩)
    intro e hmem b' hb'
    obtain rfl := Option.some.inj hb'
    exact hb.joined e hmem

section

variable [ParserStack]

theorem eq_of_conditionOf {d : Directive} {text : String} {c : Condition}
    (h : Builder.conditionOf d text = .ok c) : c = Condition.ofDirective d text := by
  unfold Builder.conditionOf at h
  split at h
  · cases h
  · exact (Except.ok.inj h).symm

theorem condition_of_assemble {path sourcePath : String} {landmarks : List Landmark} {file : SourceFile}
    (h : (assemble path sourcePath landmarks).result = .ok file) :
    ∀ k ∈ file.blocks.walk, ∃ d text, k.condition = (Condition.ofDirective d text).formula? := by
  intro k hk
  obtain ⟨b, hrun, hbranches, hblocks⟩ := assemble_ok h
  obtain ⟨ms, hms, htold⟩ := Builder.told_run hrun
  have hbegins : k.mark ∈ (b.finished.unfold []).filter Mark.begins := by
    rw [Forest.filter_unfold, ← hblocks]
    exact List.mem_map_of_mem hk
  have hmark : k.mark ∈ ms := by
    have hfinished : b.told = b.finished.unfold [] := by rw [Builder.told, hbranches]; rfl
    rw [← hfinished, htold] at hbegins
    exact (List.mem_filter.1 hbegins).1
  have hlandmark : .ok k.mark ∈ landmarks.flatMap Landmark.marks := hms ▸ List.mem_map_of_mem hmark
  obtain ⟨m, -, hm⟩ := List.mem_flatMap.1 hlandmark
  cases m with
  | functionStart name line | functionEnd lineFeeds => cases hm
  | broken fault => cases List.mem_singleton.1 hm
  | directive d line text =>
    have hmarkOf : markOf d line text = .ok k.mark := (List.mem_singleton.1 hm).symm
    cases hd : d.branch? with
    | none =>
      rw [markOf_endif hd] at hmarkOf
      cases hmarkOf
    | some kind =>
      obtain ⟨t, c, -, hc, heq⟩ := (markOf_branch hd).1 hmarkOf
      refine ⟨d, t, ?_⟩
      rw [← eq_of_conditionOf hc]
      exact (Mark.branch.inj heq).2.1

theorem begins_mark {rootLine : Nat} {o : Occurrence} {mark : Mark}
    (h : o.mark rootLine = .ok mark) : mark.begins = o.directive.branch?.isSome := by
  obtain ⟨line, _, hm⟩ := bind_eq_ok.1 h
  cases hd : o.directive.branch? with
  | none =>
    rw [markOf_endif hd] at hm
    exact Except.ok.inj hm ▸ rfl
  | some kind =>
    obtain ⟨_, _, _, _, rfl⟩ := (markOf_branch hd).1 hm
    rfl

theorem filter_begins {rootLine : Nat} {os : List Occurrence} {ms : List Mark}
    (h : os.map (·.mark rootLine) = ms.map .ok) :
    (os.filter (·.directive.branch?.isSome)).map (·.mark rootLine) =
      (ms.filter Mark.begins).map .ok := by
  induction os generalizing ms with
  | nil =>
    obtain rfl := List.map_eq_nil_iff.1 h.symm
    rfl
  | cons o os ih =>
    cases ms with
    | nil => cases h
    | cons mark ms =>
      rw [List.map_cons, List.map_cons, List.cons.injEq] at h
      obtain ⟨ho, hos⟩ := h
      rw [List.filter_cons, List.filter_cons, begins_mark ho]
      split
      · rw [List.map_cons, List.map_cons, ho, ih hos]
      · exact ih hos

theorem unfold_blocks {path : String} {d : Xml.Document} {file : SourceFile}
    (h : (ofDocument path d).result = .ok file) :
    (directives d).map (·.mark d.tag.line) = (file.blocks.unfold []).map .ok ∧
    (∀ c ∈ file.chains, c.branches.IsChain fun b b' => b.lineEnd = b'.lineStart) ∧
    ((directives d).filter (·.directive.branch?.isSome)).map (·.mark d.tag.line) =
      file.iterBlocks.map fun b => .ok b.mark := by
  obtain ⟨b, hrun, hbranches, hblocks⟩ := assemble_ok h
  obtain ⟨ms, hms, htold⟩ := Builder.told_run hrun
  have hunfold : ms = file.blocks.unfold [] := by
    have hend : b.told = b.finished.unfold [] := by rw [Builder.told, hbranches]; rfl
    rw [hblocks, ← hend, htold]
    rfl
  have hmarks : (directives d).map (·.mark d.tag.line) = (file.blocks.unfold []).map .ok := by
    rw [← hunfold, ← hms, marks_landmarks (whole_of_marks hms)]
    rfl
  refine ⟨hmarks, fun c hc => ?_, ?_⟩
  · have hnil : Forest.InTurn (Block.Fits none) [] [] := trivial
    exact isChain_inTurn (Forest.inTurn_chains hnil (fits_of_assemble h) c hc) List.IsChain.nil
  · rw [filter_begins hmarks, Forest.filter_unfold, iterBlocks_eq_walk, List.map_map]
    rfl

end

theorem unfold_blocks_nestedChains :
    ∃ file, (ofDocument "f.c.xml" nestedChains).result = .ok file ∧
      (directives nestedChains).map (·.mark 1) = (file.blocks.unfold []).map .ok ∧
      (∀ c ∈ file.chains, c.branches.IsChain fun b b' => b.lineEnd = b'.lineStart) ∧
      ((directives nestedChains).filter (·.directive.branch?.isSome)).map (·.mark 1) =
        file.iterBlocks.map fun b => .ok b.mark := by
  have hok : (ofDocument "f.c.xml" nestedChains).result.isOk := by decide +kernel
  cases h : (ofDocument "f.c.xml" nestedChains).result with
  | error fault => rw [h] at hok; cases hok
  | ok file => exact ⟨file, rfl, unfold_blocks h⟩

end Variability.Code
