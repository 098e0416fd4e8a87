import Variability.Code.Block
import Variability.Formula.Truth

/-!
Chains of branches in a forest. A first branch begins a chain, any other branch continues the one
before it on its level.
-/

set_option autoImplicit false

namespace Variability.Code

def Branch.earlier (b : Branch) (chain : List Block) : List Block :=
  if b = .first then [] else chain

@[simp] theorem Branch.earlier_first (chain : List Block) : Branch.first.earlier chain = [] := rfl

structure Chain where
  around : Option Block
  branches : List Block

structure Fork where
  earlier : List Block
  taken : Block

/-- The way down to a block: the forks at the enclosing blocks, outermost first, and its own. -/
structure Route where
  enclosing : List Fork
  last : Fork

def Route.around (r : Route) : Option Block := r.enclosing.getLast?.map (·.taken)

namespace Forest

/-- `P` holds for each block with the block around it and the earlier branches of its chain. -/
def Each (P : Option Block → List Block → Block → Prop) : Option Block → List Block → Forest → Prop
  | _, _, .nil => True
  | around, chain, .block b children next =>
    P around (b.branch.earlier chain) b ∧ Each P (some b) [] children ∧
      Each P around (b.branch.earlier chain ++ [b]) next

def lastChain : List Block → Forest → List Block
  | chain, .nil => chain
  | chain, .block b _ next => lastChain (b.branch.earlier chain ++ [b]) next

theorem lastChain_append (chain : List Block) (f g : Forest) :
    lastChain chain (f.append g) = lastChain (lastChain chain f) g := by
  induction f generalizing chain with
  | nil => rfl
  | block b children next _ hn => exact hn (b.branch.earlier chain ++ [b])

theorem lastChain_snoc (chain : List Block) (f : Forest) (b : Block) (children : Forest) :
    lastChain chain (f.snoc b children) = b.branch.earlier (lastChain chain f) ++ [b] := by
  rw [snoc, lastChain_append]; rfl

variable {P : Option Block → List Block → Block → Prop}

theorem each_append (around : Option Block) (chain : List Block) (f g : Forest) :
    (f.append g).Each P around chain ↔
      f.Each P around chain ∧ g.Each P around (lastChain chain f) := by
  induction f generalizing around chain with
  | nil => simp [append, Each, lastChain]
  | block b children next _ hn => simp [append, Each, lastChain, hn, and_assoc]

theorem each_snoc {around : Option Block} {chain : List Block} {f : Forest} {b : Block}
    {children : Forest} (hf : f.Each P around chain)
    (hb : P around (b.branch.earlier (lastChain chain f)) b)
    (hc : children.Each P (some b) []) : (f.snoc b children).Each P around chain := by
  rw [snoc, each_append]
  exact ⟨hf, hb, hc, trivial⟩

theorem Each.replace {around around' : Option Block}
    (hP : ∀ earlier b, P around earlier b → P around' earlier b) {chain : List Block} {f : Forest}
    (h : f.Each P around chain) : f.Each P around' chain := by
  induction f generalizing chain with
  | nil => trivial
  | block b children next _ hn => exact ⟨hP _ _ h.1, h.2.1, hn h.2.2⟩

def routes : List Fork → List Block → Forest → List Route
  | _, _, .nil => []
  | enclosing, chain, .block b children next =>
    let here : Fork := ⟨b.branch.earlier chain, b⟩
    ⟨enclosing, here⟩ :: (routes (enclosing ++ [here]) [] children ++
      routes enclosing (b.branch.earlier chain ++ [b]) next)

theorem map_taken_routes (enclosing : List Fork) (chain : List Block) (f : Forest) :
    (f.routes enclosing chain).map (·.last.taken) = f.walk := by
  induction f generalizing enclosing chain with
  | nil => rfl
  | block b children next hc hn => simp [routes, walk, hc, hn]

theorem forall_routes {Q : List Fork → Prop}
    (hQ : ∀ enclosing earlier b, Q enclosing →
      P (enclosing.getLast?.map (·.taken)) earlier b → Q (enclosing ++ [⟨earlier, b⟩]))
    {enclosing : List Fork} {chain : List Block} {f : Forest} (h₀ : Q enclosing)
    (h : f.Each P (enclosing.getLast?.map (·.taken)) chain) :
    ∀ r ∈ f.routes enclosing chain,
      P r.around r.last.earlier r.last.taken ∧ Q r.enclosing ∧ Q (r.enclosing ++ [r.last]) := by
  induction f generalizing enclosing chain with
  | nil => simp [routes]
  | block b children next hc hn =>
    obtain ⟨hb, hchildren, hnext⟩ := h
    intro r hr
    rw [routes, List.mem_cons, List.mem_append] at hr
    rcases hr with rfl | hr | hr
    · exact ⟨hb, h₀, hQ _ _ _ h₀ hb⟩
    · exact hc (hQ _ _ _ h₀ hb) (by simpa using hchildren) r hr
    · exact hn h₀ hnext r hr

def ended (around : Option Block) : List Block → List Chain
  | [] => []
  | b :: bs => [⟨around, b :: bs⟩]

def chains : Option Block → List Block → Forest → List Chain
  | around, chain, .nil => ended around chain
  | around, chain, .block b children next =>
    (if b.branch = .first then ended around chain else []) ++ chains (some b) [] children ++
      chains around (b.branch.earlier chain ++ [b]) next

theorem flatMap_branches_ended (around : Option Block) (chain : List Block) :
    (ended around chain).flatMap (·.branches) = chain := by
  cases chain <;> simp [ended]

/-- Every block is in exactly one chain. -/
theorem flatMap_branches_chains (around : Option Block) (chain : List Block) (f : Forest) :
    ((f.chains around chain).flatMap (·.branches)).Perm (chain ++ f.walk) := by
  induction f generalizing around chain with
  | nil => simp [chains, walk, flatMap_branches_ended]
  | block b children next hc hn =>
    have hchildren := hc (some b) []
    have hnext := hn around (b.branch.earlier chain ++ [b])
    have hinside : (children.walk ++ (b :: next.walk)).Perm (b :: (children.walk ++ next.walk)) :=
      List.perm_middle
    rw [chains, List.flatMap_append, List.flatMap_append, walk]
    -- a first branch ends the open chain, any other one joins it
    by_cases hb : b.branch = .first
    · rw [if_pos hb, flatMap_branches_ended, List.append_assoc]
      simp only [Branch.earlier, if_pos hb, List.nil_append] at hchildren hnext ⊢
      exact ((hchildren.append hnext).trans hinside).append_left chain
    · rw [if_neg hb]
      simp only [Branch.earlier, if_neg hb, List.flatMap_nil, List.nil_append] at hchildren hnext ⊢
      refine (hchildren.append hnext).trans ?_
      rw [List.append_assoc chain]
      exact (List.perm_append_comm_assoc _ _ _).trans (hinside.append_left chain)

def InTurn (P : List Block → Block → Prop) : List Block → List Block → Prop
  | _, [] => True
  | earlier, b :: bs => P earlier b ∧ InTurn P (earlier ++ [b]) bs

theorem inTurn_concat {P : List Block → Block → Prop} {earlier bs : List Block} {b : Block} :
    InTurn P earlier (bs ++ [b]) ↔ InTurn P earlier bs ∧ P (earlier ++ bs) b := by
  induction bs generalizing earlier with
  | nil => simp [InTurn]
  | cons c bs ih => simp [InTurn, ih, and_assoc]

theorem inTurn_ended {around : Option Block} {chain : List Block}
    (hc : InTurn (P around) [] chain) :
    ∀ c ∈ ended around chain, InTurn (P c.around) [] c.branches := by
  intro c hmem
  cases chain with
  | nil => simp [ended] at hmem
  | cons b bs =>
    obtain rfl := List.mem_singleton.1 hmem
    exact hc

theorem inTurn_chains {around : Option Block} {chain : List Block} {f : Forest}
    (hc : InTurn (P around) [] chain) (h : f.Each P around chain) :
    ∀ c ∈ f.chains around chain, InTurn (P c.around) [] c.branches := by
  induction f generalizing around chain with
  | nil => exact inTurn_ended hc
  | block b children next ihc ihn =>
    obtain ⟨hb, hchildren, hnext⟩ := h
    have hearlier : InTurn (P around) [] (b.branch.earlier chain) := by
      unfold Branch.earlier
      split
      · trivial
      · exact hc
    intro c hmem
    rw [chains, List.mem_append, List.mem_append] at hmem
    rcases hmem with (hmem | hmem) | hmem
    · split at hmem
      · exact inTurn_ended hc c hmem
      · simp at hmem
    · exact @ihc (some b) [] trivial hchildren c hmem
    · exact ihn (inTurn_concat.2 ⟨hearlier, hb⟩) hnext c hmem

theorem inTurn_of_mem_chains {around : Option Block} {f : Forest} (h : f.Each P around []) :
    ∀ c ∈ f.chains around [], InTurn (P c.around) [] c.branches :=
  inTurn_chains trivial h

end Forest
end Variability.Code
