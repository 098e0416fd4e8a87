import Variability.Formula.Names
import Variability.Proofs.Code.Builder
import Variability.Proofs.Formula.Compositional

set_option autoImplicit false

namespace Variability

namespace Formula

variable {name : String}

theorem mem_occurrences_conjoin {f : Formula} {fs : List Formula} :
    name ∈ (conjoin f fs).occurrences ↔ name ∈ f.occurrences ∨ ∃ g ∈ fs, name ∈ g.occurrences := by
  induction fs generalizing f with
  | nil => simp [conjoin]
  | cons g fs ih => simp [conjoin, ih, occurrences, or_assoc]

theorem mem_occurrences_conjunct {f : Option Formula} :
    (∃ g, conjunct? f = some g ∧ name ∈ g.occurrences) ↔ ∃ g, f = some g ∧ name ∈ g.occurrences := by
  cases f with
  | none => simp [conjunct?]
  | some f => cases f <;> simp [conjunct?, occurrences]

theorem mem_occurrences_conjunction {fs : List (Option Formula)} :
    name ∈ (conjunction fs).occurrences ↔ ∃ f, some f ∈ fs ∧ name ∈ f.occurrences := by
  have hconjuncts : (∃ g ∈ fs.filterMap conjunct?, name ∈ g.occurrences) ↔
      ∃ f, some f ∈ fs ∧ name ∈ f.occurrences := by
    constructor
    · rintro ⟨g, hg, hname⟩
      obtain ⟨f, hf, hfg⟩ := List.mem_filterMap.1 hg
      obtain ⟨k, rfl, hk⟩ := mem_occurrences_conjunct.1 ⟨g, hfg, hname⟩
      exact ⟨k, hf, hk⟩
    · rintro ⟨f, hf, hname⟩
      obtain ⟨g, hfg, hg⟩ := mem_occurrences_conjunct.2 ⟨f, rfl, hname⟩
      exact ⟨g, List.mem_filterMap.2 ⟨_, hf, hfg⟩, hg⟩
  rw [← hconjuncts, conjunction]
  split
  · next h => simp [h, occurrences]
  · next f rest h => simp [h, mem_occurrences_conjoin]

end Formula

theorem mem_conditionNames {condition : Option Formula} {name : String} :
    name ∈ conditionNames condition ↔ ∃ f, condition = some f ∧ name ∈ f.occurrences := by
  cases condition <;> simp [conditionNames, Formula.mem_names]

theorem forall_conditionNames {condition : Option Formula} {S : String → Prop} :
    (∀ name ∈ conditionNames condition, S name) ↔
      ∀ f ∈ condition, ∀ name ∈ f.occurrences, S name := by
  cases condition <;> simp [conditionNames, Formula.mem_names]

namespace Code

variable {name : String}

theorem mem_conditionNames_negated {earlier : List (Option Formula)} :
    (∃ f, some f ∈ (earlier.filterMap id).map (fun f => some f.negate) ∧ name ∈ f.occurrences) ↔
      ∃ c ∈ earlier, name ∈ conditionNames c := by
  simp only [List.mem_map, List.mem_filterMap, id, exists_eq_right, mem_conditionNames]
  constructor
  · rintro ⟨f, ⟨g, hg, hgf⟩, hname⟩
    obtain rfl := Option.some.inj hgf
    exact ⟨_, hg, g, rfl, by rwa [Formula.occurrences_negate] at hname⟩
  · rintro ⟨c, hc, f, rfl, hname⟩
    exact ⟨f.negate, ⟨f, hc, rfl⟩, by rwa [Formula.occurrences_negate]⟩

theorem mem_conditionNames_branchPresence {around own : Option Formula}
    {earlier : List (Option Formula)} :
    name ∈ conditionNames (some (Builder.branchPresence around earlier own)) ↔
      name ∈ conditionNames around ∨ (∃ c ∈ earlier, name ∈ conditionNames c) ∨
        name ∈ conditionNames own := by
  rw [conditionNames, Formula.mem_names, Builder.branchPresence, Formula.mem_occurrences_conjunction,
    ← mem_conditionNames_negated]
  simp only [List.cons_append, List.mem_cons, List.mem_append, List.not_mem_nil, or_false, or_and_right,
    exists_or, mem_conditionNames, eq_comm]

theorem branchPresence_of_conditions {P : Formula → Prop} (hP : Formula.Compositional P)
    {around own : Option Formula} {earlier : List (Option Formula)} (haround : ∀ p ∈ around, P p)
    (hearlier : ∀ o ∈ earlier, ∀ c ∈ o, P c) (hown : ∀ c ∈ own, P c) :
    P (Builder.branchPresence around earlier own) := by
  refine hP.conjunction fun o ho c hc => ?_
  rw [List.cons_append, List.mem_cons, List.mem_append, List.mem_singleton] at ho
  rcases ho with rfl | ho | rfl
  · exact haround c hc
  · obtain ⟨e, he, rfl⟩ := List.mem_map.1 ho
    obtain ⟨o, ho, rfl⟩ := List.mem_filterMap.1 he
    obtain rfl := Option.some.inj hc
    exact hP.negate e (hearlier _ ho e rfl)
  · exact hown c hc

/-- What holds of the presence condition around, of the conditions of the earlier branches and of all own
conditions, and is handed on by them, holds of the presence conditions. -/
theorem Forest.presence_of_conditions {P : Formula → Prop} (hP : Formula.Compositional P)
    {around : Option Block} {chain : List Block} {f : Forest} (hfits : f.Each Block.Fits around chain)
    (haround : ∀ p ∈ presenceAround around, P p) (hchain : ∀ b ∈ chain, ∀ c ∈ b.condition, P c)
    (hown : ∀ b ∈ f.walk, ∀ c ∈ b.condition, P c) : ∀ b ∈ f.walk, ∀ p ∈ b.presence, P p := by
  induction f generalizing around chain with
  | nil => simp [walk]
  | block b children next hchildren hnext =>
    obtain ⟨hb, hinside, hbehind⟩ := hfits
    have hearlier : ∀ e ∈ b.branch.earlier chain, ∀ c ∈ e.condition, P c := by
      intro e he
      unfold Branch.earlier at he
      split at he
      · cases he
      · exact hchain e he
    have hcondition : ∀ c ∈ b.condition, P c := hown b (by simp [walk])
    have hpresence : ∀ p ∈ b.presence, P p := by
      intro p hp
      rw [hb.presence] at hp
      obtain rfl := Option.some.inj hp
      refine branchPresence_of_conditions hP haround (fun o ho => ?_) hcondition
      obtain ⟨e, he, rfl⟩ := List.mem_map.1 ho
      exact hearlier e he
    intro d hd
    rw [walk, List.mem_cons, List.mem_append] at hd
    rcases hd with rfl | hd | hd
    · exact hpresence
    · exact hchildren hinside hpresence (by simp) (fun k hk => hown k (by simp [walk, hk])) d hd
    · refine hnext hbehind haround (fun e he => ?_) (fun k hk => hown k (by simp [walk, hk])) d hd
      rcases List.mem_append.1 he with he | he
      · exact hearlier e he
      · rw [List.mem_singleton.1 he]
        exact hcondition

theorem compositional_occurrences (S : String → Prop) :
    Formula.Compositional fun f => ∀ name ∈ f.occurrences, S name where
  tru := by simp [Formula.occurrences]
  negate f hf := by rwa [Formula.occurrences_negate]
  conj l r hl hr := by
    intro name hname
    exact (List.mem_append.1 hname).elim (hl name) (hr name)

theorem Forest.names_presence {S : String → Prop} {around : Option Block} {chain : List Block}
    {f : Forest} (hfits : f.Each Block.Fits around chain)
    (haround : ∀ name ∈ conditionNames (presenceAround around), S name)
    (hchain : ∀ b ∈ chain, ∀ name ∈ conditionNames b.condition, S name)
    (hown : ∀ b ∈ f.walk, ∀ name ∈ conditionNames b.condition, S name) :
    ∀ b ∈ f.walk, ∀ name ∈ conditionNames b.presence, S name := by
  simp only [forall_conditionNames] at haround hchain hown ⊢
  exact presence_of_conditions (compositional_occurrences S) hfits haround hchain hown

namespace Builder

def met (b : Builder) : List Block :=
  b.finished.walk ++ b.branches.flatMap fun o => o.block :: o.siblings.walk

/-- A presence condition is that of a block met so far, or it is asked outside of all blocks. -/
def Placed (b : Builder) (presence : Option Formula) : Prop :=
  presence = some .tru ∨ ∃ k ∈ b.met, k.presence = presence

variable {b b' : Builder} {presence : Option Formula}

theorem placed_presence (b : Builder) : b.Placed b.presence := by
  unfold Builder.presence
  split
  · exact .inl rfl
  · next o rest hb => exact .inr ⟨o.block, by simp [met, hb], rfl⟩

theorem Placed.openBranch (h : b.Placed presence) (branch : Branch) (line : Int) (c : Condition)
    (earlier : List (Option Formula)) : (b.openBranch branch line c earlier).Placed presence := by
  refine h.imp_right fun ⟨k, hk, hpresence⟩ => ⟨k, ?_, hpresence⟩
  rw [met, List.mem_append] at hk
  -- the finished blocks are now before the new one on its level
  obtain ⟨o, hsiblings, hbranches⟩ : ∃ o : OpenBranch, o.siblings = b.finished ∧
      (b.openBranch branch line c earlier).branches = o :: b.branches := ⟨_, rfl, rfl⟩
  rw [met, List.mem_append, hbranches, List.flatMap_cons, List.mem_append, hsiblings]
  exact .inr (hk.imp_left (List.mem_cons_of_mem _))

theorem Placed.closeBranch {closed : Builder} {line : Int} {earlier : List (Option Formula)}
    (h : b.Placed presence) (hclose : b.closeBranch line = .ok (earlier, closed)) :
    closed.Placed presence := by
  unfold Builder.closeBranch at hclose
  split at hclose
  · cases hclose
  · next o rest hb =>
    obtain ⟨-, rfl⟩ := Prod.mk.inj (Except.ok.inj hclose)
    refine h.imp_right fun ⟨k, hk, hpresence⟩ => ?_
    simp only [met, hb, List.flatMap_cons, List.mem_append, List.mem_cons] at hk
    simp only [met, Forest.walk_snoc, List.mem_append, List.mem_cons]
    rcases hk with hk | (rfl | hk) | hk
    · exact ⟨k, .inl (.inr (.inr hk)), hpresence⟩
    · exact ⟨{ o.block with lineEnd := line }, .inl (.inr (.inl rfl)), hpresence⟩
    · exact ⟨k, .inl (.inl hk), hpresence⟩
    · exact ⟨k, .inr hk, hpresence⟩

theorem functions_closeBranch {closed : Builder} {line : Int} {earlier : List (Option Formula)}
    (hclose : b.closeBranch line = .ok (earlier, closed)) : closed.functions = b.functions := by
  unfold Builder.closeBranch at hclose
  split at hclose
  · cases hclose
  · obtain ⟨-, rfl⟩ := Prod.mk.inj (Except.ok.inj hclose)
    rfl

theorem Placed.passes {ms : List Mark} (h : b.Placed presence) (hp : b.Passes ms b') :
    b'.Placed presence := by
  cases hp with
  | function hbranches hfinished =>
    unfold Placed met
    rw [hbranches, hfinished]
    exact h
  | opened line c => exact h.openBranch .first line c []
  | continued hkind hbare hclose => exact (h.closeBranch hclose).openBranch _ _ _ _
  | ended hclose => exact h.closeBranch hclose

theorem functions_passes {mark : Mark} {ms : List Mark} (hp : b.Passes (mark :: ms) b') :
    b'.functions = b.functions := by
  cases hp with
  | opened line c => rfl
  | continued hkind hbare hclose => exact (functions_closeBranch hclose :)
  | ended hclose => exact functions_closeBranch hclose

theorem mem_ownedFunctions {functions : List OpenFunction} {blocks : Forest} {f : Function}
    (h : f ∈ ownedFunctions functions blocks) :
    (∃ o ∈ functions, f.presence = o.presence) ∧ ∀ b ∈ f.blocks, b ∈ blocks.walk := by
  obtain ⟨i, hi, rfl⟩ := List.mem_mapIdx.1 h
  exact ⟨⟨functions[i], List.getElem_mem hi, rfl⟩, fun b hb => (List.mem_filter.1 hb).1⟩

variable [ParserStack]

theorem presence_step {m : Landmark} (h : b.step m = .ok b') {f : OpenFunction}
    (hf : f ∈ b'.functions) :
    (∃ g ∈ b.functions, f.presence = g.presence) ∨ f.presence = b.presence := by
  cases m with
  | broken fault => cases h
  | functionStart name line =>
    obtain rfl := Except.ok.inj h
    rcases List.mem_append.1 hf with hf | hf
    · exact .inl ⟨f, hf, rfl⟩
    · rw [List.mem_singleton.1 hf]
      exact .inr rfl
  | functionEnd lineFeeds =>
    rw [step] at h
    split at h
    · obtain rfl := Except.ok.inj h
      exact .inl ⟨f, hf, rfl⟩
    · next i rest _ =>
      obtain rfl := Except.ok.inj h
      obtain ⟨j, hj⟩ := List.mem_iff_getElem?.1 hf
      rw [List.getElem?_modify] at hj
      obtain ⟨g, hg, rfl⟩ := Option.map_eq_some_iff.1 hj
      refine .inl ⟨g, List.mem_of_getElem? hg, ?_⟩
      split <;> rfl
  | directive d line text =>
    obtain ⟨ms, hmarks, hp⟩ := passes_of_step h
    cases ms with
    | nil => cases hmarks
    | cons mark ms => exact .inl ⟨f, functions_passes hp ▸ hf, rfl⟩

theorem placed_run {landmarks : List Landmark} (hr : b.run landmarks = (b', none))
    (h : ∀ f ∈ b.functions, b.Placed f.presence) : ∀ f ∈ b'.functions, b'.Placed f.presence := by
  induction landmarks generalizing b with
  | nil => cases hr; exact h
  | cons m landmarks ih =>
    rw [run] at hr
    cases hstep : b.step m with
    | error fault => simp [hstep] at hr
    | ok b₁ =>
      obtain ⟨ms, -, hp⟩ := passes_of_step hstep
      rw [hstep] at hr
      refine ih hr fun f hf => ?_
      rcases presence_step hstep hf with ⟨g, hg, hpresence⟩ | hpresence
      · exact hpresence ▸ (h g hg).passes hp
      · exact hpresence ▸ (placed_presence b).passes hp

end Builder

def SourceFile.Asks (file : SourceFile) (name : String) : Prop :=
  ∃ b ∈ file.blocks.walk, name ∈ conditionNames b.condition

variable {path sourcePath : String} {landmarks : List Landmark} {file : SourceFile}

variable [ParserStack]

theorem asks_of_block (h : (assemble path sourcePath landmarks).result = .ok file) :
    ∀ b ∈ file.blocks.walk, ∀ name ∈ conditionNames b.presence, file.Asks name :=
  Forest.names_presence (fits_of_assemble h) (by simp [presenceAround, conditionNames, Formula.names,
    Formula.occurrences, firstOccurrences]) (by simp) fun b hb _ hname => ⟨b, hb, hname⟩

/-- A function is compiled like some block of its file, or outside of all. -/
theorem presence_of_function (h : (assemble path sourcePath landmarks).result = .ok file) {f : Function}
    (hf : f ∈ file.functions) :
    f.presence = some .tru ∨ ∃ k ∈ file.blocks.walk, k.presence = f.presence := by
  obtain ⟨b, hrun, hbranches, rfl⟩ := assemble_eq h
  obtain ⟨⟨o, ho, hpresence⟩, -⟩ := Builder.mem_ownedFunctions hf
  have hplaced := Builder.placed_run hrun (by simp) o ho
  simpa [Builder.Placed, Builder.met, hbranches, ← hpresence] using hplaced

theorem asks_of_function (h : (assemble path sourcePath landmarks).result = .ok file) {f : Function}
    (hf : f ∈ file.functions) :
    (∀ name ∈ conditionNames f.presence, file.Asks name) ∧ ∀ b ∈ f.blocks, b ∈ file.blocks.walk := by
  constructor
  · intro name hname
    rcases presence_of_function h hf with htru | ⟨k, hk, hpresence⟩
    · simp [htru, conditionNames, Formula.names, Formula.occurrences, firstOccurrences] at hname
    · exact asks_of_block h k hk name (hpresence ▸ hname)
  · obtain ⟨b, -, -, rfl⟩ := assemble_eq h
    exact (Builder.mem_ownedFunctions hf).2

end Code
end Variability
