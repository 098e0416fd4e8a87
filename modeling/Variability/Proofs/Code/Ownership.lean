import Variability.Proofs.Code.Closing
import Variability.Proofs.Code.Element
import Variability.Proofs.Code.Origin

/-!
Functions and the blocks they own. Functions are numbered in the order in which they begin, and a
block is owned by the innermost function that is open when its directive is met.
-/

set_option autoImplicit false

namespace Variability.Code

def OpenFunction.begun (f : OpenFunction) : OpenFunction := { f with lineEnd := f.lineStart }

namespace Builder

variable {b b' : Builder}

/-- What a landmark does to the functions; all other landmarks are directives. -/
inductive Registers (b b' : Builder) : Landmark → Prop where
  | begins {name : String} {line : Int}
      (hfunctions : b'.functions.map OpenFunction.begun =
        b.functions.map OpenFunction.begun ++ [⟨name, line, line, b.presence⟩])
      (hopen : b'.openFunctions = b.functions.length :: b.openFunctions) :
      Registers b b' (.functionStart name line)
  | ends {lineFeeds : Nat}
      (hfunctions : b'.functions.map OpenFunction.begun = b.functions.map OpenFunction.begun)
      (hopen : b'.openFunctions = b.openFunctions.tail) : Registers b b' (.functionEnd lineFeeds)
  | directive {d : Directive} {line : Int} {text : Except Fault String}
      (hfunctions : b'.functions.map OpenFunction.begun = b.functions.map OpenFunction.begun)
      (hopen : b'.openFunctions = b.openFunctions) : Registers b b' (.directive d line text)

theorem openFunctions_closeBranch {closed : Builder} {line : Int} {earlier : List (Option Formula)}
    (hclose : b.closeBranch line = .ok (earlier, closed)) : closed.openFunctions = b.openFunctions := by
  unfold closeBranch at hclose
  split at hclose
  · cases hclose
  · obtain ⟨-, rfl⟩ := Prod.mk.inj (Except.ok.inj hclose)
    rfl

theorem openFunctions_passes {mark : Mark} {ms : List Mark} (hp : b.Passes (mark :: ms) b') :
    b'.openFunctions = b.openFunctions := by
  cases hp with
  | opened line c => rfl
  | continued hkind hbare hclose => exact (openFunctions_closeBranch hclose :)
  | ended hclose => exact openFunctions_closeBranch hclose

theorem Registers.length {m : Landmark} (h : b.Registers b' m) :
    b'.functions.length = b.functions.length + if m.startsFunction then 1 else 0 := by
  cases h with
  | begins hfunctions hopen =>
    simpa [Landmark.startsFunction] using congrArg List.length hfunctions
  | ends hfunctions hopen =>
    simpa [Landmark.startsFunction] using congrArg List.length hfunctions
  | directive hfunctions hopen =>
    simpa [Landmark.startsFunction] using congrArg List.length hfunctions

theorem Registers.isPrefix {m : Landmark} (h : b.Registers b' m) :
    b.functions.map OpenFunction.begun <+: b'.functions.map OpenFunction.begun := by
  cases h with
  | begins hfunctions hopen => exact hfunctions ▸ List.prefix_append _ _
  | ends hfunctions hopen => exact hfunctions ▸ List.prefix_refl _
  | directive hfunctions hopen => exact hfunctions ▸ List.prefix_refl _

theorem owners_passes {ms : List Mark} (hp : b.Passes ms b') :
    b'.walked.map (·.owner) =
      b.walked.map (·.owner) ++ (ms.filter Mark.begins).map fun _ => b.openFunctions.head? := by
  have hopened : ∀ (b : Builder) kind line c earlier,
      (b.openBranch kind line c earlier).walked.map (·.owner) =
        b.walked.map (·.owner) ++ [b.openFunctions.head?] := by
    intro b kind line c earlier
    simp [walked, openBranch, walkedBefore, Forest.walk]
  have hclosed : ∀ {line earlier closed}, b.closeBranch line = .ok (earlier, closed) →
      closed.walked.map (·.owner) = b.walked.map (·.owner) := by
    intro line earlier closed hclose
    unfold closeBranch at hclose
    split at hclose
    · cases hclose
    · next o rest hb =>
      obtain ⟨-, rfl⟩ := Prod.mk.inj (Except.ok.inj hclose)
      simp [walked, walkedBefore, hb, Forest.walk_snoc]
  cases hp with
  | function hbranches hfinished => simp [walked, hbranches, hfinished]
  | opened line c => exact hopened b .first line c []
  | continued hkind hbare hclose =>
    rw [hopened, hclosed hclose, openFunctions_closeBranch hclose]
    rfl
  | ended hclose => simp [hclosed hclose, Mark.begins]

structure Numbered (b : Builder) : Prop where
  opened : ∀ i ∈ b.openFunctions, i < b.functions.length
  owners : ∀ owner ∈ b.walked.map (·.owner), ∀ i ∈ owner, i < b.functions.length

theorem numbered_empty : Numbered {} := ⟨by simp, by simp [walked, walkedBefore, Forest.walk]⟩

variable [ParserStack]

theorem registers_of_step {m : Landmark} (h : b.step m = .ok b') : b.Registers b' m := by
  cases m with
  | broken fault => cases h
  | functionStart name line =>
    obtain rfl := Except.ok.inj h
    exact .begins (by simp [OpenFunction.begun]) rfl
  | functionEnd lineFeeds =>
    rw [step] at h
    split at h
    · next hopen =>
      obtain rfl := Except.ok.inj h
      exact .ends rfl (by rw [hopen]; rfl)
    · next i rest hopen =>
      obtain rfl := Except.ok.inj h
      refine .ends (List.ext_getElem? fun j => ?_) (by rw [hopen]; rfl)
      rw [List.getElem?_map, List.getElem?_map, List.getElem?_modify]
      cases b.functions[j]? with
      | none => rfl
      | some f =>
        refine congrArg some ?_
        split <;> rfl
  | directive d line text =>
    obtain ⟨ms, hmarks, hp⟩ := passes_of_step h
    cases ms with
    | nil => cases hmarks
    | cons mark ms => exact .directive (by rw [functions_passes hp]) (openFunctions_passes hp)

theorem run_keeps {I : Builder → Prop} {landmarks : List Landmark}
    (hstep : ∀ b b', ∀ m ∈ landmarks, I b → b.step m = .ok b' → I b')
    (h : b.run landmarks = (b', none)) (h₀ : I b) : I b' := by
  induction landmarks generalizing b with
  | nil => cases h; exact h₀
  | cons m landmarks ih =>
    obtain ⟨b₁, hm, h⟩ := run_cons_ok h
    exact ih (fun b b' m hmem => hstep b b' m (List.mem_cons_of_mem _ hmem)) h
      (hstep b b₁ m List.mem_cons_self h₀ hm)

theorem length_functions_run {landmarks : List Landmark} (h : b.run landmarks = (b', none)) :
    b'.functions.length = b.functions.length + landmarks.countP Landmark.startsFunction := by
  induction landmarks generalizing b with
  | nil => cases h; rfl
  | cons m landmarks ih =>
    obtain ⟨b₁, hstep, h⟩ := run_cons_ok h
    rw [ih h, (registers_of_step hstep).length, List.countP_cons]
    omega

/-- Functions that began are there until the end, and differ then in their last lines only. -/
theorem functions_run {landmarks : List Landmark} (h : b.run landmarks = (b', none)) :
    b.functions.map OpenFunction.begun <+: b'.functions.map OpenFunction.begun :=
  run_keeps (I := fun k => b.functions.map OpenFunction.begun <+: k.functions.map OpenFunction.begun)
    (fun _ _ _ _ hk hstep => hk.trans (registers_of_step hstep).isPrefix) h (List.prefix_refl _)

theorem Numbered.step {m : Landmark} (h : b.Numbered) (hstep : b.step m = .ok b') : b'.Numbered := by
  have hregisters := registers_of_step hstep
  have hlength : b.functions.length ≤ b'.functions.length := by
    rw [hregisters.length]
    omega
  obtain ⟨ms, -, hp⟩ := passes_of_step hstep
  refine ⟨fun i hi => ?_, fun owner howner i hi => ?_⟩
  · cases hregisters with
    | begins hfunctions hopen =>
      have hlonger := congrArg List.length hfunctions
      simp only [List.length_map, List.length_append, List.length_singleton] at hlonger
      rw [hopen] at hi
      rcases List.mem_cons.1 hi with rfl | hi
      · omega
      · exact Nat.lt_of_lt_of_le (h.opened i hi) hlength
    | ends hfunctions hopen =>
      exact Nat.lt_of_lt_of_le (h.opened i (List.mem_of_mem_tail (hopen ▸ hi))) hlength
    | directive hfunctions hopen => exact Nat.lt_of_lt_of_le (h.opened i (hopen ▸ hi)) hlength
  · rw [owners_passes hp, List.mem_append] at howner
    refine Nat.lt_of_lt_of_le ?_ hlength
    rcases howner with howner | howner
    · exact h.owners owner howner i hi
    · obtain ⟨_, -, rfl⟩ := List.mem_map.1 howner
      exact h.opened i (List.mem_of_mem_head? hi)

theorem Numbered.run {landmarks : List Landmark} (h : b.Numbered)
    (hrun : b.run landmarks = (b', none)) : b'.Numbered :=
  run_keeps (I := Numbered) (fun _ _ _ _ hk hstep => hk.step hstep) hrun h

end Builder

namespace Forest

variable {i : Nat} {around : Option Block} {f : Forest}

theorem Belongs.not_leads (h : f.Belongs (· = some i) around)
    (haround : around.bind (·.owner) = some i) : ∀ b ∈ f.walk, b.leads = false := by
  induction f generalizing around with
  | nil => simp [walk]
  | block b children next hc hn =>
    obtain ⟨hb, hchildren, hnext⟩ := belongs_block.1 h
    simp only [walk, List.mem_cons, List.mem_append]
    rintro k (rfl | hk | hk)
    · rw [hb.leads, hb.owner, haround]
      simp
    · exact hc hchildren hb.owner k hk
    · exact hn hnext haround k hk

theorem Belongs.pick_leading (h : f.Belongs (· = some i) around)
    (haround : around.bind (·.owner) ≠ some i) :
    f.pick (fun b => b.owner = some i && b.leads) = f := by
  induction f with
  | nil => rfl
  | block b children next _ hn =>
    obtain ⟨hb, hchildren, hnext⟩ := belongs_block.1 h
    have hleads : b.leads = true := by
      rw [hb.leads, hb.owner]
      simpa using haround
    have hnone := hchildren.not_leads hb.owner
    rw [pick, if_pos (by simp [hb.owner, hleads]), pick_eq_nil fun k hk => by simp [hnone k hk],
      hn hnext]
    rfl

/-- A stretch that holds all blocks of a function, and no other ones, is what the function has. -/
theorem Inlaid.owned {whole earlier later : Forest} {before behind : List Block}
    (h : Inlaid whole before around earlier f later behind) (hf : f.Belongs (· = some i) around)
    (hbefore : ∀ b ∈ before ++ earlier.walk, b.owner ≠ some i)
    (hbehind : ∀ b ∈ later.walk ++ behind, b.owner ≠ some i) :
    whole.pick (fun b => b.owner = some i && b.leads) = f ∧
      whole.walk.filter (fun b => b.owner = some i) = f.walk := by
  have haround : around.bind (·.owner) ≠ some i := by
    rw [h.stands.around_eq]
    cases hlast : before.getLast? with
    | none => simp
    | some b => exact hbefore b (List.mem_append_left _ (List.mem_of_getLast? hlast))
  constructor
  · rw [h.pick (fun b hb => by simp [hbefore b hb]) (fun b hb => by simp [hbehind b hb]),
      hf.pick_leading haround]
  · have hown : f.walk.filter (fun b => b.owner = some i) = f.walk :=
      List.filter_eq_self.2 fun b hb => by simp [hf.owner b hb]
    have hnone {bs : List Block} (hbs : ∀ b ∈ bs, b.owner ≠ some i) :
        bs.filter (fun b => b.owner = some i) = [] :=
      List.filter_eq_nil_iff.2 fun b hb => by simp [hbs b hb]
    rw [h.walk, List.filter_append (before ++ earlier.walk), List.filter_append f.walk, hown,
      hnone hbefore, hnone hbehind,
      List.nil_append, List.append_nil]

end Forest
end Variability.Code
