import Variability.Proofs.Code.Unfolding

/-!
Levels of a forest. A level stands inside the block whose directive comes last before it, or it is
the outermost one.
-/

set_option autoImplicit false

namespace Variability.Code

def Block.begun (b : Block) : Block := { b with lineEnd := b.lineStart }

theorem Block.mark_of_begun {b b' : Block} (h : b.begun = b'.begun) : b.mark = b'.mark :=
  (congrArg Block.mark h :)

theorem Block.owner_of_begun {b b' : Block} (h : b.begun = b'.begun) : b.owner = b'.owner :=
  (congrArg Block.owner h :)

namespace Forest

variable {P : Option Block → List Block → Block → Prop}

theorem Each.forall_walk {R : Block → Prop} {around : Option Block} {chain : List Block} {f : Forest}
    (h : f.Each P around chain) (hR : ∀ around earlier b, P around earlier b → R b) :
    ∀ b ∈ f.walk, R b := by
  induction f generalizing around chain with
  | nil => simp [walk]
  | block b children next hc hn =>
    obtain ⟨hb, hchildren, hnext⟩ := h
    simp only [walk, List.mem_cons, List.mem_append]
    rintro k (rfl | hk | hk)
    · exact hR _ _ _ hb
    · exact hc hchildren k hk
    · exact hn hnext k hk

/-- What holds of each block may be put in other words, and those for the outermost blocks may tell of
another block around them. -/
theorem Each.convert {P' : Option Block → List Block → Block → Prop} {around around' : Option Block}
    {chain : List Block} {f : Forest} (h : f.Each P around chain)
    (hP : ∀ earlier b, P around earlier b → P' around' earlier b)
    (hinside : ∀ k earlier b, P (some k) earlier b → P' (some k) earlier b) :
    f.Each P' around' chain := by
  induction f generalizing around around' chain with
  | nil => trivial
  | block b children next hc hn => exact ⟨hP _ _ h.1, hc h.2.1 (hinside b), hn h.2.2 hP⟩

def Anew : Forest → Prop
  | .nil => True
  | .block b _ _ => b.branch = .first

theorem Anew.each {f : Forest} (hf : f.Anew) {around : Option Block} {chain : List Block}
    (h : f.Each P around chain) : f.Each P around [] := by
  cases f with
  | nil => trivial
  | block b children next =>
    have hfirst : b.branch = .first := hf
    simp only [Each, hfirst, Branch.earlier_first] at h ⊢
    exact h

theorem unfold_append (chain : List Block) (f : Forest) {g : Forest} (hg : g.Anew) :
    (f.append g).unfold chain = f.unfold chain ++ g.unfold [] := by
  induction f generalizing chain with
  | nil =>
    cases g with
    | nil => simp [append, unfold]
    | block b children next =>
      have hfirst : b.branch = .first := hg
      simp [append, unfold, Branch.closing, hfirst]
  | block b children next _ hn => simp [append, unfold, hn]

theorem chains_append (around : Option Block) (chain : List Block) (f : Forest) {g : Forest}
    (hg : g.Anew) : (f.append g).chains around chain = f.chains around chain ++ g.chains around [] := by
  induction f generalizing chain with
  | nil =>
    cases g with
    | nil => simp [append, chains, ended]
    | block b children next =>
      have hfirst : b.branch = .first := hg
      simp [append, chains, ended, hfirst]
  | block b children next _ hn => simp [append, chains, hn]

theorem pick_append (p : Block → Bool) (f g : Forest) :
    (f.append g).pick p = (f.pick p).append (g.pick p) := by
  induction f with
  | nil => rfl
  | block b children next _ hn =>
    rw [append, pick, pick, hn]
    split
    · simp [append, append_assoc]
    · rw [append_assoc]

theorem pick_eq_nil {p : Block → Bool} {f : Forest} (h : ∀ b ∈ f.walk, p b = false) :
    f.pick p = .nil := by
  induction f with
  | nil => rfl
  | block b children next hc hn =>
    simp only [walk, List.mem_cons, List.mem_append] at h
    rw [pick, if_neg (by simp [h b (.inl rfl)]), hc fun k hk => h k (.inr (.inl hk)),
      hn fun k hk => h k (.inr (.inr hk))]
    rfl

/-- A level stands behind the blocks that are met before it, inside the last of them, and before the
blocks that are met after it. -/
inductive Stands (whole : Forest) : List Block → Option Block → Forest → List Block → Prop where
  | outermost : Stands whole [] none whole []
  | inside {before behind : List Block} {around : Option Block} {earlier children later : Forest}
      {b : Block} (h : Stands whole before around (earlier.append (.block b children later)) behind) :
      Stands whole (before ++ (earlier.walk ++ [b])) (some b) children (later.walk ++ behind)

namespace Stands

variable {whole level : Forest} {before behind : List Block} {around : Option Block}

theorem around_eq (h : Stands whole before around level behind) : around = before.getLast? := by
  cases h with
  | outermost => rfl
  | inside h => simp

theorem walk (h : Stands whole before around level behind) :
    whole.walk = before ++ (level.walk ++ behind) := by
  induction h with
  | outermost => simp
  | inside h ih => simp [ih, walk_append, Forest.walk]

theorem each (h : Stands whole before around level behind) (hP : whole.Each P none []) :
    level.Each P around [] := by
  induction h with
  | outermost => exact hP
  | inside h ih => exact ((each_append _ _ _ _).1 ih).2.2.1

theorem pick {p : Block → Bool} (h : Stands whole before around level behind)
    (hbefore : ∀ b ∈ before, p b = false) (hbehind : ∀ b ∈ behind, p b = false) :
    whole.pick p = level.pick p := by
  induction h with
  | outermost => rfl
  | @inside before behind around earlier children later b h ih =>
    simp only [List.mem_append, List.mem_singleton] at hbefore hbehind
    have hb : p b = false := hbefore b (.inr (.inr rfl))
    rw [ih (fun k hk => hbefore k (.inl hk)) (fun k hk => hbehind k (.inr hk)), pick_append,
      pick_eq_nil fun k hk => hbefore k (.inr (.inl hk)), Forest.pick, if_neg (by simp [hb]),
      pick_eq_nil fun k hk => hbehind k (.inl hk), append_nil]
    rfl

end Stands

theorem mem_chains_append_block {around : Option Block} {b : Block} {children later : Forest}
    {c : Chain} (hc : c ∈ children.chains (some b) []) (chain : List Block) (earlier : Forest) :
    c ∈ (earlier.append (.block b children later)).chains around chain := by
  induction earlier generalizing chain with
  | nil => simp [append, chains, hc]
  | block k inside next _ hn => simp [append, chains, hn]

theorem Stands.chains {whole level : Forest} {before behind : List Block} {around : Option Block}
    (h : Stands whole before around level behind) :
    ∀ c ∈ level.chains around [], c ∈ whole.chains none [] := by
  induction h with
  | outermost => exact fun c hc => hc
  | inside h ih => exact fun c hc => ih c (mem_chains_append_block hc _ _)

/-- A stretch of a level with all that is nested in it. No chain goes over its ends. -/
structure Inlaid (whole : Forest) (before : List Block) (around : Option Block)
    (earlier stretch later : Forest) (behind : List Block) : Prop where
  stands : Stands whole before around ((earlier.append stretch).append later) behind
  anew : stretch.Anew
  anewBehind : later.Anew

namespace Inlaid

variable {whole earlier stretch later : Forest} {before behind : List Block} {around : Option Block}

theorem walk (h : Inlaid whole before around earlier stretch later behind) :
    whole.walk = (before ++ earlier.walk) ++ (stretch.walk ++ (later.walk ++ behind)) := by
  simp [h.stands.walk, walk_append]

theorem each (h : Inlaid whole before around earlier stretch later behind)
    (hP : whole.Each P none []) : stretch.Each P around [] :=
  h.anew.each ((each_append _ _ _ _).1 ((each_append _ _ _ _).1 (h.stands.each hP)).1).2

theorem chains (h : Inlaid whole before around earlier stretch later behind) :
    ∀ c ∈ stretch.chains around [], c ∈ whole.chains none [] := by
  intro c hc
  refine h.stands.chains c ?_
  rw [chains_append _ _ _ h.anewBehind, chains_append _ _ _ h.anew]
  exact List.mem_append_left _ (List.mem_append_right _ hc)

theorem pick {p : Block → Bool} (h : Inlaid whole before around earlier stretch later behind)
    (hbefore : ∀ b ∈ before ++ earlier.walk, p b = false)
    (hbehind : ∀ b ∈ later.walk ++ behind, p b = false) : whole.pick p = stretch.pick p := by
  rw [List.forall_mem_append] at hbefore hbehind
  rw [h.stands.pick hbefore.1 hbehind.2, pick_append, pick_append, pick_eq_nil hbefore.2,
    pick_eq_nil hbehind.1, append_nil]
  rfl

end Inlaid

theorem ne_nil_of_mem_chains {around : Option Block} {chain : List Block} {f : Forest} :
    ∀ c ∈ f.chains around chain, c.branches ≠ [] := by
  have hended : ∀ around chain, ∀ c ∈ ended around chain, c.branches ≠ [] := by
    intro around chain c hc
    cases chain with
    | nil => cases hc
    | cons b bs =>
      obtain rfl := List.mem_singleton.1 hc
      exact List.cons_ne_nil b bs
  induction f generalizing around chain with
  | nil => exact hended around chain
  | block b children next hchildren hnext =>
    intro c hc
    rw [chains, List.mem_append, List.mem_append] at hc
    rcases hc with (hc | hc) | hc
    · split at hc
      · exact hended around chain c hc
      · cases hc
    · exact hchildren c hc
    · exact hnext c hc

theorem first_of_mem_chains {around : Option Block} {f : Forest} (h : f.Each Block.Fits around []) :
    ∀ c ∈ f.chains around [], ∃ b rest, c.branches = b :: rest ∧ b.branch = .first := by
  intro c hc
  have hturn := inTurn_of_mem_chains h c hc
  cases hbranches : c.branches with
  | nil => exact absurd hbranches (ne_nil_of_mem_chains c hc)
  | cons b rest =>
    rw [hbranches] at hturn
    refine ⟨b, rest, rfl, ?_⟩
    by_contra hfirst
    exact hturn.1.continues hfirst rfl

end Forest
end Variability.Code
