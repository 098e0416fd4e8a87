import Variability.Proofs.Code.Origin
import Variability.Proofs.Code.Unfolding
import Variability.Proofs.Formula.Negation
import Variability.Proofs.Metric.Points
import Variability.Proofs.VariationPoint.History

/-!
Formulas that arise are never negated twice. A formula is denied where a `!` is read, where the
earlier branches of a chain are denied, and where the alternative of a point is guessed; each time a
negation is unwrapped.
-/

set_option autoImplicit false

namespace Variability

namespace Condition

/-- Only `!` denies, and what stands behind it is denied by unwrapping. -/
theorem Expression.singlyNegated : (e : Expression) → e.toFormula.SinglyNegated
  | .number _ value => by
    change (if value = 0 then Formula.fls else .tru).SinglyNegated
    split <;> simp
  | .quoted _ | .name _ | .call _ _ | .defined _ | .chain _ _ => Formula.singlyNegated_var _
  | .not e => (singlyNegated e).negate
  | .and l r => Formula.singlyNegated_conj.2 ⟨singlyNegated l, singlyNegated r⟩
  | .or l r => Formula.singlyNegated_disj.2 ⟨singlyNegated l, singlyNegated r⟩

theorem singlyNegated_ofName (text : String) {wrap : Formula → Formula}
    (hwrap : ∀ f, f.SinglyNegated → (wrap f).SinglyNegated) :
    ∀ f ∈ (ofName text wrap).formula?, f.SinglyNegated := by
  intro f hf
  unfold ofName at hf
  split at hf
  · cases hf
  · obtain rfl := Option.some.inj hf
    exact hwrap _ (Formula.singlyNegated_var _)

variable [ParserStack]

theorem singlyNegated_ofExpression (text : String) :
    ∀ f ∈ (ofExpression text).formula?, f.SinglyNegated := by
  intro f hf
  unfold ofExpression at hf
  split at hf
  · cases hf
  · dsimp only at hf
    split at hf
    · cases hf
    · split at hf
      · cases hf
      · split at hf
        · next e _ =>
          obtain rfl := Option.some.inj hf
          exact e.singlyNegated
        · cases hf

theorem singlyNegated_ofDirective (d : Directive) (text : String) :
    ∀ f ∈ (ofDirective d text).formula?, f.SinglyNegated := by
  cases d with
  | ifExpression | elif => exact singlyNegated_ofExpression text
  | ifdef => exact singlyNegated_ofName text fun _ => id
  | ifndef => exact singlyNegated_ofName text fun _ => Formula.SinglyNegated.negate
  | otherwise | endif => simp [ofDirective, formula?]

end Condition

namespace Code

theorem Forest.mem_walk_of_pick {p : Block → Bool} {f : Forest} {b : Block} (h : b ∈ (f.pick p).walk) :
    b ∈ f.walk := by
  induction f with
  | nil => exact h
  | block c children next hchildren hnext =>
    have hrest : b ∈ ((pick p children).append (pick p next)).walk → b ∈ children.walk ++ next.walk := by
      rw [walk_append, List.mem_append, List.mem_append]
      exact Or.imp hchildren hnext
    rw [pick] at h
    split at h
    · simp only [walk, List.mem_cons, List.mem_append] at h hrest ⊢
      exact h.imp_right (Or.elim · .inl hrest)
    · exact List.mem_cons_of_mem c (hrest h)

/-- A presence condition of the file: that of a block or a function, or what is asked outside of all. -/
def SourceFile.HasPresence (file : SourceFile) (p : Formula) : Prop :=
  p = .tru ∨ (∃ b ∈ file.blocks.walk, b.presence = some p) ∨ ∃ f ∈ file.functions, f.presence = some p

variable {path sourcePath : String} {landmarks : List Landmark} {file : SourceFile}

variable [ParserStack]

theorem mem_walk_of_children (h : (assemble path sourcePath landmarks).result = .ok file) {f : Function}
    (hf : f ∈ file.functions) : ∀ b ∈ f.children.walk, b ∈ file.blocks.walk := by
  obtain ⟨b, -, -, rfl⟩ := assemble_eq h
  obtain ⟨i, hi, rfl⟩ := List.mem_mapIdx.1 hf
  exact fun k => Forest.mem_walk_of_pick

theorem singlyNegated_condition (h : (assemble path sourcePath landmarks).result = .ok file) :
    ∀ b ∈ file.blocks.walk, ∀ c ∈ b.condition, c.SinglyNegated := by
  intro b hb c hc
  obtain ⟨d, text, hread⟩ := condition_of_assemble h b hb
  exact Condition.singlyNegated_ofDirective d text c (hread ▸ hc)

theorem singlyNegated_presence (h : (assemble path sourcePath landmarks).result = .ok file) :
    ∀ b ∈ file.blocks.walk, ∀ p ∈ b.presence, p.SinglyNegated := by
  refine Forest.presence_of_conditions Formula.compositional_singlyNegated (fits_of_assemble h) ?_ (by simp)
    (singlyNegated_condition h)
  simp [presenceAround]

theorem SourceFile.HasPresence.singlyNegated {p : Formula} (hp : file.HasPresence p)
    (h : (assemble path sourcePath landmarks).result = .ok file) : p.SinglyNegated := by
  rcases hp with rfl | ⟨b, hb, hpresence⟩ | ⟨f, hf, hpresence⟩
  · exact Formula.singlyNegated_tru
  · exact singlyNegated_presence h b hb p hpresence
  · rcases presence_of_function h hf with htru | ⟨b, hb, hblock⟩
    · obtain rfl := Option.some.inj (hpresence.symm.trans htru)
      exact Formula.singlyNegated_tru
    · exact singlyNegated_presence h b hb p (hblock.trans hpresence)

end Code

theorem Formula.SinglyNegated.alternativeAfter {p : Formula} (h : p.SinglyNegated)
    (predecessor : Option Formula) : (p.alternativeAfter predecessor).SinglyNegated := by
  cases p with
  | conj l r =>
    obtain ⟨hl, hr⟩ := singlyNegated_conj.1 h
    rw [Formula.alternativeAfter]
    split
    · exact singlyNegated_conj.2 ⟨hl, hr.negate⟩
    · split
      · exact singlyNegated_conj.2 ⟨hl.negate, hr⟩
      · exact h.negate
  | _ => exact h.negate

namespace PointCounter

structure SinglyNegated (c : PointCounter) : Prop where
  active : ∀ p, some p ∈ c.active → p.SinglyNegated
  known : ∀ a ∈ c.known, a.SinglyNegated

namespace SinglyNegated

variable {c : PointCounter}

theorem start {baseline : Option Formula} (h : ∀ p ∈ baseline, p.SinglyNegated) :
    SinglyNegated ⟨baseline, [], []⟩ where
  active p hp := h p (List.mem_singleton.1 hp).symm
  known := by simp [PointCounter.known]

theorem push (h : c.SinglyNegated) {p : Formula} (hp : p.SinglyNegated) : (c.push p).SinglyNegated where
  active q hq := by
    rw [active_push, List.mem_append, List.mem_singleton] at hq
    rcases hq with hq | hq
    · exact h.active q hq
    · exact Option.some.inj hq ▸ hp
  known a ha := by
    rw [known_push, List.mem_append, List.mem_singleton] at ha
    rcases ha with ha | rfl
    · exact h.known a ha
    · exact hp.alternativeAfter c.last

theorem add (h : c.SinglyNegated) {p : Option Formula} (hp : ∀ f ∈ p, f.SinglyNegated) :
    (c.add p).SinglyNegated := by
  by_cases hrecorded : c.Recorded p
  · rwa [add_recorded hrecorded]
  · cases p with
    | none => exact absurd (.inl rfl) hrecorded
    | some f =>
      rw [add_new hrecorded]
      exact h.push (hp f rfl)

theorem addAll (h : c.SinglyNegated) {ps : List (Option Formula)}
    (hps : ∀ f, some f ∈ ps → f.SinglyNegated) : (c.addAll ps).SinglyNegated := by
  induction ps generalizing c with
  | nil => exact h
  | cons p ps ih =>
    have hp : ∀ f ∈ p, f.SinglyNegated := fun f hf => hps f (by simp [Option.mem_def.1 hf])
    exact ih (h.add hp) fun f hf => hps f (List.mem_cons_of_mem p hf)

variable {parent alternative : Option Formula}

theorem enter (h : c.SinglyNegated) (hparent : ∀ p ∈ parent, p.SinglyNegated)
    (halternative : ∀ a ∈ alternative, a.SinglyNegated) {b : Code.Block}
    (hcondition : ∀ f ∈ b.condition, f.SinglyNegated) (hpresence : ∀ p ∈ b.presence, p.SinglyNegated) :
    (c.enter parent alternative b).1.SinglyNegated ∧
      ∀ a ∈ (c.enter parent alternative b).2, a.SinglyNegated := by
  by_cases hfirst : b.branch = .first
  · have hadd := h.add hpresence
    rw [PointCounter.enter, if_pos hfirst]
    refine ⟨hadd, fun a ha => ?_⟩
    simp only [addFirst] at ha
    split at ha
    · exact hadd.known a (mem_known.2 (List.mem_of_mem_head? ha))
    · obtain ⟨f, hf, rfl⟩ := Option.mem_map.1 ha
      refine Formula.compositional_singlyNegated.conjunction fun o ho g hg => ?_
      rcases List.mem_pair.1 ho with rfl | rfl
      · exact hparent g hg
      · obtain rfl := Option.some.inj hg
        exact (hcondition f hf).negate
  · rw [enter_later hfirst]
    exact ⟨h.add halternative, halternative⟩

theorem addBlocks {blocks : Code.Forest} (h : c.SinglyNegated) (hparent : ∀ p ∈ parent, p.SinglyNegated)
    (halternative : ∀ a ∈ alternative, a.SinglyNegated)
    (hcondition : ∀ b ∈ blocks.walk, ∀ f ∈ b.condition, f.SinglyNegated)
    (hpresence : ∀ b ∈ blocks.walk, ∀ p ∈ b.presence, p.SinglyNegated) :
    (c.addBlocks parent alternative blocks).SinglyNegated := by
  induction blocks generalizing c parent alternative with
  | nil => exact h
  | block b children next hchildren hnext =>
    simp only [Code.Forest.walk, List.forall_mem_cons, List.forall_mem_append] at hcondition hpresence
    obtain ⟨hown, hownInside, hownBehind⟩ := hcondition
    obtain ⟨hb, hinside, hbehind⟩ := hpresence
    obtain ⟨hentered, hother⟩ := h.enter hparent halternative hown hb
    rw [addBlocks_block]
    exact hnext (hchildren hentered hb (by simp) hownInside hinside) hparent hother hownBehind hbehind

end SinglyNegated
end PointCounter

namespace Code

section

variable [ParserStack]

/-- No formula that arises is negated twice, and on such formulas negating is an involution. -/
theorem never_negated_twice :
    (∀ text, ∀ f ∈ (Condition.ofExpression text).formula?, f.SinglyNegated) ∧
    (∀ directive text, ∀ f ∈ (Condition.ofDirective directive text).formula?, f.SinglyNegated) ∧
    (∀ path d file, (ofDocument path d).result = .ok file →
      (∀ b ∈ file.blocks.walk,
        (∀ c ∈ b.condition, c.SinglyNegated) ∧ ∀ p ∈ b.presence, p.SinglyNegated) ∧
      (∀ f ∈ file.functions, ∀ p ∈ f.presence, p.SinglyNegated) ∧
      (∀ baseline ps, (∀ p, some p ∈ baseline :: ps → file.HasPresence p) →
        (PointCounter.addAll ⟨baseline, [], []⟩ ps).SinglyNegated) ∧
      ∀ f ∈ file.functions,
        (PointCounter.addBlocks ⟨f.presence, [], []⟩ f.presence none f.children).SinglyNegated) ∧
    ∀ f : Formula, f.SinglyNegated →
      f.negate.negate = f ∧ f.negate.SinglyNegated ∧ ∀ g ∈ f.parts, g.negate.negate = g := by
  refine ⟨Condition.singlyNegated_ofExpression, Condition.singlyNegated_ofDirective,
    fun path d file h => ?_,
    fun f hf => ⟨hf.negate_negate, hf.negate, fun g hg => (hf.of_mem_parts hg).negate_negate⟩⟩
  have hcondition := singlyNegated_condition h
  have hpresence := singlyNegated_presence h
  have hfunction : ∀ f ∈ file.functions, ∀ p ∈ f.presence, p.SinglyNegated := fun f hf p hp =>
    SourceFile.HasPresence.singlyNegated (.inr (.inr ⟨f, hf, hp⟩)) h
  refine ⟨fun b hb => ⟨hcondition b hb, hpresence b hb⟩, hfunction, fun baseline ps hps => ?_,
    fun f hf => ?_⟩
  · have hfed : ∀ p, some p ∈ baseline :: ps → p.SinglyNegated := fun p hp => (hps p hp).singlyNegated h
    refine PointCounter.SinglyNegated.addAll (.start fun p hp => hfed p ?_) fun p hp => hfed p ?_
    · exact List.mem_cons.2 (.inl hp.symm)
    · exact List.mem_cons_of_mem baseline hp
  · have hinside := mem_walk_of_children h hf
    exact (PointCounter.SinglyNegated.start (hfunction f hf)).addBlocks (hfunction f hf) (by simp)
      (fun b hb => hcondition b (hinside b hb)) fun b hb => hpresence b (hinside b hb)

end

def deniedNegations : Xml.Document :=
  let cpp (label : String) (line : Nat) (children next : Xml.Content) : Xml.Content :=
    .element ⟨⟨some "http://www.srcML.org/srcML/cpp", label⟩, [], line⟩ children next
  let src (label : String) (line : Nat) (children next : Xml.Content) : Xml.Content :=
    .element ⟨⟨some "http://www.srcML.org/srcML/src", label⟩, [], line⟩ children next
  let text (cs : String) : Xml.Content := cpp "directive" 1 .nil (.text cs.toList .nil)
  ⟨⟨⟨some "http://www.srcML.org/srcML/src", "unit"⟩, [], 1⟩,
    cpp "ifndef" 2 (text "A") <|
    src "function" 3 (src "name" 3 (.text ['f'] .nil) <|
      cpp "if" 4 (text "!!!B") <| cpp "elif" 5 (text "!(C && !!(!D))") <| cpp "else" 6 .nil <|
        cpp "endif" 7 .nil .nil) <|
    cpp "else" 8 .nil <| cpp "endif" 9 .nil .nil⟩

theorem never_negated_twice_deniedNegations :
    let name := "B"
    let b := Formula.neg (.var name)
    let cd := Formula.neg (.conj (.var "C") (.neg (.var "D")))
    Condition.ofExpression "!(C && !!(!D))" = .parsed cd ∧ cd.SinglyNegated ∧
    Condition.ofDirective .ifndef name = .parsed b ∧ b.SinglyNegated ∧
    ∃ file, (ofDocument "f.c.xml" deniedNegations).result = .ok file ∧
      (∀ b ∈ file.blocks.walk,
        (∀ c ∈ b.condition, c.SinglyNegated) ∧ ∀ p ∈ b.presence, p.SinglyNegated) ∧
      ∃ f ∈ file.functions, f.blocks.map (·.condition) = [some b, some cd, none] ∧
        let c := PointCounter.addAll ⟨f.presence, [], []⟩ (f.blocks.map (·.presence))
        c.known.head? = some (.conj (.neg (.var "A")) (.var "B")) ∧ c.SinglyNegated ∧
          ∀ a ∈ c.known, a.negate.negate = a ∧ ∀ g ∈ a.parts, g.negate.negate = g := by
  intro name b cd
  obtain ⟨hexpression, hdirective, hfile, hinvolution⟩ := never_negated_twice
  have hcd : Condition.ofExpression "!(C && !!(!D))" = .parsed cd := by decide +kernel
  have hb : Condition.ofDirective .ifndef name = .parsed b := by decide +kernel
  have hfunctions : (ofDocument "f.c.xml" deniedNegations).result.toOption.any fun file =>
      file.functions.any fun f => f.blocks.map (·.condition) = [some b, some cd, none] &&
        (PointCounter.addAll ⟨f.presence, [], []⟩ (f.blocks.map (·.presence))).known.head? =
          some (.conj (.neg (.var "A")) (.var "B")) := by decide +kernel
  refine ⟨hcd, hexpression _ cd (by rw [hcd]; rfl), hb, hdirective _ _ b (by rw [hb]; rfl), ?_⟩
  cases h : (ofDocument "f.c.xml" deniedNegations).result with
  | error fault => rw [h] at hfunctions; cases hfunctions
  | ok file =>
    rw [h] at hfunctions
    obtain ⟨f, hf, hboth⟩ := List.any_eq_true.1 hfunctions
    obtain ⟨hconditions, hhead⟩ := Bool.and_eq_true_iff.1 hboth
    obtain ⟨hblocks, -, hcounters, -⟩ := hfile _ _ file h
    have hcounter := hcounters f.presence (f.blocks.map (·.presence)) fun p hp => by
      rcases List.mem_cons.1 hp with hp | hp
      · exact .inr (.inr ⟨f, hf, hp.symm⟩)
      · obtain ⟨k, hk, hpresence⟩ := List.mem_map.1 hp
        exact .inr (.inl ⟨k, (asks_of_function h hf).2 k hk, hpresence⟩)
    refine ⟨file, rfl, hblocks, f, hf, of_decide_eq_true hconditions, of_decide_eq_true hhead, hcounter,
      fun a ha => ?_⟩
    obtain ⟨htwice, -, hparts⟩ := hinvolution a (hcounter.known a ha)
    exact ⟨htwice, hparts⟩

end Code
end Variability
