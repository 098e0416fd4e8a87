import Variability.Proofs.Code.Presence
import Variability.Proofs.Formula.Compositional
import Variability.Proofs.Metric.Points
import Variability.Proofs.VariationPoint.History

/-!
The alternative that a counter guesses, and the `#else` that is read. The counter takes the presence
condition of a branch apart, the reader puts the one of the `#else` together from the conditions of
its chain.
-/

set_option autoImplicit false

namespace Variability
namespace Formula

def trueFree : Formula → Bool
  | .tru => false
  | .fls | .var _ => true
  | .neg f => f.trueFree
  | .conj l r | .disj l r => l.trueFree && r.trueFree

theorem ne_tru_of_trueFree {f : Formula} (h : f.trueFree) : f ≠ .tru := by
  rintro rfl
  cases h

theorem trueFree_negate {f : Formula} (h : f.trueFree) : f.negate.trueFree := by
  cases f <;> exact h

theorem not_inherits {around : Option Formula} {f : Formula} (h : f.trueFree)
    (haround : conjunct? around = none) : ¬ f.Inherits around := by
  have hne : ∀ {g : Formula}, g.trueFree → some g ≠ around := by
    rintro g hg rfl
    rw [conjunct_eq_some (ne_tru_of_trueFree hg)] at haround
    cases haround
  cases f with
  | conj l r =>
    obtain ⟨hl, hr⟩ := Bool.and_eq_true_iff.1 h
    exact not_or.2 ⟨hne hl, hne hr⟩
  | _ => exact id

theorem alternativeAfter_conj (p c : Formula) :
    (Formula.conj p c).alternativeAfter (some p) = .conj p c.negate := if_pos rfl

end Formula

namespace Code

open Formula

/-- What is guessed from an `#if` is what its `#else` is read as. -/
theorem alternativeAfter_branchPresence (around : Option Formula) {c : Formula} (h : c.trueFree) :
    (Builder.branchPresence around [] (some c)).alternativeAfter around =
      Builder.branchPresence around [some c] none := by
  have hc : conjunct? (some c) = some c := conjunct_eq_some (ne_tru_of_trueFree h)
  have hnegate : conjunct? (some c.negate) = some c.negate :=
    conjunct_eq_some (ne_tru_of_trueFree (trueFree_negate h))
  have hmissing : conjunct? none = none := rfl
  cases haround : conjunct? around with
  | none =>
    -- nothing is inherited, so the whole condition is negated
    have hfirst : Builder.branchPresence around [] (some c) = c := by
      simp [Builder.branchPresence, conjunction, haround, hc, conjoin]
    have hlast : Builder.branchPresence around [some c] none = c.negate := by
      simp [Builder.branchPresence, conjunction, haround, hnegate, hmissing, conjoin]
    rw [hfirst, hlast, alternativeAfter_of_not_inherits (not_inherits h haround)]
  | some p =>
    have hp : around = some p := eq_of_conjunct haround
    have hfirst : Builder.branchPresence around [] (some c) = .conj p c := by
      simp [Builder.branchPresence, conjunction, haround, hc, conjoin]
    have hlast : Builder.branchPresence around [some c] none = .conj p c.negate := by
      simp [Builder.branchPresence, conjunction, haround, hnegate, hmissing, conjoin]
    rw [hfirst, hlast, hp, alternativeAfter_conj]

-- with the constant true in the condition the counter takes that for what is inherited
example :
    let c := Formula.conj .tru (.var "A")
    (Builder.branchPresence (some .tru) [] (some c)).alternativeAfter (some .tru) =
        .conj .tru (.neg (.var "A")) ∧
      Builder.branchPresence (some .tru) [some c] none = .neg c := by
  decide

end Code

namespace PointCounter

theorem grows_addAll (c : PointCounter) (ps : List (Option Formula)) : c.Grows (c.addAll ps) := by
  induction ps generalizing c with
  | nil => exact .refl c
  | cons p ps ih => exact (c.grows_add p).trans (ih _)

theorem add_alternativeAfter {c : PointCounter} {p : Formula}
    (hcounted : c.count < (c.add (some p)).count) (qs : List (Option Formula)) :
    ((c.add (some p)).addAll qs).add (some (p.alternativeAfter c.last)) = (c.add (some p)).addAll qs := by
  have hnew : ¬ c.Recorded (some p) := fun hrecorded => by
    rw [add_recorded hrecorded] at hcounted
    exact Nat.lt_irrefl _ hcounted
  have hknown : p.alternativeAfter c.last ∈ (c.add (some p)).alternatives := by
    rw [add_new hnew]
    exact List.mem_cons_self
  exact add_alternative ((grows_addAll _ qs).alternatives _ hknown)

end PointCounter

namespace Code

section

variable [ParserStack]

/-- The presence condition of an `#else` behind an `#if` is the alternative guessed from that one below
the condition around the chain, and never a new point once the `#if` has been counted there. -/
theorem presence_otherwise_known {path : String} {d : Xml.Document} {file : SourceFile}
    (h : (ofDocument path d).result = .ok file) :
    ∀ chain ∈ file.chains, ∀ b e rest, chain.branches = b :: e :: rest → e.branch = .last →
      ∀ c, b.condition = some c → c.trueFree →
      ∃ p, b.presence = some p ∧
        e.presence = some (p.alternativeAfter (presenceAround chain.around)) ∧
        ∀ k : PointCounter, k.last = presenceAround chain.around →
          k.count < (k.add b.presence).count → ∀ qs,
            ((k.add b.presence).addAll qs).add e.presence = (k.add b.presence).addAll qs := by
  intro chain hchain b e rest hbranches hlast c hc hfree
  have hturn := Forest.inTurn_of_mem_chains (fits_of_assemble h) chain hchain
  rw [hbranches] at hturn
  obtain ⟨hb, he, -⟩ := hturn
  have hpresence : b.presence =
      some (Builder.branchPresence (presenceAround chain.around) [] (some c)) := by
    rw [hb.presence, hc]
    rfl
  have hotherwise : e.presence =
      some (Builder.branchPresence (presenceAround chain.around) [some c] none) := by
    rw [he.presence, he.bare hlast, List.nil_append, List.map_singleton, hc]
  have hguess := alternativeAfter_branchPresence (presenceAround chain.around) hfree
  rw [hotherwise, ← hguess, hpresence]
  refine ⟨_, rfl, rfl, fun k hk hcounted qs => ?_⟩
  rw [← hk] at hcounted ⊢
  exact PointCounter.add_alternativeAfter hcounted qs

end

def repeatedConjunction : Xml.Document :=
  let cpp (label : String) (line : Nat) (children next : Xml.Content) : Xml.Content :=
    .element ⟨⟨some "http://www.srcML.org/srcML/cpp", label⟩, [], line⟩ children next
  let text (cs : String) : Xml.Content := cpp "directive" 1 .nil (.text cs.toList .nil)
  ⟨⟨⟨some "http://www.srcML.org/srcML/src", "unit"⟩, [], 1⟩,
    cpp "if" 2 (text "A && B") <| cpp "if" 3 (text "A && B") <| cpp "else" 4 .nil <|
      cpp "endif" 5 .nil <| cpp "else" 6 .nil <| cpp "endif" 7 .nil .nil⟩

theorem presence_otherwise_known_repeatedConjunction :
    ∃ file, (ofDocument "f.c.xml" repeatedConjunction).result = .ok file ∧ file.chains.length = 2 ∧
      ∀ chain ∈ file.chains, ∃ b e p, chain.branches = [b, e] ∧ b.presence = some p ∧
        e.presence = some (p.alternativeAfter (presenceAround chain.around)) ∧
        ∀ k : PointCounter, k.last = presenceAround chain.around →
          k.count < (k.add b.presence).count → ∀ qs,
            ((k.add b.presence).addAll qs).add e.presence = (k.add b.presence).addAll qs := by
  have hchains : (ofDocument "f.c.xml" repeatedConjunction).result.toOption.any fun file =>
      file.chains.length = 2 && file.chains.all fun chain =>
        chain.branches.map (·.branch) = [.first, .last] &&
          chain.branches.head?.any fun b => b.condition.any Formula.trueFree := by decide +kernel
  cases h : (ofDocument "f.c.xml" repeatedConjunction).result with
  | error fault => rw [h] at hchains; cases hchains
  | ok file =>
    rw [h] at hchains
    obtain ⟨hlength, hall⟩ := Bool.and_eq_true_iff.1 hchains
    refine ⟨file, rfl, of_decide_eq_true hlength, fun chain hchain => ?_⟩
    obtain ⟨hkinds, hfree⟩ := Bool.and_eq_true_iff.1 (List.all_eq_true.1 hall chain hchain)
    obtain ⟨b, later, hbranches, -, hlater⟩ := List.map_eq_cons_iff.1 (of_decide_eq_true hkinds)
    obtain ⟨e, rest, rfl, hlast, hrest⟩ := List.map_eq_cons_iff.1 hlater
    obtain rfl := List.map_eq_nil_iff.1 hrest
    have hcondition : b.condition.any Formula.trueFree := by simpa [hbranches] using hfree
    obtain ⟨c, hc, hcfree⟩ := (Option.any_eq_true _ _).1 hcondition
    obtain ⟨p, hp, hknown⟩ :=
      presence_otherwise_known h chain hchain b e [] hbranches hlast c hc hcfree
    exact ⟨b, e, p, hbranches, hp, hknown⟩

end Code
end Variability
