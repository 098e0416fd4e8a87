import Variability.Metric.Tangling
import Variability.Proofs.Code.Below
import Variability.Proofs.Code.FunctionBlocks

/-!
The branches of a function with the conditions before them in their chains. The list of these
conditions is made anew from the finished tree; while the document was read it came from the open
branches.
-/

set_option autoImplicit false

namespace Variability.Code

open Formula

theorem Forest.withEarlier_eq_map_routes (enclosing : List Fork) (chain : List Block) (f : Forest) :
    f.withEarlier (chain.filterMap (·.condition)) =
      (f.routes enclosing chain).map fun r => (r.last.taken, r.last.earlier.filterMap (·.condition)) := by
  induction f generalizing enclosing chain with
  | nil => rfl
  | block b children next hchildren hnext =>
    have hearlier : (if b.branch = .first then [] else chain.filterMap (·.condition)) =
        (b.branch.earlier chain).filterMap (·.condition) := by
      unfold Branch.earlier
      split <;> rfl
    have hafter : (b.branch.earlier chain).filterMap (·.condition) ++ b.condition.toList =
        (b.branch.earlier chain ++ [b]).filterMap (·.condition) := by
      cases hc : b.condition <;> simp [List.filterMap_append, hc]
    have hinside := hchildren (enclosing ++ [⟨b.branch.earlier chain, b⟩]) []
    rw [withEarlier, routes, hearlier, hafter, hnext enclosing, List.map_cons, List.map_append, ← hinside]
    rfl

theorem Forest.composed_of_fits {around : Option Block} {f : Forest}
    (h : f.Each Block.Fits around []) :
    f.Each (Block.Composed (presenceAround around)) none [] :=
  h.convert (fun _ _ hb => hb.presence) fun _ _ _ hb => hb.presence

theorem Block.Composed.conjunction {outer : Option Formula} {around : Option Block}
    {earlier : List Block} {b : Block} (h : b.Composed outer around earlier) :
    b.presence = some (Formula.conjunction (presenceBelow outer around ::
      (earlier.filterMap (·.condition)).map (fun c => some c.negate) ++ [b.condition])) := by
  rw [h, Builder.branchPresence, List.filterMap_map]
  rfl

section

variable [ParserStack]

theorem FunctionElement.presence_eq_conjunction {path : String} {d : Xml.Document} {file : SourceFile}
    (h : (ofDocument path d).result = .ok file) (e : FunctionElement d) (hplain : e.Plain)
    (hkeeps : e.KeepsChains) :
    ∃ f : Function, file.functions[e.index]? = some f ∧ functionName e.inside = .ok f.name ∧
      elementLine d.tag.line e.tag = .ok f.lineStart ∧
      f.blocks = f.children.walk ∧ (f.children.withEarlier []).map Prod.fst = f.blocks ∧
      ∀ (n : Nat) (b : Block) (previous : List Formula),
        (f.children.withEarlier [])[n]? = some (b, previous) →
        ∃ r : Route, (f.children.routes [] [])[n]? = some r ∧ r.last.taken = b ∧
          previous = r.last.earlier.filterMap (·.condition) ∧
          b.presence = some (conjunction (presenceBelow f.presence r.around ::
            previous.map (fun c => some c.negate) ++ [b.condition])) := by
  obtain ⟨f, enclosing, hf⟩ := exists_occupies h hplain hkeeps
  have hcomposed := Forest.composed_of_fits hf.fits
  rw [← hf.presence] at hcomposed
  have hblocks : ∀ r ∈ f.children.routes [] [],
      r.last.taken.Composed f.presence r.around r.last.earlier := by
    intro r hr
    have hall := Forest.forall_routes (Q := fun _ => True) (fun _ _ _ _ _ => trivial) trivial
      (show f.children.Each _ (([] : List Fork).getLast?.map (·.taken)) [] from hcomposed)
    exact (hall r hr).1
  have hroutes : f.children.withEarlier [] = _ := Forest.withEarlier_eq_map_routes [] [] f.children
  refine ⟨f, hf.place, hf.name, hf.line, hf.walk, ?_, fun n b previous hn => ?_⟩
  · rw [Forest.map_fst_withEarlier, hf.walk]
  · rw [hroutes, List.getElem?_map] at hn
    obtain ⟨r, hr, hpair⟩ := Option.map_eq_some_iff.1 hn
    obtain ⟨rfl, rfl⟩ := Prod.mk.inj hpair
    exact ⟨r, hr, rfl, rfl, (hblocks r (List.mem_of_getElem? hr)).conjunction⟩

end

theorem FunctionElement.presence_eq_conjunction_guarded :
    guardedElement.Plain ∧ guardedElement.KeepsChains ∧
    ∃ file, (ofDocument "f.c.xml" guardedFunction).result = .ok file ∧
      ∃ f : Function, file.functions[guardedElement.index]? = some f ∧
        functionName guardedElement.inside = .ok f.name ∧
        elementLine 1 guardedElement.tag = .ok f.lineStart ∧
        f.blocks = f.children.walk ∧ (f.children.withEarlier []).map Prod.fst = f.blocks ∧
        ∀ (n : Nat) (b : Block) (previous : List Formula),
          (f.children.withEarlier [])[n]? = some (b, previous) →
          ∃ r : Route, (f.children.routes [] [])[n]? = some r ∧ r.last.taken = b ∧
            previous = r.last.earlier.filterMap (·.condition) ∧
            b.presence = some (conjunction (presenceBelow f.presence r.around ::
              previous.map (fun c => some c.negate) ++ [b.condition])) := by
  obtain ⟨⟨file, h⟩, hplain, hkeeps⟩ := guardedFunction_read
  exact ⟨hplain, hkeeps, file, h, FunctionElement.presence_eq_conjunction h guardedElement hplain hkeeps⟩

end Variability.Code
