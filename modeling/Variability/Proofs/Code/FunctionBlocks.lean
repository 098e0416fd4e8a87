import Variability.Proofs.Code.Layout

/-!
The blocks of a function as a list and as a tree, for a function element that contains no other one
and no part of a chain that goes on outside.
-/

set_option autoImplicit false

namespace Variability.Code

open Formula

theorem Forest.implies_around {around : Option Block} {chain : List Block} {f : Forest}
    (h : f.Each Block.Fits around chain) (v : String → Bool) :
    ∀ b ∈ f.walk, holds v b.presence → holds v (presenceAround around) := by
  induction f generalizing around chain with
  | nil => simp [walk]
  | block b children next hchildren hnext =>
    obtain ⟨hb, hinside, hbehind⟩ := h
    simp only [walk, List.mem_cons, List.mem_append]
    rintro k (rfl | hk | hk) hv
    · exact hb.implies_around hv
    · exact hb.implies_around (hchildren hinside k hk hv)
    · exact hnext hbehind k hk hv

section

variable [ParserStack]

theorem FunctionElement.blocks_eq_stretch {path : String} {d : Xml.Document} {file : SourceFile}
    (h : (ofDocument path d).result = .ok file) (e : FunctionElement d) (hplain : e.Plain)
    (hkeeps : e.KeepsChains) :
    ∃ f enclosing, file.functions[e.index]? = some f ∧ functionName e.inside = .ok f.name ∧
      elementLine d.tag.line e.tag = .ok f.lineStart ∧
      f.blocks = f.children.walk ∧
      (∃ front rear, file.iterBlocks = front ++ (f.blocks ++ rear) ∧
        front.map Block.mark = e.marksBefore.filter Mark.begins ∧
        f.blocks.map Block.mark = e.marksInside.filter Mark.begins ∧
        rear.map Block.mark = e.marksBehind.filter Mark.begins) ∧
      f.children.unfold [] = e.marksInside ∧
      (∀ c ∈ f.children.chains enclosing [], c ∈ file.chains ∧
        ∃ b rest, c.branches = b :: rest ∧ b.branch = .first) ∧
      file.InnermostOpen e.marksBefore enclosing ∧ f.presence = presenceAround enclosing ∧
      ∀ b ∈ f.blocks, ∀ v, holds v b.presence → holds v f.presence := by
  obtain ⟨f, enclosing, hf⟩ := exists_occupies h hplain hkeeps
  refine ⟨f, enclosing, hf.place, hf.name, hf.line, hf.walk, hf.blocks, hf.unfolds, fun c hc => ?_,
    hf.innermost, hf.presence, fun b hb v hv => ?_⟩
  · exact ⟨hf.chains c hc, Forest.first_of_mem_chains hf.fits c hc⟩
  · rw [hf.walk] at hb
    rw [hf.presence]
    exact Forest.implies_around hf.fits v b hb hv

end

def guardedFunction : Xml.Document :=
  ⟨⟨⟨some "http://www.srcML.org/srcML/src", "unit"⟩, [], 1⟩,
    cpp "ifdef" 2 (text "A") <| cpp "ifdef" 3 (text "Z") <| cpp "endif" 4 .nil <|
      .element functionTag body <| cpp "else" 12 .nil <| cpp "endif" 13 .nil .nil⟩
where
  cpp (label : String) (line : Nat) (children next : Xml.Content) : Xml.Content :=
    .element ⟨⟨some "http://www.srcML.org/srcML/cpp", label⟩, [], line⟩ children next
  text (cs : String) : Xml.Content := cpp "directive" 1 .nil (.text cs.toList .nil)
  functionTag : Xml.Tag := ⟨⟨some "http://www.srcML.org/srcML/src", "function"⟩, [], 5⟩
  body : Xml.Content :=
    .element ⟨⟨some "http://www.srcML.org/srcML/src", "name"⟩, [], 5⟩ (.text "f".toList .nil) <|
      cpp "ifdef" 6 (text "B") <| cpp "ifndef" 7 (text "C") <| cpp "endif" 8 .nil <|
        cpp "elif" 9 (text "D") <| cpp "else" 10 .nil <| cpp "endif" 11 .nil .nil

def guardedElement : FunctionElement guardedFunction where
  before := (documentEvents guardedFunction).take 11
  tag := guardedFunction.functionTag
  inside := guardedFunction.body
  behind := (documentEvents guardedFunction).drop 33
  isFunction := by decide +kernel
  split := by decide +kernel

theorem guardedFunction_read :
    (∃ file, (ofDocument "f.c.xml" guardedFunction).result = .ok file) ∧ guardedElement.Plain ∧
      guardedElement.KeepsChains := by
  have hok : (ofDocument "f.c.xml" guardedFunction).result.isOk := by decide +kernel
  refine ⟨?_, by decide +kernel, by decide +kernel⟩
  cases h : (ofDocument "f.c.xml" guardedFunction).result with
  | error fault =>
    rw [h] at hok
    cases hok
  | ok file => exact ⟨file, rfl⟩

theorem FunctionElement.blocks_eq_stretch_guarded :
    guardedElement.Plain ∧ guardedElement.KeepsChains ∧
    ∃ file, (ofDocument "f.c.xml" guardedFunction).result = .ok file ∧
      ∃ f enclosing, file.functions[guardedElement.index]? = some f ∧
        functionName guardedElement.inside = .ok f.name ∧
        elementLine 1 guardedElement.tag = .ok f.lineStart ∧
        f.blocks = f.children.walk ∧
        (∃ front rear, file.iterBlocks = front ++ (f.blocks ++ rear) ∧
          front.map Block.mark = guardedElement.marksBefore.filter Mark.begins ∧
          f.blocks.map Block.mark = guardedElement.marksInside.filter Mark.begins ∧
          rear.map Block.mark = guardedElement.marksBehind.filter Mark.begins) ∧
        f.children.unfold [] = guardedElement.marksInside ∧
        (∀ c ∈ f.children.chains enclosing [], c ∈ file.chains ∧
          ∃ b rest, c.branches = b :: rest ∧ b.branch = .first) ∧
        file.InnermostOpen guardedElement.marksBefore enclosing ∧
        f.presence = presenceAround enclosing ∧
        ∀ b ∈ f.blocks, ∀ v, holds v b.presence → holds v f.presence := by
  obtain ⟨⟨file, h⟩, hplain, hkeeps⟩ := guardedFunction_read
  exact ⟨hplain, hkeeps, file, h, FunctionElement.blocks_eq_stretch h guardedElement hplain hkeeps⟩

end Variability.Code
