import Variability.Code.Document
import Variability.Proofs.Code.Builder

set_option autoImplicit false

namespace Variability

namespace Formula

theorem conjoin_ne_tru {f : Formula} (h : f ≠ .tru) (fs : List Formula) : conjoin f fs ≠ .tru := by
  induction fs generalizing f with
  | nil => exact h
  | cons g fs ih => exact ih (by simp)

theorem conjunct_ne_tru {f : Option Formula} {g : Formula} (h : conjunct? f = some g) : g ≠ .tru := by
  rintro rfl
  unfold conjunct? at h
  split at h <;> simp_all

theorem conjunct_eq_some {f : Formula} (h : f ≠ .tru) : conjunct? (some f) = some f := by
  cases f <;> first | rfl | exact absurd rfl h

theorem conjunction_conjunction (fs gs : List (Option Formula)) :
    conjunction (some (conjunction fs) :: gs) = conjunction (fs ++ gs) := by
  cases hfs : fs.filterMap conjunct? with
  | nil =>
    have hf : conjunction fs = .tru := by rw [conjunction, hfs]
    rw [hf, conjunction_tru_cons]
    simp [conjunction, hfs]
  | cons f rest =>
    have hf : conjunction fs = conjoin f rest := by rw [conjunction, hfs]
    have hne : f ≠ .tru := by
      obtain ⟨g, _, hg⟩ := List.mem_filterMap.1 (hfs ▸ List.mem_cons_self : f ∈ fs.filterMap conjunct?)
      exact conjunct_ne_tru hg
    have hc := conjunct_eq_some (conjoin_ne_tru hne rest)
    rw [hf, conjunction, conjunction, List.filterMap_append, hfs, List.filterMap_cons, hc]
    exact (conjoin_append f rest _).symm

end Formula

namespace Code

open Formula

def Fork.conjuncts (k : Fork) : List (Option Formula) :=
  ((k.earlier.filterMap (·.condition)).map fun c => some c.negate) ++ [k.taken.condition]

def Route.conjuncts (r : Route) : List (Option Formula) :=
  (r.enclosing ++ [r.last]).flatMap Fork.conjuncts

def SourceFile.routes (file : SourceFile) : List Route := file.blocks.routes [] []

def SourceFile.chains (file : SourceFile) : List Chain := file.blocks.chains none []

def untaken (v : String → Bool) (around : Option Block) (earlier : List Block) : Bool :=
  holds v (presenceAround around) && (earlier.filterMap (·.condition)).all (fun c => !c.eval v)

theorem untaken_concat {b : Block} {c : Formula} (hc : b.condition = some c) (v : String → Bool)
    (around : Option Block) (earlier : List Block) :
    untaken v around (earlier ++ [b]) = (untaken v around earlier && !c.eval v) := by
  simp [untaken, hc, Bool.and_assoc]

namespace Block.Fits

variable {around : Option Block} {earlier : List Block} {b : Block}

theorem conjuncts (h : b.Fits around earlier) :
    b.presence = some (conjunction (presenceAround around :: Fork.conjuncts ⟨earlier, b⟩)) := by
  rw [h.presence, Builder.branchPresence, Fork.conjuncts, List.filterMap_map]
  rfl

theorem eval (h : b.Fits around earlier) (v : String → Bool) :
    holds v b.presence = (untaken v around earlier && holds v b.condition) := by
  have hb : holds v b.presence =
      (presenceAround around :: Fork.conjuncts ⟨earlier, b⟩).all (holds v) := by
    rw [h.conjuncts]
    exact eval_conjunction v _
  rw [hb]
  simp [untaken, Fork.conjuncts, List.all_map, Function.comp_def, Bool.and_assoc, holds]

theorem implies_around (h : b.Fits around earlier) {v : String → Bool} (hb : holds v b.presence) :
    holds v (presenceAround around) := by
  rw [h.eval v, untaken, Bool.and_eq_true, Bool.and_eq_true] at hb
  exact hb.1.1

end Block.Fits

theorem presenceAround_concat {enclosing : List Fork} {k : Fork}
    (hq : presenceAround (enclosing.getLast?.map (·.taken)) =
      some (conjunction (enclosing.flatMap Fork.conjuncts)))
    (h : k.taken.Fits (enclosing.getLast?.map (·.taken)) k.earlier) :
    k.taken.presence = some (conjunction ((enclosing ++ [k]).flatMap Fork.conjuncts)) := by
  rw [h.conjuncts, hq, conjunction_conjunction]
  simp

/-- Of the remaining branches of a chain at most one is compiled, and none unless the level is
compiled and no branch before them is taken; `#else` takes what is left. -/
theorem countP_inTurn {around : Option Block} {earlier bs : List Block}
    (h : Forest.InTurn (Block.Fits around) earlier bs) (v : String → Bool)
    (hparsed : ∀ b ∈ bs, b.branch ≠ .last → b.condition ≠ none)
    (hlast : ∀ b ∈ bs.dropLast, b.branch ≠ .last) :
    bs.countP (fun b => holds v b.presence) ≤ (untaken v around earlier).toNat ∧
      ((∃ b ∈ bs, b.branch = .last) →
        bs.countP (fun b => holds v b.presence) = (untaken v around earlier).toNat) := by
  induction bs generalizing earlier with
  | nil => simp
  | cons b bs ih =>
    obtain ⟨hb, hbs⟩ := h
    have heval := hb.eval v
    by_cases hkind : b.branch = .last
    · have hnil : bs = [] := by
        cases bs with
        | nil => rfl
        | cons c cs => exact absurd hkind (hlast b (by simp))
      have hcount : (b :: bs).countP (fun b => holds v b.presence) =
          (untaken v around earlier).toNat := by
        rw [hb.bare hkind] at heval
        rw [hnil, List.countP_cons, heval]
        cases untaken v around earlier <;> rfl
      exact ⟨Nat.le_of_eq hcount, fun _ => hcount⟩
    · obtain ⟨c, hc⟩ := Option.ne_none_iff_exists'.1 (hparsed b List.mem_cons_self hkind)
      obtain ⟨hle, heq⟩ := ih hbs (fun b' hb' => hparsed b' (List.mem_cons_of_mem b hb'))
        (fun b' hb' => hlast b' (by cases bs <;> simp_all))
      rw [untaken_concat hc] at hle heq
      have hcount : (b :: bs).countP (fun b => holds v b.presence) =
          bs.countP (fun b => holds v b.presence) + (untaken v around earlier && c.eval v).toNat := by
        rw [List.countP_cons, heval, hc, holds]
        cases (untaken v around earlier && c.eval v) <;> rfl
      -- where the level is untaken before the branch, the branch takes it or leaves it untaken
      have hsplit : (untaken v around earlier).toNat =
          (untaken v around earlier && c.eval v).toNat +
            (untaken v around earlier && !c.eval v).toNat := by
        cases untaken v around earlier <;> cases c.eval v <;> rfl
      refine ⟨by omega, ?_⟩
      rintro ⟨b', hmem, hb'⟩
      rcases List.mem_cons.1 hmem with rfl | hmem
      · exact absurd hb' hkind
      · have := heq ⟨b', hmem, hb'⟩
        omega

section

variable [ParserStack]

theorem presence_partitions {path : String} {d : Xml.Document} {file : SourceFile}
    (h : (ofDocument path d).result = .ok file) :
    file.routes.map (·.last.taken) = file.blocks.walk ∧
    (file.chains.flatMap (·.branches)).Perm file.blocks.walk ∧
    (∀ r ∈ file.routes, r.last.taken.presence = some (conjunction r.conjuncts)) ∧
    (∀ r ∈ file.routes, ∀ v, holds v r.last.taken.presence → holds v (presenceAround r.around)) ∧
    ∀ c ∈ file.chains, (∀ b ∈ c.branches, b.branch ≠ .last → b.condition ≠ none) →
      (∀ b ∈ c.branches.dropLast, b.branch ≠ .last) →
      ∀ v, c.branches.countP (fun b => holds v b.presence) ≤ 1 ∧
        ((∃ b ∈ c.branches, b.branch = .last) →
          c.branches.countP (fun b => holds v b.presence) =
            if holds v (presenceAround c.around) then 1 else 0) := by
  have hfits := fits_of_assemble h
  have houtside : presenceAround (([] : List Fork).getLast?.map (·.taken)) =
      some (conjunction (([] : List Fork).flatMap Fork.conjuncts)) := rfl
  have hroutes := Forest.forall_routes
    (Q := fun enclosing => presenceAround (enclosing.getLast?.map (·.taken)) =
      some (conjunction (enclosing.flatMap Fork.conjuncts)))
    (fun enclosing earlier b hq hb => by
      simpa [presenceAround] using presenceAround_concat (k := ⟨earlier, b⟩) hq hb)
    houtside hfits
  refine ⟨Forest.map_taken_routes [] [] file.blocks,
    Forest.flatMap_branches_chains none [] file.blocks, fun r hr => ?_, fun r hr v hb => ?_, ?_⟩
  · obtain ⟨hb, hq, _⟩ := hroutes r hr
    exact presenceAround_concat hq hb
  · exact (hroutes r hr).1.implies_around hb
  · intro c hc hparsed hlast v
    have hnil : Forest.InTurn (Block.Fits none) [] [] := trivial
    have hturn := Forest.inTurn_chains hnil hfits c hc
    obtain ⟨hle, heq⟩ := countP_inTurn hturn v hparsed hlast
    have huntaken : (untaken v c.around []).toNat =
        if holds v (presenceAround c.around) then 1 else 0 := by
      cases hv : holds v (presenceAround c.around) <;> simp [untaken, hv]
    rw [huntaken] at hle heq
    exact ⟨Nat.le_trans hle (by split <;> decide), heq⟩

end

def nestedChains : Xml.Document :=
  let cpp (label : String) (line : Nat) (children next : Xml.Content) : Xml.Content :=
    .element ⟨⟨some "http://www.srcML.org/srcML/cpp", label⟩, [], line⟩ children next
  let text (cs : String) : Xml.Content := cpp "directive" 1 .nil (.text cs.toList .nil)
  ⟨⟨⟨some "http://www.srcML.org/srcML/src", "unit"⟩, [], 1⟩,
    cpp "ifdef" 2 (text "A") <| cpp "ifndef" 3 (text "B") <| cpp "endif" 4 .nil <|
      cpp "elif" 5 (text "1") <| cpp "else" 6 .nil <| cpp "endif" 7 .nil .nil⟩

theorem presence_partitions_nestedChains :
    ∃ file, (ofDocument "f.c.xml" nestedChains).result = .ok file ∧
      file.routes.map (·.last.taken) = file.blocks.walk ∧
      (∀ r ∈ file.routes, r.last.taken.presence = some (conjunction r.conjuncts)) ∧
      (∀ r ∈ file.routes, ∀ v, holds v r.last.taken.presence → holds v (presenceAround r.around)) ∧
      ∀ c ∈ file.chains, ∀ v, c.branches.countP (fun b => holds v b.presence) ≤ 1 ∧
        ((∃ b ∈ c.branches, b.branch = .last) →
          c.branches.countP (fun b => holds v b.presence) =
            if holds v (presenceAround c.around) then 1 else 0) := by
  have hchains : (ofDocument "f.c.xml" nestedChains).result.toOption.any fun file =>
      file.chains.all fun c =>
        c.branches.all (fun b => b.branch = .last || b.condition.isSome) &&
          c.branches.dropLast.all (·.branch ≠ .last) := by decide +kernel
  cases h : (ofDocument "f.c.xml" nestedChains).result with
  | error fault => rw [h] at hchains; cases hchains
  | ok file =>
    rw [h] at hchains
    obtain ⟨hroutes, _, hpresence, himplies, hpartition⟩ := presence_partitions h
    refine ⟨file, rfl, hroutes, hpresence, himplies, fun c hc => ?_⟩
    obtain ⟨hparsed, hlast⟩ := Bool.and_eq_true_iff.1 (List.all_eq_true.1 hchains c hc)
    refine hpartition c hc (fun b hb hkind => ?_) fun b hb => ?_
    · simpa [hkind, Option.isSome_iff_ne_none] using List.all_eq_true.1 hparsed b hb
    · simpa using List.all_eq_true.1 hlast b hb

end Code
end Variability
