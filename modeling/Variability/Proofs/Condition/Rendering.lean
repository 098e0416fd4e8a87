import Mathlib
import Variability.Proofs.Condition.Acceptance
import Variability.Proofs.Formula.LeftNested

/-!
Reading what has been written. A formula over identifiers and macro calls is written with no more
parentheses than the binding order needs.
-/

set_option autoImplicit false

namespace Variability

open Formula (Shape)

namespace Connective

def toJoin : Connective → Condition.Join
  | .conj => .conjunction
  | .disj => .disjunction

def token : Connective → Condition.Token
  | .conj => .and
  | .disj => .or

def expression : Connective → Condition.Expression → Condition.Expression → Condition.Expression
  | .conj => .and
  | .disj => .or

theorem sign_mem_symbols (c : Connective) : (c.sign, c.token) ∈ Condition.symbols := by
  cases c <;> decide

theorem toFormula_foldl (c : Connective) (first : Condition.Expression)
    (more : List Condition.Expression) :
    (more.foldl c.expression first).toFormula =
      (more.map (·.toFormula)).foldl c.join first.toFormula := by
  induction more generalizing first with
  | nil => rfl
  | cons e more ih =>
    have hjoin : (c.expression first e).toFormula = c.join first.toFormula e.toFormula := by
      cases c <;> rfl
    rw [List.foldl_cons, ih, hjoin, List.map_cons, List.foldl_cons]

end Connective

namespace Condition

/-- The names that a condition spells in one operand: an identifier, or the call of a macro with words
as arguments. -/
inductive Spellable : String → Prop where
  | identifier {word : List Char} (h : isIdentifier word) : Spellable (String.ofList word)
  | call {word : List Char} {args : List String} (h : isIdentifier word)
      (hargs : ∀ arg ∈ args, Word arg.toList) :
      Spellable (String.ofList word ++ "(" ++ ",".intercalate args ++ ")")

theorem arguments_intercalate {args : List String} (h : ∀ arg ∈ args, Word arg.toList) :
    Arguments (",".intercalate args).toList args := by
  have hnone : Gap [] := by simp [Gap]
  induction args with
  | nil => exact .none hnone
  | cons arg args ih =>
    have hword := h arg List.mem_cons_self
    cases args with
    | nil =>
      have hlast : Arguments ([] ++ arg.toList ++ []) [String.ofList arg.toList] :=
        .last hnone hword hnone
      simpa using hlast
    | cons next args =>
      have hrest := ih fun a ha => h a (List.mem_cons_of_mem arg ha)
      have hmore := Arguments.more hnone hword hnone (List.cons_ne_nil next args) hrest
      rw [String.intercalate_cons_cons]
      simpa using hmore

/-- What a formula is read as: an expression that stands for it, without long numbers. -/
structure Denotes (e : Expression) (f : Formula) : Prop where
  formula : e.toFormula = f.leftNested
  short : ∀ n ∈ e.literals, isOverlong n = false

theorem Spellable.exists_spells {name : String} (h : Spellable name) :
    ∃ e, Spells .operand name.toList e ∧ Denotes e (.var name) := by
  cases h with
  | @identifier word hword =>
    refine ⟨.name (String.ofList word), ?_, ?_, by simp [Expression.literals]⟩
    · rw [String.toList_ofList]
      exact .name hword
    · rw [Formula.leftNested]
      rfl
  | @call word args hword hargs =>
    refine ⟨.call (String.ofList word) args, ?_, ?_, by simp [Expression.literals]⟩
    · have hnone : Gap [] := by simp [Gap]
      simpa using Spells.call hword hnone (arguments_intercalate hargs)
    · rw [Formula.leftNested]
      rfl

def levelOf : Shape → Level
  | .conj => .join .conjunction
  | .disj => .join .disjunction
  | .neg => .not
  | _ => .operand

theorem levelOf_shape (c : Connective) : levelOf c.shape = .join c.toJoin := by
  cases c <;> rfl

theorem Spells.ofNot {cs : List Char} {e : Expression} (h : Spells .not cs e) (join : Join) :
    Spells (.join join) cs e := by
  have hsum : Spells (.join .arithmetic) cs e := .ofBelow h
  have hcomparison : Spells (.join .comparison) cs e := .ofBelow hsum
  have hconjunction : Spells (.join .conjunction) cs e := .ofBelow hcomparison
  cases join with
  | arithmetic => exact hsum
  | comparison => exact hcomparison
  | conjunction => exact hconjunction
  | disjunction => exact .ofBelow hconjunction

theorem Spells.ofShape {s : Shape} {cs : List Char} {e : Expression}
    (h : Spells (levelOf s) cs e) :
    (s ≠ .conj → s ≠ .disj → Spells .not cs e) ∧ Spells (.join .disjunction) cs e := by
  cases s with
  | conj => exact ⟨fun hc => absurd rfl hc, .ofBelow h⟩
  | disj => exact ⟨fun _ hd => absurd rfl hd, h⟩
  | neg => exact ⟨fun _ _ => h, .ofNot h _⟩
  | _ => exact ⟨fun _ _ => .positive (.operand h), .ofOperand h⟩

theorem spells_bracket {cs : List Char} {e : Expression}
    (h : Spells (.join .disjunction) cs e) : Spells .not ('(' :: cs ++ [')']) e := by
  have hnone : Gap [] := by simp [Gap]
  have hbracket : Spells .operand ('(' :: cs ++ [')']) e := by
    simpa using Spells.parentheses hnone hnone h
  exact .positive (.operand hbracket)

theorem spells_operandText {c : Connective} {f : Formula} {e : Expression}
    (h : Spells (levelOf f.shape) f.render.toList e) (hne : f.shape ≠ c.shape) :
    Spells c.toJoin.below (f.operandText c) e := by
  have hnot : Spells .not (f.operandText c) e := by
    by_cases hother : f.shape = c.other.shape
    · simpa [Formula.operandText, hother, Formula.bracket] using spells_bracket h.ofShape.2
    · have hbare : Spells .not f.render.toList e :=
        h.ofShape.1 (by cases c <;> assumption) (by cases c <;> assumption)
      simpa [Formula.operandText, hother, Formula.bracket] using hbare
  cases c with
  | conj => exact hnot.ofNot .comparison
  | disj => exact hnot.ofNot .conjunction

theorem spells_bodyText {f : Formula} {e : Expression}
    (h : Spells (levelOf f.shape) f.render.toList e) : Spells .not f.bodyText e := by
  by_cases hbinary : f.shape = .conj ∨ f.shape = .disj
  · simpa [Formula.bodyText, hbinary, Formula.bracket] using spells_bracket h.ofShape.2
  · have hbare := h.ofShape.1 (fun hc => hbinary (.inl hc)) (fun hd => hbinary (.inr hd))
    simpa [Formula.bodyText, hbinary, Formula.bracket] using hbare

theorem exists_steps (c : Connective) {fs : List Formula}
    (h : ∀ f ∈ fs, ∃ e, Spells c.toJoin.below (f.operandText c) e ∧ Denotes e f) :
    ∃ steps : List Step,
      steps.flatMap Step.spelling =
        (fs.flatMap fun f => ' ' :: c.sign ++ ' ' :: f.operandText c) ∧
      (∀ s ∈ steps, s.Joins c.toJoin) ∧
      (∀ s ∈ steps, Spells c.toJoin.below s.text s.operand) ∧
      steps.map (·.operand.toFormula) = fs.map Formula.leftNested ∧
      ∀ s ∈ steps, ∀ n ∈ s.operand.literals, isOverlong n = false := by
  induction fs with
  | nil => exact ⟨[], rfl, by simp, by simp, rfl, by simp⟩
  | cons f fs ih =>
    obtain ⟨e, hspells, hdenotes⟩ := h f List.mem_cons_self
    obtain ⟨steps, htext, hjoins, hoperands, hformulas, hshort⟩ :=
      ih fun g hg => h g (List.mem_cons_of_mem f hg)
    let step : Step := ⟨[' '], c.sign, c.token, [' '], f.operandText c, e⟩
    have hgap : Gap [' '] := List.all_eq_true.1 (by decide)
    have hstep : step.Joins c.toJoin :=
      ⟨hgap, c.sign_mem_symbols, by cases c <;> rfl, hgap⟩
    refine ⟨step :: steps, ?_, ?_, ?_, ?_, ?_⟩
    · simp [htext, step, Step.spelling]
    · exact List.forall_mem_cons.2 ⟨hstep, hjoins⟩
    · exact List.forall_mem_cons.2 ⟨hspells, hoperands⟩
    · rw [List.map_cons, List.map_cons, hformulas, hdenotes.formula]
    · exact List.forall_mem_cons.2 ⟨hdenotes.short, hshort⟩

theorem node_toJoin (c : Connective) (first : Expression) (steps : List Step) :
    c.toJoin.node first (steps.map fun s => (s.token, s.operand)) =
      (steps.map (·.operand)).foldl c.expression first := by
  cases c <;> simp [Connective.toJoin, Join.node, Connective.expression, Function.comp_def]

theorem exists_spells_of_operands {c : Connective} {l r : Formula}
    (h : ∀ g ∈ (c.join l r).operands c,
      ∃ e, Spells c.toJoin.below (g.operandText c) e ∧ Denotes e g) :
    ∃ e, Spells (.join c.toJoin) (c.join l r).render.toList e ∧ Denotes e (c.join l r) := by
  obtain ⟨first, more, hsplit⟩ := Formula.exists_operands c (c.join l r)
  rw [hsplit] at h
  obtain ⟨e, hspells, hdenotes⟩ := h first List.mem_cons_self
  obtain ⟨steps, htext, hjoins, hoperands, hformulas, hshort⟩ :=
    exists_steps c fun g hg => h g (List.mem_cons_of_mem first hg)
  have hchain := Spells.chain hspells hjoins hoperands
  have hrender : (c.join l r).render.toList =
      first.operandText c ++ steps.flatMap Step.spelling := by
    rw [htext, ← Formula.operandText_join, Formula.operandText_operands hsplit]
  rw [← hrender] at hchain
  refine ⟨_, hchain, ?_, ?_⟩
  · rw [node_toJoin, c.toFormula_foldl, Formula.leftNested_join, hsplit, List.map_cons,
      Connective.nest, ← hformulas, hdenotes.formula, List.map_map]
    rfl
  · have htokens : ∀ m ∈ steps.map fun s => (s.token, s.operand), c.toJoin.joins m.1 := by
      intro m hm
      obtain ⟨s, hs, rfl⟩ := List.mem_map.1 hm
      exact (hjoins s hs).joins
    rw [Join.literals_node c.toJoin e htokens]
    intro n hn
    rcases List.mem_append.1 hn with hn | hn
    · exact hdenotes.short n hn
    · obtain ⟨m, hm, hn⟩ := List.mem_flatMap.1 hn
      obtain ⟨s, hs, rfl⟩ := List.mem_map.1 hm
      exact hshort s hs n hn

theorem exists_spells_render {f : Formula} (h : ∀ name ∈ f.occurrences, Spellable name) :
    ∃ e, Spells (levelOf f.shape) f.render.toList e ∧ Denotes e f := by
  have hnone : Gap [] := by simp [Gap]
  have hdigit : ∀ c : Char, c.isDigit → Spells .operand [c]
      (.number (String.ofList [c]) (valueIn 10 [c])) := by
    intro c hc
    have hdecimal : Spells .operand ([c] ++ []) (.number (String.ofList [c]) (valueIn 10 [c])) :=
      .decimal (by simp) (by simpa using hc) .none
    exact hdecimal
  induction f using Formula.byOperands with
  | tru =>
    refine ⟨_, hdigit '1' (by decide), ?_, by decide⟩
    rw [Formula.leftNested]
    rfl
  | fls =>
    refine ⟨_, hdigit '0' (by decide), ?_, by decide⟩
    rw [Formula.leftNested]
    rfl
  | var name => exact (h name (by simp [Formula.occurrences])).exists_spells
  | neg f ih =>
    obtain ⟨e, hspells, hdenotes⟩ := ih h
    have hbody := spells_bodyText hspells
    have hunequal : ([] ++ f.bodyText).head? ≠ some '=' := by
      obtain ⟨c, hc, hopens⟩ := hbody.exists_head
      rw [List.nil_append, hc]
      intro heq
      obtain rfl := Option.some.inj heq
      revert hopens
      decide
    refine ⟨.not e, ?_, ?_, hdenotes.short⟩
    · rw [Formula.toList_render_neg]
      exact Spells.not hnone hunequal hbody
    · rw [Formula.leftNested, ← hdenotes.formula]
      rfl
  | tree c l r ih =>
    rw [c.shape_join, levelOf_shape]
    refine exists_spells_of_operands fun g hg => ?_
    have hnames : ∀ name ∈ g.occurrences, Spellable name := by
      intro name hname
      refine h name ?_
      rw [← Formula.occurrences_operands c (c.join l r)]
      exact List.mem_flatMap.2 ⟨g, hg, hname⟩
    obtain ⟨e, hspells, hdenotes⟩ := ih g hg hnames
    exact ⟨e, spells_operandText hspells (Formula.shape_of_mem_operands hg), hdenotes⟩

def isPlain (c : Char) : Bool := isWordChar c || [' ', '!', '(', ')', ',', '&', '|'].contains c

def Plain (cs : List Char) : Prop := ∀ c ∈ cs, isPlain c

def Closed (cs : List Char) : Prop := ∃ c, cs.getLast? = some c ∧ Text.isBlank c = false

theorem Word.plain {word : List Char} (h : Word word) : Plain word := fun c hc => by
  simp [isPlain, h.2 c hc]

theorem Plain.not_mem {cs : List Char} (h : Plain cs) {c : Char} (hc : isPlain c = false) :
    c ∉ cs := by
  intro hmem
  rw [h c hmem] at hc
  cases hc

theorem Plain.append {cs ds : List Char} (hcs : Plain cs) (hds : Plain ds) : Plain (cs ++ ds) :=
  fun c hc => (List.mem_append.1 hc).elim (hcs c) (hds c)

theorem Closed.append {ds : List Char} (h : Closed ds) (cs : List Char) : Closed (cs ++ ds) := by
  obtain ⟨c, hc, hblank⟩ := h
  exact ⟨c, by rw [List.getLast?_append, hc]; rfl, hblank⟩

theorem not_isBlank_of_isWordChar {c : Char} (h : isWordChar c) : Text.isBlank c = false := by
  simp only [isWordChar, Char.isAlphanum, Char.isAlpha, Char.isUpper, Char.isLower, Char.isDigit,
    UInt32.le_iff_toNat_le, ge_iff_le, Bool.or_eq_true, Bool.and_eq_true, decide_eq_true_eq] at h
  have hvalue : c.toNat = c.val.toNat := rfl
  have hlimits : 48 ≤ c.val.toNat ∧ c.val.toNat ≤ 122 := by
    rcases h with ((⟨hlow, hhigh⟩ | ⟨hlow, hhigh⟩) | ⟨hlow, hhigh⟩) | rfl
    · exact ⟨Nat.le_trans (by decide) hlow, Nat.le_trans hhigh (by decide)⟩
    · exact ⟨Nat.le_trans (by decide) hlow, Nat.le_trans hhigh (by decide)⟩
    · exact ⟨Nat.le_trans (by decide) hlow, Nat.le_trans hhigh (by decide)⟩
    · decide
  simp only [Text.isBlank, hvalue, Bool.or_eq_false_iff, Bool.and_eq_false_iff,
    decide_eq_false_iff_not, beq_eq_false_iff_ne]
  omega

theorem Word.closed {word : List Char} (h : Word word) : Closed word := by
  obtain ⟨c, hc⟩ := Option.ne_none_iff_exists'.1 (mt List.getLast?_eq_none_iff.1 h.1)
  exact ⟨c, hc, not_isBlank_of_isWordChar (h.2 c (List.mem_of_getLast? hc))⟩

theorem mem_intercalate {args : List String} {c : Char} (h : c ∈ (",".intercalate args).toList) :
    c = ',' ∨ ∃ a ∈ args, c ∈ a.toList := by
  induction args with
  | nil => simp at h
  | cons a args ih =>
    cases args with
    | nil => exact .inr ⟨a, by simp, by simpa using h⟩
    | cons b args =>
      rw [String.intercalate_cons_cons, String.toList_append, String.toList_append] at h
      rcases List.mem_append.1 h with h | h
      · rcases List.mem_append.1 h with h | h
        · exact .inr ⟨a, List.mem_cons_self, h⟩
        · exact .inl (by simpa using h)
      · exact (ih h).imp id fun ⟨d, hd, hc⟩ => ⟨d, List.mem_cons_of_mem a hd, hc⟩

theorem plain_intercalate {args : List String} (h : ∀ arg ∈ args, Word arg.toList) :
    Plain (",".intercalate args).toList := by
  intro c hc
  rcases mem_intercalate hc with rfl | ⟨a, ha, hmem⟩
  · decide
  · exact (h a ha).plain c hmem

theorem Spellable.plain_closed {name : String} (h : Spellable name) :
    Plain name.toList ∧ Closed name.toList := by
  cases h with
  | @identifier word hword =>
    rw [String.toList_ofList]
    exact ⟨(isIdentifier_word hword).plain, (isIdentifier_word hword).closed⟩
  | @call word args hword hargs =>
    have hopen : Plain ['('] := List.all_eq_true.1 (by decide)
    have hclose : Plain [')'] := List.all_eq_true.1 (by decide)
    have hend : Closed [')'] := ⟨')', rfl, by decide⟩
    simp only [String.toList_append, String.toList_ofList]
    exact ⟨(((isIdentifier_word hword).plain.append hopen).append (plain_intercalate hargs)).append
      hclose, hend.append _⟩

theorem plain_closed_bracket {text : String} (h : Plain text.toList ∧ Closed text.toList)
    (needed : Bool) :
    Plain (Formula.bracket needed text).toList ∧ Closed (Formula.bracket needed text).toList := by
  cases needed with
  | false => exact h
  | true =>
    have hopen : Plain ['('] := List.all_eq_true.1 (by decide)
    have hclose : Plain [')'] := List.all_eq_true.1 (by decide)
    have hend : Closed [')'] := ⟨')', rfl, by decide⟩
    simp only [Formula.bracket, if_true, String.toList_append]
    exact ⟨(hopen.append h.1).append hclose, hend.append _⟩

theorem plain_closed_join {c : Connective} {l r : Formula}
    (hl : Plain l.render.toList ∧ Closed l.render.toList)
    (hr : Plain r.render.toList ∧ Closed r.render.toList) :
    Plain (c.join l r).render.toList ∧ Closed (c.join l r).render.toList := by
  have hleft := plain_closed_bracket hl (l.shape = c.other.shape)
  have hright := plain_closed_bracket hr (r.shape = c.other.shape)
  have hsign : Plain (' ' :: c.sign ++ [' ']) := List.all_eq_true.1 (by cases c <;> decide)
  have htext : (c.join l r).render.toList =
      l.operandText c ++ (' ' :: c.sign ++ [' ']) ++ r.operandText c := by
    rw [Formula.toList_render_join]
    simp
  rw [htext]
  exact ⟨(hleft.1.append hsign).append hright.1, hright.2.append _⟩

theorem plain_closed_render {f : Formula} (h : ∀ name ∈ f.occurrences, Spellable name) :
    Plain f.render.toList ∧ Closed f.render.toList := by
  induction f with
  | tru => exact ⟨List.all_eq_true.1 (by decide), '1', rfl, by decide⟩
  | fls => exact ⟨List.all_eq_true.1 (by decide), '0', rfl, by decide⟩
  | var name => exact (h name (by simp [Formula.occurrences])).plain_closed
  | neg f ih =>
    have hbody := plain_closed_bracket (ih h) (f.shape = .conj ∨ f.shape = .disj)
    have hsign : Plain ['!'] := List.all_eq_true.1 (by decide)
    rw [Formula.toList_render_neg]
    exact ⟨hsign.append hbody.1, hbody.2.append ['!']⟩
  | conj l r hl hr =>
    exact plain_closed_join (c := .conj) (hl fun n hn => h n (List.mem_append_left _ hn))
      (hr fun n hn => h n (List.mem_append_right _ hn))
  | disj l r hl hr =>
    exact plain_closed_join (c := .disj) (hl fun n hn => h n (List.mem_append_left _ hn))
      (hr fun n hn => h n (List.mem_append_right _ hn))

theorem not_isBlank_of_opens {c : Char} (h : opens c) : Text.isBlank c = false := by
  simp only [opens, Bool.or_eq_true, decide_eq_true_eq] at h
  rcases h with ((h | rfl) | rfl) | rfl
  · exact not_isBlank_of_isWordChar h
  all_goals decide

theorem signature_eq_self {text : String} {level : Level} {e : Expression}
    (hplain : Plain text.toList) (hclosed : Closed text.toList)
    (hspells : Spells level text.toList e) : signature text.toList = text.toList := by
  have hstrip : Text.strip text.toList = text.toList := by
    refine Text.strip_eq_self (fun c hc => ?_) fun c hc => ?_
    · obtain ⟨d, hd, hopens⟩ := hspells.exists_head
      obtain rfl := Option.some.inj (hd.symm.trans hc)
      exact not_isBlank_of_opens hopens
    · obtain ⟨d, hd, hblank⟩ := hclosed
      obtain rfl := Option.some.inj (hd.symm.trans hc)
      exact hblank
  rw [signature, uncomment_eq_self (hplain.not_mem (by decide)),
    joinLines_eq_self (hplain.not_mem (by decide)), hstrip]

theorem source_eq_self {text : String} {level : Level} {e : Expression}
    (hplain : Plain text.toList) (hclosed : Closed text.toList)
    (hspells : Spells level text.toList e) : source text = text.toList := by
  rw [source, signature_eq_self hplain hclosed hspells, expandTabs,
    expandTabsFrom_eq_self (hplain.not_mem (by decide))]

section

variable [ParserStack]

theorem ofExpression_render_of_exhausts {f : Formula} (h : ∀ name ∈ f.occurrences, Spellable name)
    (hroom : ParserStack.exhausts f.render.toList) :
    ofExpression f.render = .exhausted f.render := by
  obtain ⟨e, hspells, -⟩ := exists_spells_render h
  obtain ⟨hplain, hclosed⟩ := plain_closed_render h
  rw [← source_eq_self hplain hclosed hspells] at hroom
  rw [ofExpression_exhausted hroom, signature_eq_self hplain hclosed hspells, String.ofList_toList]

end

/-- Written as `A && !!(B && M(x,1)) && (0 || !C)`; without its double negation an operand of the
conjunction is a conjunction itself. -/
def exposedOperand : Formula :=
  .conj (.var "A")
    (.conj (.neg (.neg (.conj (.var "B") (.var "M(x,1)")))) (.disj .fls (.neg (.var "C"))))

def alternation : Nat → Formula
  | 0 => .var "A"
  | n + 1 => .conj (.var "A") (.disj (.var "A") (alternation n))

theorem occurrences_alternation (n : Nat) : ∀ name ∈ (alternation n).occurrences, name = "A" := by
  induction n with
  | zero => simp [alternation, Formula.occurrences]
  | succ n ih => simpa [alternation, Formula.occurrences] using ih

end Condition
end Variability
