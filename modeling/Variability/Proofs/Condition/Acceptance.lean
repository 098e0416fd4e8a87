import Variability.Condition
import Variability.Proofs.Condition.Completeness
import Variability.Proofs.Condition.Overlong

set_option autoImplicit false

namespace Variability.Condition

def source (text : String) : List Char := expandTabs (signature text.toList)

theorem parse_iff_derives {text : List Char} {e : Expression} :
    parse text = some e ↔ Derives text e :=
  ⟨derives_of_parse, fun h => (parse_of_derives h).1⟩

theorem Derives.unique {text : List Char} {e e' : Expression} (h : Derives text e)
    (h' : Derives text e') : e = e' :=
  Option.some.inj ((parse_iff_derives.2 h).symm.trans (parse_iff_derives.2 h'))

theorem Derives.ne_nil {text : List Char} {e : Expression} (h : Derives text e) : text ≠ [] := by
  obtain ⟨before, cs, after, rfl, _, _, hspells⟩ := h
  obtain ⟨c, hc, _⟩ := hspells.exists_head
  intro hnil
  have hcs : cs = [] := by simp_all
  rw [hcs] at hc
  cases hc

theorem hasOverlong_of_derives {text : List Char} {e : Expression} (h : Derives text e) :
    hasOverlong (Token.scan text).1 = e.literals.any isOverlong := by
  rw [hasOverlong, (parse_of_derives h).2]

theorem joinLines_append_plain {cs : List Char} (h : '\\' ∉ cs) (rest : List Char) :
    joinLines (cs ++ rest) = cs ++ joinLines rest := by
  induction cs with
  | nil => rfl
  | cons c cs ih =>
    obtain ⟨hc, hcs⟩ := not_or.1 (mt List.mem_cons.2 h)
    rw [List.cons_append, joinLines, ih hcs, List.cons_append]
    rintro ds rfl _
    exact hc rfl

theorem joinLines_eq_self {cs : List Char} (h : '\\' ∉ cs) : joinLines cs = cs := by
  simpa [joinLines] using joinLines_append_plain h []

theorem expandTabsFrom_eq_self {cs : List Char} (h : '\t' ∉ cs) (column : Nat) :
    expandTabsFrom column cs = cs := by
  fun_induction expandTabsFrom column cs with
  | case1 => rfl
  | case2 => simp at h
  | case3 column c cs _ ih =>
    simp only [List.mem_cons, not_or] at h
    rw [ih h.2]

variable [ParserStack]

theorem signature_ne_nil_of_exhausts {text : String} (h : ParserStack.exhausts (source text)) :
    signature text.toList ≠ [] := by
  intro hempty
  rw [source, hempty, ParserStack.shallow _ (by decide +kernel)] at h
  cases h

theorem ofExpression_empty {text : String} (h : signature text.toList = []) :
    ofExpression text = .absent := by
  rw [ofExpression, h]

theorem ofExpression_eq {text : String} (hne : signature text.toList ≠ []) :
    ofExpression text =
      if ParserStack.exhausts (source text) then .exhausted (String.ofList (signature text.toList))
      else if hasOverlong (Token.scan (source text)).1 then .overlong
      else match parse (source text) with
        | some e => .parsed e.toFormula
        | none => .unreadable (String.ofList (signature text.toList))
            ((source text).length - (Token.scan (source text)).2.length + 1) := by
  rw [ofExpression]
  split
  · contradiction
  · rfl

theorem ofExpression_exhausted {text : String} (h : ParserStack.exhausts (source text)) :
    ofExpression text = .exhausted (String.ofList (signature text.toList)) := by
  rw [ofExpression_eq (signature_ne_nil_of_exhausts h), if_pos h]

theorem ofExpression_eq_exhausted_iff {text sig : String} :
    ofExpression text = .exhausted sig ↔
      ParserStack.exhausts (source text) ∧ sig = String.ofList (signature text.toList) := by
  constructor
  · intro h
    cases hroom : ParserStack.exhausts (source text) with
    | true =>
      rw [ofExpression_exhausted hroom, exhausted.injEq] at h
      exact ⟨rfl, h.symm⟩
    | false =>
      by_cases hempty : signature text.toList = []
      · rw [ofExpression_empty hempty] at h
        cases h
      · rw [ofExpression_eq hempty, hroom] at h
        simp only [Bool.false_eq_true, if_false] at h
        split at h
        · cases h
        · split at h <;> cases h
  · rintro ⟨h, rfl⟩
    exact ofExpression_exhausted h

section

variable {text : String} (hroom : ParserStack.exhausts (source text) = false)
include hroom

theorem ofExpression_overlong (h : hasOverlong (Token.scan (source text)).1) :
    ofExpression text = .overlong := by
  have hne : signature text.toList ≠ [] := by
    intro hnil
    rw [source, hnil] at h
    revert h
    decide +kernel
  rw [ofExpression_eq hne, hroom, h]
  rfl

theorem ofExpression_parse (hne : signature text.toList ≠ [])
    (h : hasOverlong (Token.scan (source text)).1 = false) :
    ofExpression text = match parse (source text) with
      | some e => .parsed e.toFormula
      | none => .unreadable (String.ofList (signature text.toList))
          ((source text).length - (Token.scan (source text)).2.length + 1) := by
  rw [ofExpression_eq hne, hroom, h]
  rfl

theorem ofExpression_eq_overlong_iff :
    ofExpression text = .overlong ↔ hasOverlong (Token.scan (source text)).1 := by
  refine ⟨fun h => ?_, ofExpression_overlong hroom⟩
  cases hlong : hasOverlong (Token.scan (source text)).1 with
  | true => rfl
  | false =>
    by_cases hempty : signature text.toList = []
    · rw [ofExpression_empty hempty] at h
      cases h
    · rw [ofExpression_parse hroom hempty hlong] at h
      split at h <;> cases h

theorem ofExpression_eq_parsed_iff {f : Formula} :
    ofExpression text = .parsed f ↔ hasOverlong (Token.scan (source text)).1 = false ∧
      ∃ e, Derives (source text) e ∧ e.toFormula = f := by
  cases hlong : hasOverlong (Token.scan (source text)).1 with
  | true => simp [ofExpression_overlong hroom hlong]
  | false =>
    by_cases hempty : signature text.toList = []
    · have hnone : ∀ e, ¬Derives (source text) e := fun e h =>
        h.ne_nil (by rw [source, hempty]; rfl)
      simp [ofExpression_empty hempty, hnone]
    · rw [ofExpression_parse hroom hempty hlong]
      cases hread : parse (source text) with
      | none => simp [← parse_iff_derives, hread]
      | some e => simp [← parse_iff_derives, hread]

theorem ofExpression_of_not_derives (h : ∀ e, ¬Derives (source text) e)
    (hlong : ofExpression text ≠ .overlong) :
    (signature text.toList = [] ∧ ofExpression text = .absent) ∨
      ∃ column, ofExpression text = .unreadable (String.ofList (signature text.toList)) column := by
  by_cases hempty : signature text.toList = []
  · exact .inl ⟨hempty, ofExpression_empty hempty⟩
  · rw [Ne, ofExpression_eq_overlong_iff hroom, Bool.not_eq_true] at hlong
    rw [ofExpression_parse hroom hempty hlong]
    cases hread : parse (source text) with
    | some e => exact absurd (parse_iff_derives.1 hread) (h e)
    | none => exact .inr ⟨_, rfl⟩

end

end Variability.Condition
