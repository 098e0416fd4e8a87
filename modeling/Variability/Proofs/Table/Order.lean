import Mathlib
import Variability.Table.Sheet

set_option autoImplicit false

namespace Variability.Table

namespace Part

theorem before_number {m n : Int} : (number m).before (.number n) ↔ m < n := by
  simp only [before, decide_eq_true_eq]

theorem before_text {s t : String} : (text s).before (.text t) ↔ s < t := by
  simp only [before, decide_eq_true_eq]

theorem before_irrefl (p : Part) : ¬ p.before p := by
  cases p with
  | absent => nofun
  | number n => exact fun h => Int.lt_irrefl n (before_number.1 h)
  | text s => exact fun h => String.lt_irrefl s (before_text.1 h)

theorem before_trans {p q r : Part} (hpq : p.before q) (hqr : q.before r) : p.before r := by
  cases p with
  | absent => cases q <;> cases r <;> trivial
  | number m =>
    cases q with
    | absent => cases hpq
    | number n =>
      cases r with
      | number k => exact before_number.2 (Int.lt_trans (before_number.1 hpq) (before_number.1 hqr))
      | _ => trivial
    | text t => cases r <;> trivial
  | text s =>
    cases q with
    | text t =>
      cases r with
      | text u => exact before_text.2 (String.lt_trans (before_text.1 hpq) (before_text.1 hqr))
      | _ => cases hqr
    | _ => cases hpq

theorem before_or_eq_or_before (p q : Part) : p.before q ∨ p = q ∨ q.before p := by
  cases p with
  | absent => cases q <;> simp [before]
  | number m =>
    cases q with
    | number n =>
      rw [before_number, before_number, number.injEq]
      omega
    | _ => simp [before]
  | text s =>
    cases q with
    | text t =>
      rw [before_text, before_text, text.injEq]
      by_cases hst : s < t
      · exact .inl hst
      · by_cases hts : t < s
        · exact .inr (.inr hts)
        · exact .inr (.inl (String.le_antisymm (String.not_lt.1 hts) (String.not_lt.1 hst)))
    | _ => simp [before]

def isText : Part → Bool
  | .number _ => false
  | _ => true

def isNumber : Part → Bool
  | .text _ => false
  | _ => true

theorem clashes_eq_false {p q : Part} (h : p.isText ∧ q.isText ∨ p.isNumber ∧ q.isNumber) :
    p.clashes q = false := by
  cases p <;> cases q <;> simp_all [isText, isNumber, clashes]

end Part

namespace Location

/-- The first part in which two locations differ decides; no part comes before any part. -/
def Before (l m : Location) : Prop := List.Lex (fun p q => p.before q = true) l.parts m.parts

theorem lex_trans {ps qs rs : List Part} (hpq : List.Lex (fun p q => p.before q = true) ps qs)
    (hqr : List.Lex (fun p q => p.before q = true) qs rs) :
    List.Lex (fun p q => p.before q = true) ps rs := by
  induction hpq generalizing rs with
  | nil => cases hqr <;> exact .nil
  | rel hfirst =>
    cases hqr with
    | rel hnext => exact .rel (Part.before_trans hfirst hnext)
    | cons _ => exact .rel hfirst
  | cons _ ih =>
    cases hqr with
    | rel hnext => exact .rel hnext
    | cons hrest => exact .cons (ih hrest)

theorem lex_irrefl (ps : List Part) : ¬ List.Lex (fun p q => p.before q = true) ps ps := by
  induction ps with
  | nil => nofun
  | cons p ps ih =>
    intro h
    cases h with
    | rel hbefore => exact Part.before_irrefl p hbefore
    | cons hrest => exact ih hrest

theorem lex_or_eq_or_lex (ps qs : List Part) :
    List.Lex (fun p q => p.before q = true) ps qs ∨ ps = qs ∨
      List.Lex (fun p q => p.before q = true) qs ps := by
  induction ps generalizing qs with
  | nil =>
    cases qs with
    | nil => exact .inr (.inl rfl)
    | cons q qs => exact .inl .nil
  | cons p ps ih =>
    cases qs with
    | nil => exact .inr (.inr .nil)
    | cons q qs =>
      rcases Part.before_or_eq_or_before p q with hpq | rfl | hqp
      · exact .inl (.rel hpq)
      · rcases ih qs with hlex | rfl | hlex
        · exact .inl (.cons hlex)
        · exact .inr (.inl rfl)
        · exact .inr (.inr (.cons hlex))
      · exact .inr (.inr (.rel hqp))

theorem orderedParts_iff {ps qs : List Part} :
    orderedParts ps qs ↔ List.Lex (fun p q => p.before q = true) ps qs ∨ ps = qs := by
  induction ps generalizing qs with
  | nil => cases qs <;> simp [orderedParts]
  | cons p ps ih =>
    cases qs with
    | nil => simp [orderedParts]
    | cons q qs =>
      simp only [orderedParts, Bool.or_eq_true, Bool.and_eq_true, decide_eq_true_eq, ih,
        List.cons.injEq]
      constructor
      · rintro (hbefore | ⟨rfl, hlex | rfl⟩)
        · exact .inl (.rel hbefore)
        · exact .inl (.cons hlex)
        · exact .inr ⟨rfl, rfl⟩
      · rintro (hlex | ⟨rfl, rfl⟩)
        · cases hlex with
          | rel hbefore => exact .inl hbefore
          | cons hrest => exact .inr ⟨rfl, .inl hrest⟩
        · exact .inr ⟨rfl, .inr rfl⟩

theorem parts_injective {l m : Location} (h : l.parts = m.parts) : l = m := by
  cases l
  cases m
  simpa [parts] using h

theorem ordered_iff {l m : Location} : l.ordered m ↔ l.Before m ∨ l = m :=
  orderedParts_iff.trans (or_congr_right ⟨parts_injective, congrArg parts⟩)

theorem ordered_trans (l m n : Location) (hlm : l.ordered m) (hmn : m.ordered n) : l.ordered n := by
  rcases ordered_iff.1 hlm with hlm | rfl
  · rcases ordered_iff.1 hmn with hmn | rfl
    · exact ordered_iff.2 (.inl (lex_trans hlm hmn))
    · exact ordered_iff.2 (.inl hlm)
  · exact hmn

theorem ordered_total (l m : Location) : l.ordered m || m.ordered l := by
  rw [Bool.or_eq_true, ordered_iff, ordered_iff]
  rcases lex_or_eq_or_lex l.parts m.parts with hlm | heq | hml
  · exact .inl (.inl hlm)
  · exact .inl (.inr (parts_injective heq))
  · exact .inr (.inl hml)

theorem ordered_antisymm {l m : Location} (hlm : l.ordered m) (hml : m.ordered l) : l = m := by
  rcases ordered_iff.1 hlm with hlm | rfl
  · rcases ordered_iff.1 hml with hml | rfl
    · exact absurd (lex_trans hlm hml) (lex_irrefl _)
    · rfl
  · rfl

theorem pairwise_ordered (ls : List Location) :
    (ls.mergeSort ordered).Pairwise fun l m => l.ordered m :=
  List.pairwise_mergeSort ordered_trans ordered_total ls

theorem pairwise_before {ls : List Location} (h : ls.Nodup) : (ls.mergeSort ordered).Pairwise Before := by
  have hnodup : (ls.mergeSort ordered).Nodup := (List.mergeSort_perm ls ordered).nodup_iff.2 h
  refine ((pairwise_ordered ls).and hnodup).imp fun ⟨hordered, hne⟩ => ?_
  exact (ordered_iff.1 hordered).resolve_right hne

theorem mergeSort_congr {ls ms : List Location} (h : ls.Perm ms) :
    ls.mergeSort ordered = ms.mergeSort ordered := by
  refine List.Perm.eq_of_pairwise (fun l m _ _ => ordered_antisymm) (pairwise_ordered ls)
    (pairwise_ordered ms) ?_
  exact (List.mergeSort_perm ls ordered).trans (h.trans (List.mergeSort_perm ms ordered).symm)

def IsTyped (l : Location) : Prop :=
  l.source.isText ∧ l.included.isText ∧ l.line.isNumber ∧ l.element.isText

instance (l : Location) : Decidable l.IsTyped := inferInstanceAs (Decidable (_ ∧ _))

theorem clashes_eq_false {l m : Location} (hl : l.IsTyped) (hm : m.IsTyped) : l.clashes m = false := by
  obtain ⟨hsource, hincluded, hline, helement⟩ := hl
  obtain ⟨hsource', hincluded', hline', helement'⟩ := hm
  simp [clashes, parts, clashingParts, Part.clashes_eq_false (.inl ⟨hsource, hsource'⟩),
    Part.clashes_eq_false (.inl ⟨hincluded, hincluded'⟩),
    Part.clashes_eq_false (.inr ⟨hline, hline'⟩),
    Part.clashes_eq_false (.inl ⟨helement, helement'⟩)]

end Location
end Variability.Table
