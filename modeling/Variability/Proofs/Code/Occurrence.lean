import Variability.Code.Document
import Variability.Proofs.Code.Mark

set_option autoImplicit false

namespace Variability.Code

def elements : Xml.Content → List (Xml.Tag × Xml.Content)
  | .nil => []
  | .text _ next | .comment next | .instruction next | .unknown _ next => elements next
  | .element tag children next => elements children ++ (tag, children) :: elements next

def roleOf? (tag : Xml.Tag) : Option Role :=
  (qualified tag.name).map fun (space, label) => role space label

structure Occurrence where
  directive : Directive
  tag : Xml.Tag
  inside : Xml.Content

def occurrence? (e : Xml.Tag × Xml.Content) : Option Occurrence :=
  match roleOf? e.1 with
  | some (.directive d) => some ⟨d, e.1, e.2⟩
  | _ => none

def occurrences (c : Xml.Content) : List Occurrence := (elements c).filterMap occurrence?

def directives (d : Xml.Document) : List Occurrence :=
  occurrences (.element d.tag d.children .nil)

def landmarksAround (rootLine : Nat) (tag : Xml.Tag) (children : Xml.Content)
    (inside : List Landmark) : List Landmark :=
  match roleOf? tag with
  | none => [.broken .unqualified]
  | some .function =>
    functionStart rootLine tag children :: inside ++ [.functionEnd (children.chars.count '\n')]
  | some (.directive d) => inside ++ [directiveMark rootLine tag children d]
  | some .other => inside

theorem landmarks_element (rootLine : Nat) (tag : Xml.Tag) (children next : Xml.Content) :
    landmarks rootLine (.element tag children next) =
      landmarksAround rootLine tag children (landmarks rootLine children) ++
        landmarks rootLine next := by
  rw [landmarks, landmarksAround, roleOf?]
  congr 1
  cases hq : qualified tag.name with
  | none => rfl
  | some name => cases hr : role name.1 name.2 <;> simp [hr]

theorem occurrences_element (tag : Xml.Tag) (children next : Xml.Content) :
    occurrences (.element tag children next) =
      occurrences children ++ ((occurrence? (tag, children)).toList ++ occurrences next) := by
  rw [occurrences, elements, List.filterMap_append, List.filterMap_cons]
  cases occurrence? (tag, children) <;> rfl

def Whole (landmarks : List Landmark) : Prop := ∀ fault, Landmark.broken fault ∉ landmarks

theorem whole_append {ms ns : List Landmark} : Whole (ms ++ ns) ↔ Whole ms ∧ Whole ns := by
  simp [Whole, not_or, forall_and]

/-- An element has a usable name, and a function stands on a line that can be read. -/
structure Legible (rootLine : Nat) (tag : Xml.Tag) : Prop where
  role : roleOf? tag ≠ none
  line : roleOf? tag = some .function → (elementLine rootLine tag).isOk

instance (rootLine : Nat) (tag : Xml.Tag) : Decidable (Legible rootLine tag) :=
  decidable_of_iff
    (roleOf? tag ≠ none ∧ (roleOf? tag = some .function → (elementLine rootLine tag).isOk))
    ⟨fun ⟨hrole, hline⟩ => ⟨hrole, hline⟩, fun h => ⟨h.role, h.line⟩⟩

def AllLegible (rootLine : Nat) (c : Xml.Content) : Prop := ∀ e ∈ elements c, Legible rootLine e.1

instance (rootLine : Nat) (c : Xml.Content) : Decidable (AllLegible rootLine c) :=
  inferInstanceAs (Decidable (∀ e ∈ elements c, Legible rootLine e.1))

theorem allLegible_element {rootLine : Nat} {tag : Xml.Tag} {children next : Xml.Content} :
    AllLegible rootLine (.element tag children next) ↔
      AllLegible rootLine children ∧ Legible rootLine tag ∧ AllLegible rootLine next := by
  simp [AllLegible, elements, or_imp, forall_and]

theorem functionName_ok {rootLine : Nat} {c : Xml.Content} (h : AllLegible rootLine c) :
    ∃ name, functionName c = .ok name := by
  induction c with
  | nil => exact ⟨"", rfl⟩
  | text _ _ ih => exact ih h
  | comment _ ih => exact ih h
  | instruction _ ih => exact ih h
  | unknown _ _ ih => exact ih h
  | element tag children next _ hn =>
    obtain ⟨_, htag, hnext⟩ := allLegible_element.1 h
    rw [functionName]
    cases hq : qualified tag.name with
    | none => exact absurd (by simp [roleOf?, hq]) htag.role
    | some name =>
      dsimp only
      split
      · exact ⟨_, rfl⟩
      · exact hn hnext

variable [ParserStack]

def Occurrence.mark (rootLine : Nat) (o : Occurrence) : Except Fault Mark :=
  elementLine rootLine o.tag >>= fun line => markOf o.directive line (directiveText o.inside)

theorem whole_of_marks {landmarks : List Landmark} {ms : List Mark}
    (h : landmarks.flatMap Landmark.marks = ms.map .ok) : Whole landmarks := by
  intro fault hmem
  have herror : Except.error fault ∈ landmarks.flatMap Landmark.marks :=
    List.mem_flatMap.2 ⟨_, hmem, List.mem_singleton_self _⟩
  rw [h] at herror
  obtain ⟨_, _, hm⟩ := List.mem_map.1 herror
  cases hm

theorem marks_functionStart {rootLine : Nat} {tag : Xml.Tag} {children : Xml.Content}
    (h : Whole [functionStart rootLine tag children]) :
    (functionStart rootLine tag children).marks = [] := by
  unfold functionStart at h ⊢
  split at h <;> simp_all [Whole, Landmark.marks]

theorem marks_directiveMark {rootLine : Nat} {tag : Xml.Tag} {children : Xml.Content}
    {d : Directive} (h : Whole [directiveMark rootLine tag children d]) :
    (directiveMark rootLine tag children d).marks =
      [Occurrence.mark rootLine ⟨d, tag, children⟩] := by
  unfold directiveMark at h ⊢
  cases hline : elementLine rootLine tag with
  | error fault => simp [hline, Whole] at h
  | ok line => simp [Landmark.marks, Occurrence.mark, hline, bind, Except.bind]

theorem marks_landmarksAround {rootLine : Nat} {tag : Xml.Tag} {children : Xml.Content}
    {inside : List Landmark} (h : Whole (landmarksAround rootLine tag children inside)) :
    Whole inside ∧ (landmarksAround rootLine tag children inside).flatMap Landmark.marks =
      inside.flatMap Landmark.marks ++
        (occurrence? (tag, children)).toList.map (·.mark rootLine) := by
  unfold landmarksAround at h ⊢
  unfold occurrence?
  cases hr : roleOf? tag with
  | none => simp [hr, Whole] at h
  | some r =>
    simp only [hr] at h ⊢
    cases r with
    | function =>
      have hsplit : Whole ([functionStart rootLine tag children] ++ inside) :=
        (whole_append.1 h).1
      obtain ⟨hstart, hinside⟩ := whole_append.1 hsplit
      exact ⟨hinside, by simp [marks_functionStart hstart]⟩
    | directive d =>
      obtain ⟨hinside, hmark⟩ := whole_append.1 h
      exact ⟨hinside, by simp [marks_directiveMark hmark]⟩
    | other => exact ⟨h, by simp⟩

theorem marks_landmarks {rootLine : Nat} {c : Xml.Content} (h : Whole (landmarks rootLine c)) :
    (landmarks rootLine c).flatMap Landmark.marks = (occurrences c).map (·.mark rootLine) := by
  induction c with
  | nil => rfl
  | text _ _ ih => exact ih h
  | comment _ ih => exact ih h
  | instruction _ ih => exact ih h
  | unknown _ _ ih => exact ih h
  | element tag children next hc hn =>
    rw [landmarks_element] at h ⊢
    obtain ⟨haround, hnext⟩ := whole_append.1 h
    obtain ⟨hinside, hmarks⟩ := marks_landmarksAround haround
    rw [occurrences_element, List.flatMap_append, hmarks, hc hinside, hn hnext]
    simp

theorem whole_landmarks {rootLine : Nat} {c : Xml.Content} (h : AllLegible rootLine c)
    (hmark : ∀ o ∈ occurrences c, ∃ mark, o.mark rootLine = .ok mark) :
    Whole (landmarks rootLine c) := by
  induction c with
  | nil => simp [landmarks, Whole]
  | text _ _ ih => exact ih h hmark
  | comment _ ih => exact ih h hmark
  | instruction _ ih => exact ih h hmark
  | unknown _ _ ih => exact ih h hmark
  | element tag children next hc hn =>
    obtain ⟨hchildren, htag, hnext⟩ := allLegible_element.1 h
    simp only [occurrences_element, List.mem_append] at hmark
    have hinside := hc hchildren fun o ho => hmark o (.inl ho)
    rw [landmarks_element, whole_append]
    refine ⟨?_, hn hnext fun o ho => hmark o (.inr (.inr ho))⟩
    unfold landmarksAround
    cases hr : roleOf? tag with
    | none => exact absurd hr htag.role
    | some r =>
      cases r with
      | function =>
        obtain ⟨line, hl⟩ : ∃ line, elementLine rootLine tag = .ok line := by
          cases he : elementLine rootLine tag with
          | error fault => exact absurd (he ▸ htag.line hr) (by simp [Except.isOk, Except.toBool])
          | ok line => exact ⟨line, rfl⟩
        obtain ⟨name, hname⟩ := functionName_ok hchildren
        dsimp only
        rw [functionStart, hname, hl, ← List.singleton_append, whole_append, whole_append]
        exact ⟨⟨by simp [Whole], hinside⟩, by simp [Whole]⟩
      | directive d =>
        obtain ⟨mark, hm⟩ := hmark ⟨d, tag, children⟩ (.inr (.inl (by simp [occurrence?, hr])))
        obtain ⟨line, hl, _⟩ := bind_eq_ok.1 hm
        dsimp only at hl ⊢
        rw [directiveMark, hl, whole_append]
        exact ⟨hinside, by simp [Whole]⟩
      | other => exact hinside

end Variability.Code
