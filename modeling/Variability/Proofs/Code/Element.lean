import Variability.Proofs.Code.Occurrence

/-!
A document as the sequence of its start and end tags. An element is a stretch of it that begins with
a start tag and ends with the end tag that belongs to it.
-/

set_option autoImplicit false

namespace Variability.Code

inductive Event where
  | start (tag : Xml.Tag) (inside : Xml.Content)
  | finish (tag : Xml.Tag) (inside : Xml.Content)
  deriving DecidableEq

def events : Xml.Content → List Event
  | .nil => []
  | .text _ next | .comment next | .instruction next | .unknown _ next => events next
  | .element tag children next =>
    .start tag children :: (events children ++ .finish tag children :: events next)

namespace Event

def startsFunction : Event → Bool
  | .start tag _ => roleOf? tag = some .function
  | .finish _ _ => false

def occurrence? : Event → Option Occurrence
  | .start _ _ => none
  | .finish tag inside => Code.occurrence? (tag, inside)

def landmarks (rootLine : Nat) : Event → List Landmark
  | .start tag inside =>
    match roleOf? tag with
    | none => [.broken .unqualified]
    | some .function => [functionStart rootLine tag inside]
    | some _ => []
  | .finish tag inside =>
    match roleOf? tag with
    | some .function => [.functionEnd (inside.chars.count '\n')]
    | some (.directive d) => [directiveMark rootLine tag inside d]
    | _ => []

end Event

def Landmark.startsFunction : Landmark → Bool
  | .functionStart _ _ => true
  | _ => false

theorem filterMap_occurrence_events (c : Xml.Content) :
    (events c).filterMap Event.occurrence? = occurrences c := by
  induction c with
  | nil => rfl
  | text _ _ ih => exact ih
  | comment _ ih => exact ih
  | instruction _ ih => exact ih
  | unknown _ _ ih => exact ih
  | element tag children next hc hn =>
    rw [occurrences_element, events, List.filterMap_cons, List.filterMap_append, List.filterMap_cons,
      hc, hn]
    simp only [Event.occurrence?]
    cases Code.occurrence? (tag, children) <;> rfl

variable {rootLine : Nat}

theorem Whole.tail {m : Landmark} {landmarks : List Landmark} (h : Whole (m :: landmarks)) :
    Whole landmarks := fun fault hmem => h fault (List.mem_cons_of_mem m hmem)

theorem whole_flatMap {es : List Event} :
    Whole (es.flatMap (Event.landmarks rootLine)) ↔ ∀ e ∈ es, Whole (e.landmarks rootLine) := by
  simp only [Whole, List.mem_flatMap, not_exists, not_and]
  exact ⟨fun h e he fault => h fault e he, fun h fault e he => h e he fault⟩

theorem functionStart_of_whole {tag : Xml.Tag} {inside : Xml.Content}
    (h : Whole [functionStart rootLine tag inside]) :
    ∃ name line, functionName inside = .ok name ∧ elementLine rootLine tag = .ok line ∧
      functionStart rootLine tag inside = .functionStart name line := by
  unfold functionStart at h ⊢
  cases hname : functionName inside with
  | error fault => simp [hname, Whole] at h
  | ok name =>
    cases hline : elementLine rootLine tag with
    | error fault => simp [hname, hline, Whole] at h
    | ok line => exact ⟨name, line, rfl, rfl, rfl⟩

theorem Event.startsFunction_landmarks {e : Event} (h : Whole (e.landmarks rootLine)) :
    (e.landmarks rootLine).countP Landmark.startsFunction = if e.startsFunction then 1 else 0 := by
  cases e with
  | start tag inside =>
    obtain ⟨r, hrole⟩ : ∃ r, roleOf? tag = r := ⟨_, rfl⟩
    simp only [Event.landmarks, Event.startsFunction, hrole] at h ⊢
    match r with
    | none => simp [Whole] at h
    | some .function =>
      obtain ⟨name, line, -, -, hstart⟩ := functionStart_of_whole h
      rw [hstart]
      rfl
    | some (.directive d) => rfl
    | some .other => rfl
  | finish tag inside =>
    simp only [Event.landmarks, Event.startsFunction]
    split
    · rfl
    · unfold directiveMark
      split <;> rfl
    · rfl

theorem startsFunction_flatMap_landmarks {es : List Event}
    (h : Whole (es.flatMap (Event.landmarks rootLine))) :
    (es.flatMap (Event.landmarks rootLine)).countP Landmark.startsFunction =
      es.countP Event.startsFunction := by
  rw [whole_flatMap] at h
  induction es with
  | nil => rfl
  | cons e es ih =>
    obtain ⟨he, hes⟩ := List.forall_mem_cons.1 h
    rw [List.flatMap_cons, List.countP_append, Event.startsFunction_landmarks he, ih hes,
      List.countP_cons, Nat.add_comm]

variable [ParserStack]

theorem landmarks_eq_flatMap {c : Xml.Content}
    (h : Whole (Code.landmarks rootLine c)) :
    Code.landmarks rootLine c = (events c).flatMap (Event.landmarks rootLine) := by
  induction c with
  | nil => rfl
  | text _ _ ih => exact ih h
  | comment _ ih => exact ih h
  | instruction _ ih => exact ih h
  | unknown _ _ ih => exact ih h
  | element tag children next hc hn =>
    rw [landmarks_element] at h ⊢
    obtain ⟨haround, hnext⟩ := whole_append.1 h
    have hinside := hc (marks_landmarksAround haround).1
    rw [hn hnext, hinside, events, List.flatMap_cons, List.flatMap_append, List.flatMap_cons,
      landmarksAround, Event.landmarks, Event.landmarks]
    cases hrole : roleOf? tag with
    | none => simp [landmarksAround, hrole, Whole] at haround
    | some r => cases r <;> simp

theorem Event.marks_landmarks {e : Event} (h : Whole (e.landmarks rootLine)) :
    (e.landmarks rootLine).flatMap Landmark.marks = e.occurrence?.toList.map (·.mark rootLine) := by
  cases e with
  | start tag inside =>
    simp only [Event.landmarks, Event.occurrence?] at h ⊢
    cases hrole : roleOf? tag with
    | none => simp [hrole, Whole] at h
    | some r =>
      rw [hrole] at h
      cases r with
      | function => simp [marks_functionStart h]
      | _ => rfl
  | finish tag inside =>
    simp only [Event.landmarks, Event.occurrence?, Code.occurrence?] at h ⊢
    cases hrole : roleOf? tag with
    | none => rfl
    | some r =>
      rw [hrole] at h
      cases r with
      | directive d => simp [marks_directiveMark h]
      | function => simp
      | other => rfl

theorem marks_flatMap_landmarks {es : List Event}
    (h : Whole (es.flatMap (Event.landmarks rootLine))) :
    (es.flatMap (Event.landmarks rootLine)).flatMap Landmark.marks =
      (es.filterMap Event.occurrence?).map (·.mark rootLine) := by
  rw [whole_flatMap] at h
  induction es with
  | nil => rfl
  | cons e es ih =>
    obtain ⟨he, hes⟩ := List.forall_mem_cons.1 h
    rw [List.flatMap_cons, List.flatMap_append, Event.marks_landmarks he, ih hes, List.filterMap_cons]
    cases e.occurrence? <;> rfl

def marksOf (rootLine : Nat) (es : List Event) : List Mark :=
  (es.filterMap Event.occurrence?).filterMap fun o => (o.mark rootLine).toOption

theorem marksOf_append (rootLine : Nat) (es fs : List Event) :
    marksOf rootLine (es ++ fs) = marksOf rootLine es ++ marksOf rootLine fs := by
  simp [marksOf]

theorem marksOf_eq {rootLine : Nat} {es : List Event} {ms : List Mark}
    (h : (es.filterMap Event.occurrence?).map (·.mark rootLine) = ms.map .ok) :
    marksOf rootLine es = ms := by
  have htoOption := congrArg (List.filterMap Except.toOption) h
  rw [List.filterMap_map, List.filterMap_map] at htoOption
  refine Eq.trans htoOption ?_
  simp [Function.comp_def, Except.toOption]

theorem marksOf_of_marks {rootLine : Nat} {es : List Event} {ms : List Mark}
    (hwhole : Whole (es.flatMap (Event.landmarks rootLine)))
    (h : (es.flatMap (Event.landmarks rootLine)).flatMap Landmark.marks = ms.map .ok) :
    marksOf rootLine es = ms :=
  marksOf_eq ((marks_flatMap_landmarks hwhole).symm.trans h)

def directiveMarks (d : Xml.Document) : List Mark :=
  (directives d).filterMap fun o => (o.mark d.tag.line).toOption

def documentEvents (d : Xml.Document) : List Event := events (.element d.tag d.children .nil)

/-- A function element: the tags before its start tag, inside it and behind its end tag. -/
structure FunctionElement (d : Xml.Document) where
  before : List Event
  tag : Xml.Tag
  inside : Xml.Content
  behind : List Event
  isFunction : roleOf? tag = some .function
  split : documentEvents d =
    before ++ .start tag inside :: (events inside ++ .finish tag inside :: behind)

namespace FunctionElement

variable {d : Xml.Document} (e : FunctionElement d)

def index : Nat := e.before.countP Event.startsFunction

def Plain : Prop := ∀ k ∈ events e.inside, k.startsFunction = false

instance : Decidable e.Plain :=
  inferInstanceAs (Decidable (∀ k ∈ events e.inside, k.startsFunction = false))

def marksBefore : List Mark := marksOf d.tag.line e.before

def marksInside : List Mark := marksOf d.tag.line (events e.inside)

def marksBehind : List Mark := marksOf d.tag.line e.behind

theorem directiveMarks_eq :
    directiveMarks d = e.marksBefore ++ (e.marksInside ++ e.marksBehind) := by
  have hstart : marksOf d.tag.line [.start e.tag e.inside] = [] := rfl
  have hfinish : marksOf d.tag.line [.finish e.tag e.inside] = [] := by
    simp [marksOf, Event.occurrence?, Code.occurrence?, e.isFunction]
  have hdocument : directiveMarks d = marksOf d.tag.line (documentEvents d) := by
    rw [directiveMarks, directives, ← filterMap_occurrence_events]
    rfl
  rw [hdocument, e.split, ← List.singleton_append,
    ← List.singleton_append (x := Event.finish e.tag e.inside), marksOf_append, marksOf_append,
    marksOf_append, marksOf_append, hstart, hfinish]
  rfl

end FunctionElement
end Variability.Code
