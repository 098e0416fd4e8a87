import Variability.Code.Builder

/-!
Why a run stops. The wording of every reason is here.
-/

set_option autoImplicit false

namespace Variability

inductive SetUp where
  | noCache
  /-- a value that is none of the choices, which are listed if there are any -/
  | unsupported (thing value : String) (choices : List String)
  | other (reason : String)
  deriving DecidableEq, Repr

def SetUp.message : SetUp → String
  | .noCache => "No scattering degree cache file given!"
  | .unsupported thing value choices =>
    "Unsupported " ++ thing ++ " '" ++ value ++ "'" ++
      (if choices = [] then "" else ", use one of: " ++ ", ".intercalate choices)
  | .other reason => reason

inductive FileError where
  | missing
  | isFolder
  | notFolder
  | notPath
  | tooLong
  deriving DecidableEq, Repr

inductive Failure where
  | setUp (cause : SetUp)
  | unreadable (fault : Code.Fault)
  | outOfRange
  | unwritable
  | weightless (name : String)
  | wideCell
  /-- a text and a number at the same place of two locations -/
  | incomparable
  | modelless
  | separatorless
  /-- the relative form of an empty path is asked for -/
  | pathless
  /-- an option without a value is used -/
  | valueless
  | file (error : FileError)
  deriving DecidableEq, Repr

def FileError.describe : FileError → String
  | .missing => "there is no such file"
  | .isFolder => "a folder cannot be read or written as a file"
  | .notFolder => "a file is no folder"
  | .notPath => "a path cannot hold the character zero"
  | .tooLong => "a path or a name in it is too long"

def Failure.describe : Failure → String
  | .setUp cause => cause.message
  | .unreadable (.unbalanced line) => Code.unbalancedText line
  | .unreadable _ => "a source file cannot be read"
  | .outOfRange => "an integer is too large"
  | .unwritable => "an integer has too many digits"
  | .wideCell => "a cell is too long"
  | .weightless name => "the variable " ++ name ++ " has no weight"
  | .incomparable => "a text and a number cannot be ordered"
  | .modelless => "there is no variability model"
  | .separatorless => "the separator is missing"
  | .pathless => "the path is empty"
  | .valueless => "an option has no value"
  | .file error => error.describe

/-- What a computation tells on the way and how it ends. -/
structure Outcome (α : Type) where
  messages : List Message
  result : Except Failure α

def untilFailure {α : Type} : List (Except Failure α) → List α × Option Failure
  | [] => ([], none)
  | .error e :: _ => ([], some e)
  | .ok a :: rest =>
    let (as, failure) := untilFailure rest
    (a :: as, failure)

theorem untilFailure_ok {α : Type} (as : List α) :
    untilFailure (as.map Except.ok) = (as, none) := by
  induction as with
  | nil => rfl
  | cons a as ih => simp [untilFailure, ih]

theorem untilFailure_map_ite {α β : Type} (p : α → Bool) (f : α → β) (e : Failure) (as : List α) :
    untilFailure (as.map fun a => if p a then .ok (f a) else .error e) =
      ((as.takeWhile p).map f, if as.all p then none else some e) := by
  induction as with
  | nil => rfl
  | cons a as ih =>
    by_cases h : p a <;> simp [h, untilFailure, ih]

theorem mem_of_mem_untilFailure {α : Type} {rs : List (Except Failure α)} {a : α}
    (h : a ∈ (untilFailure rs).1) : .ok a ∈ rs := by
  induction rs with
  | nil => cases h
  | cons r rs ih =>
    cases r with
    | error e => cases h
    | ok b =>
      rcases List.mem_cons.1 h with rfl | h
      · exact List.mem_cons_self
      · exact List.mem_cons_of_mem _ (ih h)

theorem untilFailure_eq_none_iff {α : Type} {rs : List (Except Failure α)} :
    (untilFailure rs).2 = none ↔ ∃ as : List α, rs = as.map Except.ok := by
  constructor
  · intro h
    induction rs with
    | nil => exact ⟨[], rfl⟩
    | cons r rs ih =>
      cases r with
      | error e => simp [untilFailure] at h
      | ok a =>
        obtain ⟨as, rfl⟩ := ih h
        exact ⟨a :: as, rfl⟩
  · rintro ⟨as, rfl⟩
    rw [untilFailure_ok]

end Variability
