import Variability.Text.Blank

/-!
The text of a condition before it is split into tokens: comments and continued lines become blanks,
the ends are stripped and tabs are expanded.
-/

set_option autoImplicit false

namespace Variability.Condition

def blockCommentEnd : List Char → Option Nat
  | [] => none
  | '*' :: '/' :: _ => some 2
  | _ :: cs => (blockCommentEnd cs).map (· + 1)

/-- The number of characters that a comment at the front of a text takes. A block comment needs
its end, a line comment goes to the end of the line. -/
def commentLength : List Char → Option Nat
  | '/' :: '*' :: cs => (blockCommentEnd cs).map (· + 2)
  | '/' :: '/' :: cs => some ((cs.takeWhile (· ≠ '\n')).length + 2)
  | _ => none

def uncommentAfter : Nat → List Char → List Char
  | _, [] => []
  | skip + 1, _ :: cs => uncommentAfter skip cs
  | 0, c :: cs =>
    match commentLength (c :: cs) with
    | some n => ' ' :: uncommentAfter (n - 1) cs
    | none => c :: uncommentAfter 0 cs

def uncomment (cs : List Char) : List Char := uncommentAfter 0 cs

theorem uncommentAfter_append (before rest : List Char) :
    uncommentAfter before.length (before ++ rest) = uncommentAfter 0 rest := by
  induction before with
  | nil => rfl
  | cons c cs ih => exact ih

theorem uncomment_comment {comment rest : List Char} (hne : comment ≠ [])
    (h : commentLength (comment ++ rest) = some comment.length) :
    uncomment (comment ++ rest) = ' ' :: uncomment rest := by
  cases comment with
  | nil => exact absurd rfl hne
  | cons c cs =>
    have := uncommentAfter_append cs rest
    simp only [List.cons_append, List.length_cons] at h
    simp [uncomment, uncommentAfter, h, this]

theorem commentLength_eq_none {c : Char} {cs : List Char} (h : c ≠ '/') :
    commentLength (c :: cs) = none := by
  unfold commentLength
  split <;> simp_all

theorem uncomment_append_plain {cs : List Char} (h : '/' ∉ cs) (rest : List Char) :
    uncomment (cs ++ rest) = cs ++ uncomment rest := by
  induction cs with
  | nil => rfl
  | cons c cs ih =>
    obtain ⟨hc, hcs⟩ := not_or.1 (mt List.mem_cons.2 h)
    have hrest := ih hcs
    simp only [uncomment] at hrest
    simp [uncomment, uncommentAfter, commentLength_eq_none (Ne.symm hc), hrest]

theorem uncomment_eq_self {cs : List Char} (h : '/' ∉ cs) : uncomment cs = cs := by
  simpa [uncomment, uncommentAfter] using uncomment_append_plain h []

/-- A backslash at the end of a line continues it: both become one blank. -/
def joinLines : List Char → List Char
  | [] => []
  | '\\' :: '\n' :: cs => ' ' :: joinLines cs
  | c :: cs => c :: joinLines cs

def signature (text : List Char) : List Char := Text.strip (joinLines (uncomment text))

/-- Each tab becomes at least one blank and ends on a column divisible by eight; a line end starts
the columns anew. -/
def expandTabsFrom : Nat → List Char → List Char
  | _, [] => []
  | column, '\t' :: cs =>
    List.replicate (8 - column % 8) ' ' ++ expandTabsFrom (column + (8 - column % 8)) cs
  | column, c :: cs =>
    c :: expandTabsFrom (if c = '\n' ∨ c = '\r' then 0 else column + 1) cs

def expandTabs (cs : List Char) : List Char := expandTabsFrom 0 cs

end Variability.Condition
