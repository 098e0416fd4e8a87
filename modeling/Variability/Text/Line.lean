set_option autoImplicit false

namespace Variability.Text

/-- The characters that end a line in the Unicode sense, and three information separators. -/
def isLineEnd (c : Char) : Bool :=
  let n := c.toNat
  (10 ≤ n && n ≤ 13) || (28 ≤ n && n ≤ 30) || n == 0x85 || n == 0x2028 || n == 0x2029

/-- The lines of a text whose first line begins with `current`, latest character first. A carriage
return and a line feed end one line. -/
def splitLinesFrom : List Char → List Char → List (List Char)
  | current, [] => if current = [] then [] else [current.reverse]
  | current, '\r' :: '\n' :: cs => current.reverse :: splitLinesFrom [] cs
  | current, c :: cs =>
    if isLineEnd c then current.reverse :: splitLinesFrom [] cs
    else splitLinesFrom (c :: current) cs

/-- The lines of a text without their ends. What follows the last line end is a line only if it is
not empty. -/
def splitLines (cs : List Char) : List (List Char) := splitLinesFrom [] cs

theorem splitLinesFrom_append {line : List Char} (h : ∀ c ∈ line, isLineEnd c = false)
    (current rest : List Char) :
    splitLinesFrom current (line ++ '\n' :: rest) = (current.reverse ++ line) :: splitLines rest := by
  induction line generalizing current with
  | nil => simp [splitLinesFrom, splitLines, isLineEnd]
  | cons c cs ih =>
    have hc : isLineEnd c = false := h c (by simp)
    have hr : c ≠ '\r' := by rintro rfl; simp [isLineEnd] at hc
    have := ih (fun d hd => h d (by simp [hd])) (c :: current)
    rw [List.cons_append, splitLinesFrom]
    · simp [hc, this]
    · intro cs' hcs' _; exact hr hcs'

theorem splitLines_flatMap {lines : List (List Char)}
    (h : ∀ line ∈ lines, ∀ c ∈ line, isLineEnd c = false) :
    splitLines (lines.flatMap (· ++ ['\n'])) = lines := by
  induction lines with
  | nil => rfl
  | cons line lines ih =>
    have hl := splitLinesFrom_append (h line (by simp)) [] (lines.flatMap (· ++ ['\n']))
    have := ih fun l hl => h l (by simp [hl])
    simp only [List.flatMap_cons, List.append_assoc, List.singleton_append]
    rw [splitLines, hl, this]
    simp

def linesWithEndsFrom : List Char → List Char → List (List Char)
  | current, [] => if current = [] then [] else [current.reverse]
  | current, '\r' :: '\n' :: cs => (current.reverse ++ ['\r', '\n']) :: linesWithEndsFrom [] cs
  | current, c :: cs =>
    if c = '\n' ∨ c = '\r' then (current.reverse ++ [c]) :: linesWithEndsFrom [] cs
    else linesWithEndsFrom (c :: current) cs

def linesWithEnds (cs : List Char) : List (List Char) := linesWithEndsFrom [] cs

def unifyLineEnds : List Char → List Char
  | [] => []
  | '\r' :: '\n' :: cs => '\n' :: unifyLineEnds cs
  | c :: cs => (if c = '\r' then '\n' else c) :: unifyLineEnds cs

end Variability.Text
