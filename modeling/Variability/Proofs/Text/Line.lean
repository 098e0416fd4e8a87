import Mathlib.Data.List.Forall2
import Variability.Delimited.Reader
import Variability.Text.Blank
import Variability.Text.Line

set_option autoImplicit false

namespace Variability.Text

open Delimited (Row.isBreak)

inductive LineEnd where
  | feed
  | carriage
  | both
  | missing
  deriving DecidableEq, Repr

def LineEnd.chars : LineEnd → List Char
  | .feed => ['\n']
  | .carriage => ['\r']
  | .both => ['\r', '\n']
  | .missing => []

structure Line where
  chars : List Char
  ending : LineEnd
  deriving DecidableEq, Repr

def Line.full (line : Line) : List Char := line.chars ++ line.ending.chars

def writeLines (lines : List Line) : List Char := lines.flatMap Line.full

def WithoutBreaks (cs : List Char) : Prop := ∀ c ∈ cs, Row.isBreak c = false

instance (cs : List Char) : Decidable (WithoutBreaks cs) := List.decidableBAll _ _

def Ended (cs line : List Char) : Prop :=
  ∃ breaks : List Char, (∀ c ∈ breaks, Row.isBreak c) ∧ line = cs ++ breaks

theorem LineEnd.ended (e : LineEnd) (cs : List Char) : Ended cs (cs ++ e.chars) := by
  refine ⟨e.chars, ?_, rfl⟩
  cases e <;> simp [LineEnd.chars, Row.isBreak]

variable {cs rest : List Char}

theorem linesWithEndsFrom_append (h : WithoutBreaks cs) (current rest : List Char) :
    linesWithEndsFrom current (cs ++ rest) = linesWithEndsFrom (cs.reverse ++ current) rest := by
  induction cs generalizing current with
  | nil => rfl
  | cons c cs ih =>
    obtain ⟨hc, hcs⟩ := List.forall_mem_cons.1 h
    have hbreak : ¬ (c = '\n' ∨ c = '\r') := of_decide_eq_false hc
    have hreturn : c ≠ '\r' := fun e => hbreak (.inr e)
    rw [List.cons_append, linesWithEndsFrom, if_neg hbreak, ih hcs, List.reverse_cons, List.append_assoc]
    · rfl
    · intro _ e _
      exact hreturn e

theorem linesWithEnds_feed (h : WithoutBreaks cs) (rest : List Char) :
    linesWithEnds (cs ++ '\n' :: rest) = (cs ++ ['\n']) :: linesWithEnds rest := by
  rw [linesWithEnds, linesWithEndsFrom_append h]
  simp [linesWithEndsFrom, linesWithEnds]

theorem linesWithEnds_both (h : WithoutBreaks cs) (rest : List Char) :
    linesWithEnds (cs ++ '\r' :: '\n' :: rest) = (cs ++ ['\r', '\n']) :: linesWithEnds rest := by
  rw [linesWithEnds, linesWithEndsFrom_append h]
  simp [linesWithEndsFrom, linesWithEnds]

theorem linesWithEnds_carriage (h : WithoutBreaks cs) (hrest : ∀ more, rest ≠ '\n' :: more) :
    linesWithEnds (cs ++ '\r' :: rest) = (cs ++ ['\r']) :: linesWithEnds rest := by
  rw [linesWithEnds, linesWithEndsFrom_append h, linesWithEndsFrom]
  · simp [linesWithEnds]
  · intro more _ e
    exact hrest more e

theorem linesWithEnds_withoutBreaks (h : WithoutBreaks cs) (hne : cs ≠ []) : linesWithEnds cs = [cs] := by
  have hread := linesWithEndsFrom_append h [] []
  rw [List.append_nil, List.append_nil] at hread
  rw [linesWithEnds, hread, linesWithEndsFrom, if_neg (by simpa using hne), List.reverse_reverse]

variable {keep : List Char → Bool}

/-- A choice of lines that does not look at their ends and leaves out empty ones. -/
structure IgnoresEnds (keep : List Char → Bool) : Prop where
  ended : ∀ {cs line}, Ended cs line → keep line = keep cs
  empty : keep [] = false

theorem IgnoresEnds.filter_feed (h : IgnoresEnds keep) (rest : List Char) :
    (linesWithEnds ('\n' :: rest)).filter keep = (linesWithEnds rest).filter keep := by
  have hblank : Ended [] ['\n'] := LineEnd.feed.ended []
  have hline : linesWithEnds ('\n' :: rest) = ['\n'] :: linesWithEnds rest :=
    linesWithEnds_feed (show WithoutBreaks [] by decide) rest
  rw [hline, List.filter_cons_of_neg (by rw [h.ended hblank, h.empty]; decide)]

theorem IgnoresEnds.filter_first (h : IgnoresEnds keep) {cs full text more : List Char}
    {others : List (List Char)} (hfull : Ended cs full) (hlines : linesWithEnds text = full :: others)
    (hothers : others.filter keep = (linesWithEnds more).filter keep) :
    (linesWithEnds text).filter keep =
      (if keep cs then [full] else []) ++ (linesWithEnds more).filter keep := by
  rw [hlines, List.filter_cons, h.ended hfull, hothers]
  split <;> rfl

theorem IgnoresEnds.filter_line (h : IgnoresEnds keep) {line : Line} (hchars : WithoutBreaks line.chars)
    (hend : line.ending = .missing → rest = []) :
    ∃ full, Ended line.chars full ∧ (linesWithEnds (line.full ++ rest)).filter keep =
      (if keep line.chars then [full] else []) ++ (linesWithEnds rest).filter keep := by
  have hfull : line.full ++ rest = line.chars ++ (line.ending.chars ++ rest) := List.append_assoc _ _ _
  cases hkind : line.ending with
  | feed =>
    have hended : Ended line.chars (line.chars ++ ['\n']) := LineEnd.feed.ended _
    refine ⟨_, hended, h.filter_first hended ?_ rfl⟩
    rw [hfull, hkind]
    exact linesWithEnds_feed hchars rest
  | both =>
    have hended : Ended line.chars (line.chars ++ ['\r', '\n']) := LineEnd.both.ended _
    refine ⟨_, hended, h.filter_first hended ?_ rfl⟩
    rw [hfull, hkind]
    exact linesWithEnds_both hchars rest
  | carriage =>
    by_cases hfeed : ∃ more, rest = '\n' :: more
    · -- the line feed of an empty line is read as part of this end
      obtain ⟨more, rfl⟩ := hfeed
      have hended : Ended line.chars (line.chars ++ ['\r', '\n']) := LineEnd.both.ended _
      refine ⟨_, hended, h.filter_first hended ?_ (h.filter_feed more).symm⟩
      rw [hfull, hkind]
      exact linesWithEnds_both hchars more
    · have hended : Ended line.chars (line.chars ++ ['\r']) := LineEnd.carriage.ended _
      refine ⟨_, hended, h.filter_first hended ?_ rfl⟩
      rw [hfull, hkind]
      exact linesWithEnds_carriage hchars fun more e => hfeed ⟨more, e⟩
  | missing =>
    have hended : Ended line.chars line.chars := ⟨[], by simp, (List.append_nil _).symm⟩
    obtain rfl := hend hkind
    have hsame : line.full ++ [] = line.chars := by simp [Line.full, hkind, LineEnd.chars]
    by_cases hne : line.chars = []
    · refine ⟨_, hended, ?_⟩
      rw [hsame, hne, if_neg (by rw [h.empty]; decide)]
      rfl
    · refine ⟨_, hended, h.filter_first hended ?_ rfl⟩
      rw [hsame]
      exact linesWithEnds_withoutBreaks hchars hne

def EndedButLast (lines : List Line) : Prop := ∀ line ∈ lines.dropLast, line.ending ≠ .missing

instance (lines : List Line) : Decidable (EndedButLast lines) := List.decidableBAll _ _

theorem IgnoresEnds.filter_writeLines (h : IgnoresEnds keep) {lines : List Line}
    (hchars : ∀ line ∈ lines, WithoutBreaks line.chars) (hends : EndedButLast lines) :
    List.Forall₂ Ended ((lines.map (·.chars)).filter keep)
      ((linesWithEnds (writeLines lines)).filter keep) := by
  induction lines with
  | nil => exact .nil
  | cons line lines ih =>
    obtain ⟨hline, hlines⟩ := List.forall_mem_cons.1 hchars
    have hend : line.ending = .missing → writeLines lines = [] := by
      cases lines with
      | nil => exact fun _ => rfl
      | cons next lines => exact fun hmissing => absurd hmissing (hends line (by simp))
    have hrest : EndedButLast lines := by
      cases lines with
      | nil => exact fun _ hmem => nomatch hmem
      | cons next lines => exact fun l hl => hends l (by simp [hl])
    obtain ⟨full, hfull, hread⟩ := h.filter_line hline hend
    have hkept := ih hlines hrest
    rw [writeLines, List.flatMap_cons, ← writeLines, hread, List.map_cons, List.filter_cons]
    split
    · exact .cons hfull hkept
    · exact hkept

end Variability.Text
