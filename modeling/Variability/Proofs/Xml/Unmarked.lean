import Variability.Code.Document

set_option autoImplicit false

namespace Variability

namespace Xml

def IsPlain (c : Char) : Prop := isSpace c = false ∧ c ≠ '<' ∧ c ≠ '&' ∧ c ≠ '\ufeff'

instance (c : Char) : Decidable (IsPlain c) := inferInstanceAs (Decidable (_ ∧ _))

variable {x : Char} {cs : List Char}

theorem Cursor.skipSpaces_plain (h : IsPlain x) (line : Nat) :
    (⟨line, x :: cs⟩ : Cursor).skipSpaces = ⟨line, x :: cs⟩ := by
  simp [Cursor.skipSpaces, Cursor.spanWhile, Cursor.lineFeeds, h.1]

theorem Cursor.pieces_plain (h : IsPlain x) {line : Nat} {ps : List Piece}
    (hpieces : (⟨line, x :: cs⟩ : Cursor).pieces = some ps) :
    ∃ text rest, ps = .text text :: rest := by
  have hpiece : ∀ fuel, piece fuel ⟨line, x :: cs⟩ = plainText ⟨line, x :: cs⟩ := by
    intro fuel
    unfold piece
    split <;> simp_all [IsPlain]
  rw [pieces, List.length_cons, piecesWithin, if_neg (by simp), hpiece] at hpieces
  simp only [Option.bind_eq_bind, Option.bind_eq_some_iff] at hpieces
  obtain ⟨⟨p, d⟩, hplain, rest, -, hps⟩ := hpieces
  simp only [plainText] at hplain
  split at hplain
  · obtain ⟨rfl, -⟩ := Prod.mk.inj (Option.some.inj hplain)
    exact ⟨_, rest, (Option.some.inj hps).symm⟩
  · cases hplain

namespace Document

theorem prolog_plain (h : IsPlain x) (blank : Doctype) (fuel line : Nat) :
    prolog blank (fuel + 1) none ⟨line, x :: cs⟩ = pure (blank, ⟨line, x :: cs⟩) := by
  have hx : x ≠ '<' := h.2.1
  rw [prolog, Cursor.skipSpaces_plain h]
  split <;> simp_all

theorem readFrom_plain (h : IsPlain x) (alone : Bool) (line : Nat) (p : Progress) :
    (readFrom alone ⟨line, x :: cs⟩).run p = none := by
  unfold readFrom
  rw [prolog_plain h]
  cases hpieces : (⟨line, x :: cs⟩ : Cursor).pieces with
  | none => simp [hpieces]
  | some ps =>
    obtain ⟨text, rest, rfl⟩ := Cursor.pieces_plain h hpieces
    simp only [pure_bind, hpieces, StateT.run_bind, StateT.run_monadLift, monadLift_self,
      Option.pure_def, Option.bind_eq_bind, Option.bind_some]
    rfl

theorem read_plain (h : IsPlain x) {text : String} (htext : text.toList = x :: cs) :
    read text = .error .illFormed := by
  have hmarked : x ≠ '\ufeff' := h.2.2.2
  have hx : x ≠ '<' := h.2.1
  have hnot : "<?xml".toList.isPrefixOf (x :: cs) = false := by
    simp [List.isPrefixOf, Ne.symm hx]
  have hdeclaration : Declaration.read false ⟨1, x :: cs⟩ = .ok (false, ⟨1, x :: cs⟩) := by
    simp only [Declaration.read, Cursor.expect, hnot]
    rfl
  simp only [read, htext, List.head?_cons, Option.some.injEq, hmarked, decide_false,
    if_false, hdeclaration, bind, Except.bind, readFrom_plain h]
  rfl

end Document
end Xml

variable [ParserStack]

theorem Code.readSourceFile_plain {x : Char} {cs : List Char} (h : Xml.IsPlain x) {text : String}
    (htext : text.toList = x :: cs) (path : String) :
    (readSourceFile path text).result = .error .illFormed := by
  rw [readSourceFile, Xml.Document.read_plain h htext]

end Variability
