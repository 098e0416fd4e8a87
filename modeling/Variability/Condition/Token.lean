set_option autoImplicit false

namespace Variability.Condition

inductive Operator where
  | less | greater | atMost | atLeast | equal | unequal
  | times | over | modulo | plus | minus | bitAnd | bitOr | shiftRight | shiftLeft
  deriving DecidableEq, Repr

namespace Operator

/-- Comparisons bind weaker than all others, which share one level. -/
def isComparison : Operator → Bool
  | .less | .greater | .atMost | .atLeast | .equal | .unequal => true
  | _ => false

def code : Operator → String
  | .less => "_lt_"
  | .greater => "_gt_"
  | .atMost => "_le_"
  | .atLeast => "_ge_"
  | .equal => "_eq_"
  | .unequal => "_ne_"
  | .times => "_mu_"
  | .over => "_di_"
  | .modulo => "_mo_"
  | .plus => "_pl_"
  | .minus => "_mi_"
  | .bitAnd => "_ba_"
  | .bitOr => "_bo_"
  | .shiftRight => "_sr_"
  | .shiftLeft => "_sl_"

theorem code_injective {a b : Operator} (h : a.code = b.code) : a = b := by
  revert h; cases a <;> cases b <;> decide

end Operator

/-- A word is a longest run of letters, digits and underscores; a quoted text is held without its
quotes and escapes. -/
inductive Token where
  | word (letters : List Char)
  | quoted (text : List Char)
  | op (o : Operator)
  | not
  | and
  | or
  | lparen
  | rparen
  | comma
  deriving DecidableEq, Repr

def isGap (c : Char) : Bool := c = ' ' ∨ c = '\t' ∨ c = '\n' ∨ c = '\r'

def isWordChar (c : Char) : Bool := c.isAlphanum || c = '_'

def unescape : Char → Char
  | 'n' => '\n'
  | 't' => '\t'
  | 'f' => '\x0c'
  | 'r' => '\r'
  | c => c

def isHexDigit (c : Char) : Bool :=
  c.isDigit || ('a' ≤ c && c ≤ 'f') || ('A' ≤ c && c ≤ 'F')

def digitValue (c : Char) : Nat :=
  if c.isDigit then c.toNat - '0'.toNat
  else if c.isLower then c.toNat - 'a'.toNat + 10
  else c.toNat - 'A'.toNat + 10

/-- The character that an escape stands for, and what follows. After the backslash `0` gives the
character zero, unless a three follows; two hexadecimal digits give the character with that number
if the second is a two after `x` or a four after `u`. A line feed cannot be escaped. -/
def readEscape : List Char → Option (Char × List Char)
  | [] => none
  | '0' :: cs => some (if cs.head? = some '3' then '0' else '\x00', cs)
  | 'x' :: d :: '2' :: cs =>
    some (if isHexDigit d then (Char.ofNat (digitValue d * 16 + 2), cs) else ('x', d :: '2' :: cs))
  | 'u' :: d :: '4' :: cs =>
    some (if isHexDigit d then (Char.ofNat (digitValue d * 16 + 4), cs) else ('u', d :: '4' :: cs))
  | c :: cs => if c = '\n' then none else some (unescape c, cs)

theorem readEscape_length {cs rest : List Char} {c : Char} (h : readEscape cs = some (c, rest)) :
    rest.length < cs.length := by
  unfold readEscape at h
  split at h
  · simp at h
  · obtain ⟨_, rfl⟩ := Prod.mk.inj (Option.some.inj h)
    simp only [List.length_cons]; omega
  · split at h <;> obtain ⟨_, rfl⟩ := Prod.mk.inj (Option.some.inj h) <;>
      simp only [List.length_cons] <;> omega
  · split at h <;> obtain ⟨_, rfl⟩ := Prod.mk.inj (Option.some.inj h) <;>
      simp only [List.length_cons] <;> omega
  · split at h
    · simp at h
    · obtain ⟨_, rfl⟩ := Prod.mk.inj (Option.some.inj h)
      simp only [List.length_cons]; omega

/-- The text up to the closing quote. It may not hold a line end unless that is a carriage return
behind a backslash. -/
def readQuoted : List Char → Option (List Char × List Char)
  | [] => none
  | '\'' :: cs => some ([], cs)
  | '\\' :: cs =>
    match _h : readEscape cs with
    | none => none
    | some (c, cs) => (readQuoted cs).map fun (text, rest) => (c :: text, rest)
  | c :: cs =>
    if c = '\n' ∨ c = '\r' then none
    else (readQuoted cs).map fun (text, rest) => (c :: text, rest)
termination_by cs => cs.length
decreasing_by
  · have := readEscape_length _h
    simp only [List.length_cons]
    omega
  · simp only [List.length_cons]; omega

theorem readQuoted_length {cs text rest : List Char} (h : readQuoted cs = some (text, rest)) :
    rest.length < cs.length := by
  fun_induction readQuoted cs generalizing text with
  | case1 => simp at h
  | case2 cs => simp_all
  | case3 => simp at h
  | case4 cs c inner hc ih =>
    simp only [Option.map_eq_some_iff, Prod.mk.injEq, Prod.exists] at h
    obtain ⟨a, b, hb, _, rfl⟩ := h
    have := ih hb
    have := readEscape_length hc
    simp only [List.length_cons]; omega
  | case5 => simp at h
  | case6 c cs _ _ hc ih =>
    simp only [Option.map_eq_some_iff, Prod.mk.injEq, Prod.exists] at h
    obtain ⟨a, b, hb, _, rfl⟩ := h
    have := ih hb
    simp only [List.length_cons]; omega

/-- The tokens with a fixed spelling; a longer spelling stands before its beginnings. -/
def symbols : List (List Char × Token) := [
  (['&', '&'], .and), (['|', '|'], .or),
  (['<', '<'], .op .shiftLeft), (['>', '>'], .op .shiftRight),
  (['<', '='], .op .atMost), (['>', '='], .op .atLeast),
  (['=', '='], .op .equal), (['!', '='], .op .unequal),
  (['<'], .op .less), (['>'], .op .greater), (['!'], .not),
  (['&'], .op .bitAnd), (['|'], .op .bitOr),
  (['*'], .op .times), (['/'], .op .over), (['%'], .op .modulo),
  (['+'], .op .plus), (['-'], .op .minus),
  (['('], .lparen), ([')'], .rparen), ([','], .comma)]

theorem symbols_ne_nil : ∀ s ∈ symbols, s.1 ≠ [] := by decide

def readSymbol (cs : List Char) : Option (Token × List Char) :=
  symbols.findSome? fun (spelling, t) =>
    if spelling.isPrefixOf cs then some (t, cs.drop spelling.length) else none

theorem readSymbol_length {cs rest : List Char} {t : Token} (h : readSymbol cs = some (t, rest)) :
    rest.length < cs.length := by
  obtain ⟨⟨spelling, u⟩, hmem, hs⟩ := List.exists_of_findSome?_eq_some h
  have hne := symbols_ne_nil _ hmem
  dsimp only at hs
  split at hs
  · next hp =>
    simp only [Option.some.injEq, Prod.mk.injEq] at hs
    obtain ⟨_, rfl⟩ := hs
    have hle := (List.isPrefixOf_iff_prefix.1 hp).length_le
    have : 0 < spelling.length := List.length_pos_iff.2 hne
    rw [List.length_drop]
    omega
  · simp at hs

def Token.read (cs : List Char) : Option (Token × List Char) :=
  match readSymbol cs with
  | some r => some r
  | none =>
    match cs with
    | [] => none
    | c :: cs =>
      if c = '\'' then (readQuoted cs).map fun (text, rest) => (.quoted text, rest)
      else if isWordChar c then
        some (.word (c :: cs.takeWhile isWordChar), cs.dropWhile isWordChar)
      else none

theorem Token.read_length {cs rest : List Char} {t : Token} (h : Token.read cs = some (t, rest)) :
    rest.length < cs.length := by
  unfold Token.read at h
  split at h
  · next r hr => exact readSymbol_length (hr.trans h)
  · split at h
    · simp at h
    · next c cs _ =>
      have := (List.dropWhile_sublist (l := cs) isWordChar).length_le
      split at h
      · simp only [Option.map_eq_some_iff, Prod.mk.injEq, Prod.exists] at h
        obtain ⟨a, b, hb, _, rfl⟩ := h
        have := readQuoted_length hb
        simp only [List.length_cons]; omega
      · split at h
        · simp only [Option.some.injEq, Prod.mk.injEq] at h
          obtain ⟨_, rfl⟩ := h
          simp only [List.length_cons]; omega
        · simp at h

def Token.scan (cs : List Char) : List Token × List Char :=
  match _h : Token.read (cs.dropWhile isGap) with
  | none => ([], cs.dropWhile isGap)
  | some (t, rest) => ((Token.scan rest).map (t :: ·) id)
termination_by cs.length
decreasing_by
  have := Token.read_length _h
  have := (List.dropWhile_sublist (l := cs) isGap).length_le
  omega

example : Token.scan "!A&&B<=0x1u ".toList =
    ([.not, .word ['A'], .and, .word ['B'], .op .atMost, .word ['0', 'x', '1', 'u']], []) := by
  decide +kernel

end Variability.Condition
