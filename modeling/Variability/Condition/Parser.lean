import Variability.Condition.Expression

/-!
Reading conditions. The binding order, tightest first: `defined`, `!`, arithmetic, comparisons,
`&&`, `||`. Readers take the longest condition at the front; an operator without an operand after it
is left over. Every operand takes a token, so nesting is bounded by the number of tokens.
-/

set_option autoImplicit false

namespace Variability.Condition

abbrev Reader (α : Type) := List Token → Option (α × List Token)

def isSuffixLetter (c : Char) : Bool := c = 'u' ∨ c = 'U' ∨ c = 'l' ∨ c = 'L'

def isIdentifier : List Char → Bool
  | [] => false
  | c :: cs => (c.isAlpha || c = '_') && cs.all isWordChar && c :: cs ≠ "defined".toList

def valueIn (base : Nat) (digits : List Char) : Nat :=
  digits.foldl (fun n c => n * base + digitValue c) 0

/-- A number at the front of a word, with the letters after it. A hexadecimal number needs a digit
after its mark, otherwise the zero is decimal. -/
def splitNumber : List Char → Option (Expression × List Char)
  | [] => none
  | c :: cs =>
    let hex := (cs.drop 1).takeWhile isHexDigit
    if c = '0' ∧ (cs.head? = some 'x' ∨ cs.head? = some 'X') ∧ hex ≠ [] then
      some (.number (String.ofList (c :: cs.take 1 ++ hex)) (valueIn 16 hex),
        (cs.drop 1).dropWhile isHexDigit)
    else if c.isDigit then
      let digits := (c :: cs).takeWhile Char.isDigit
      some (.number (String.ofList digits) (valueIn 10 digits), (c :: cs).dropWhile Char.isDigit)
    else none

/-- A number may have a suffix, in the same word or as the next one. Other letters are left over. -/
def number (word : List Char) : Reader Expression := fun ts =>
  match splitNumber word with
  | none => none
  | some (e, []) =>
    match ts with
    | .word w :: rest => if w.all isSuffixLetter then some (e, rest) else some (e, ts)
    | _ => some (e, ts)
  | some (e, suffix) => some (e, if suffix.all isSuffixLetter then ts else .word suffix :: ts)

def moreArguments : Reader (List String)
  | .rparen :: ts => some ([], ts)
  | .comma :: .word w :: ts =>
    (moreArguments ts).map fun (ws, rest) => (String.ofList w :: ws, rest)
  | _ => none

def arguments : Reader (List String)
  | .rparen :: ts => some ([], ts)
  | .word w :: ts => (moreArguments ts).map fun (ws, rest) => (String.ofList w :: ws, rest)
  | _ => none

def identifier (word : List Char) : Reader Expression := fun ts =>
  if isIdentifier word then
    match ts with
    | .lparen :: inner =>
      match arguments inner with
      | some (args, rest) => some (.call (String.ofList word) args, rest)
      | none => some (.name (String.ofList word), ts)
    | _ => some (.name (String.ofList word), ts)
  else none

def operand (inner : Reader Expression) : Reader Expression
  | .lparen :: ts =>
    match inner ts with
    | some (e, .rparen :: rest) => some (e, rest)
    | _ => none
  | .quoted text :: ts => some (.quoted (String.ofList text), ts)
  | .word w :: ts => (number w ts).or (identifier w ts)
  | _ => none

def definedOperand (inner : Reader Expression) : Reader Expression
  | [] => none
  | t :: ts =>
    if t = .word "defined".toList then
      (definedOperand inner ts).map fun (e, rest) => (.defined e, rest)
    else operand inner (t :: ts)

def unary (inner : Reader Expression) : Reader Expression
  | [] => none
  | t :: ts =>
    if t = .not then (unary inner ts).map fun (e, rest) => (.not e, rest)
    else definedOperand inner (t :: ts)

def links (level : Operator → Bool) (sub : Reader Expression) :
    Nat → Reader (List (Operator × Expression))
  | fuel + 1, .op o :: ts =>
    match if level o then sub ts else none with
    | some (e, rest) => (links level sub fuel rest).map fun (more, rest) => ((o, e) :: more, rest)
    | none => some ([], .op o :: ts)
  | _, ts => some ([], ts)

def chain (level : Operator → Bool) (sub : Reader Expression) : Reader Expression := fun ts => do
  let (first, ts) ← sub ts
  let (more, ts) ← links level sub ts.length ts
  some (.ofChain first more, ts)

def operandsAfter (connective : Token) (sub : Reader Expression) : Nat → Reader (List Expression)
  | fuel + 1, t :: ts =>
    match if t = connective then sub ts else none with
    | some (e, rest) =>
      (operandsAfter connective sub fuel rest).map fun (more, rest) => (e :: more, rest)
    | none => some ([], t :: ts)
  | _, ts => some ([], ts)

def joined (connective : Token) (join : Expression → Expression → Expression)
    (sub : Reader Expression) : Reader Expression := fun ts => do
  let (first, ts) ← sub ts
  let (more, ts) ← operandsAfter connective sub ts.length ts
  some (more.foldl join first, ts)

def expression : Nat → Reader Expression
  | 0 => fun _ => none
  | depth + 1 =>
    joined .or .or <| joined .and .and <| chain Operator.isComparison <|
      chain (fun o => !o.isComparison) <| unary (expression depth)

/-- The condition that a whole text spells. Each parenthesis is a token, so their number bounds the
depth. -/
def parse (text : List Char) : Option Expression :=
  match Token.scan text with
  | (ts, []) =>
    match expression (ts.length + 1) ts with
    | some (e, []) => some e
    | _ => none
  | _ => none

end Variability.Condition
