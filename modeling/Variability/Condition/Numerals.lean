import Variability.Condition.Parser
import Variability.Number.Integer

/-!
The numbers that are evaluated while a condition is read, also if the text is refused in the end. An
operator and its first two operands are looked up before anything is evaluated; the operands of
further operators of the same chain are evaluated at once.
-/

set_option autoImplicit false

namespace Variability.Condition

abbrev Numerals := List Token → List String

def wordNumeral (word : List Char) : List String :=
  match splitNumber word with
  | some (.number spelling _, _) => [spelling]
  | _ => []

def operandNumerals (inner : Numerals) : Numerals
  | .lparen :: ts => inner ts
  | .word w :: _ => wordNumeral w
  | _ => []

def definedNumerals (read : Reader Expression) (inner : Numerals) : Numerals
  | [] => []
  | t :: ts =>
    if t = .word "defined".toList ∧ (definedOperand read ts).isSome then
      definedNumerals read inner ts
    else operandNumerals inner (t :: ts)

def unaryNumerals (read : Reader Expression) (inner : Numerals) : Numerals
  | [] => []
  | t :: ts =>
    if t = .not ∧ (unary read ts).isSome then unaryNumerals read inner ts
    else definedNumerals read inner (t :: ts)

def laterNumerals (joins : Token → Bool) (read : Reader Expression) (inner : Numerals) :
    Nat → Numerals
  | fuel + 1, t :: ts =>
    if joins t then
      inner ts ++
        match read ts with
        | some (_, rest) => laterNumerals joins read inner fuel rest
        | none => []
    else []
  | _, _ => []

def chainNumerals (joins : Token → Bool) (read : Reader Expression) (inner : Numerals) :
    Numerals := fun ts =>
  match read ts with
  | some (_, t :: rest) =>
    if joins t ∧ (read rest).isSome then
      inner ts ++ laterNumerals joins read inner (rest.length + 1) (t :: rest)
    else inner ts
  | _ => inner ts

def isArithmetic : Token → Bool
  | .op o => !o.isComparison
  | _ => false

def isComparison : Token → Bool
  | .op o => o.isComparison
  | _ => false

def numerals : Nat → Numerals
  | 0 => fun _ => []
  | depth + 1 =>
    let operands := unary (expression depth)
    let sums := chain (fun o => !o.isComparison) operands
    let comparisons := chain Operator.isComparison sums
    let conjunctions := joined .and .and comparisons
    chainNumerals (· = .or) conjunctions <| chainNumerals (· = .and) comparisons <|
      chainNumerals isComparison sums <| chainNumerals isArithmetic operands <|
        unaryNumerals (expression depth) (numerals depth)

/-- Decimal numbers have a greatest length, hexadecimal ones have none. -/
def isOverlong (numeral : String) : Bool :=
  numeral.toList.all Char.isDigit && Number.digitLimit < numeral.length

def hasOverlong (ts : List Token) : Bool := (numerals (ts.length + 1) ts).any isOverlong

end Variability.Condition
