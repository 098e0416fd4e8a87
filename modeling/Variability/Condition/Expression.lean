import Variability.Formula
import Variability.Condition.Token

/-!
Conditions as syntax trees and the formulas they stand for. A chain of operators of one level is one
node; parentheses leave no trace. The operators of a chain and its operands determine its name.
-/

set_option autoImplicit false

namespace Variability.Condition

mutual

/-- The syntax tree of a condition. A chain holds operators of one level only, at least one. -/
inductive Expression where
  | number (spelling : String) (value : Nat)
  | quoted (text : String)
  | name (text : String)
  | call (function : String) (arguments : List String)
  | defined (operand : Expression)
  | not (operand : Expression)
  | chain (first : Expression) (rest : Links)
  | and (left right : Expression)
  | or (left right : Expression)

inductive Links where
  | last (op : Operator) (operand : Expression)
  | link (op : Operator) (operand : Expression) (rest : Links)

end

/-- What a condition stands for, as an operand of the next operator around it. -/
inductive Meaning where
  | number (spelling : String) (value : Nat)
  | name (text : String)
  | compound (inner : String)
  | formula (f : Formula)
  deriving DecidableEq, Repr

namespace Meaning

def text : Meaning → String
  | .number spelling _ => spelling
  | .name text => text
  | .compound inner => "(" ++ inner ++ ")"
  | .formula f => f.render

/-- A number stands for its truth value, a chain for the variable named by its text. -/
def toFormula : Meaning → Formula
  | .number _ value => if value = 0 then .fls else .tru
  | .name text => .var text
  | .compound inner => .var inner
  | .formula f => f

end Meaning

mutual

def Expression.meaning : Expression → Meaning
  | .number spelling value => .number spelling value
  | .quoted text => .name text
  | .name text => .name text
  | .call function arguments => .name (function ++ "(" ++ ",".intercalate arguments ++ ")")
  | .defined e => .formula (.var e.meaning.text)
  | .not e => .formula e.meaning.toFormula.negate
  | .chain first rest => .compound (first.meaning.text ++ rest.text)
  | .and l r => .formula (.conj l.meaning.toFormula r.meaning.toFormula)
  | .or l r => .formula (.disj l.meaning.toFormula r.meaning.toFormula)

def Links.text : Links → String
  | .last op e => op.code ++ e.meaning.text
  | .link op e rest => op.code ++ e.meaning.text ++ rest.text

end

def Expression.toFormula (e : Expression) : Formula := e.meaning.toFormula

def Links.ofList (op : Operator) (e : Expression) : List (Operator × Expression) → Links
  | [] => .last op e
  | (op', e') :: more => .link op e (ofList op' e' more)

def Expression.ofChain (first : Expression) : List (Operator × Expression) → Expression
  | [] => first
  | (op, e) :: more => .chain first (.ofList op e more)

end Variability.Condition
