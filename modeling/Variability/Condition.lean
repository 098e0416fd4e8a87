import Variability.Condition.Source
import Variability.Condition.Numerals
import Variability.Condition.Stack

/-!
The own conditions of directives. The two that test a single name are not read by the grammar.
-/

set_option autoImplicit false

namespace Variability

inductive Directive where
  | ifExpression | ifdef | ifndef | elif | otherwise | endif
  deriving DecidableEq, Repr

def Directive.keyword : Directive → String
  | .ifExpression => "if"
  | .ifdef => "ifdef"
  | .ifndef => "ifndef"
  | .elif => "elif"
  | .otherwise => "else"
  | .endif => "endif"

def Directive.all : List Directive := [.ifExpression, .ifdef, .ifndef, .elif, .otherwise, .endif]

def Directive.ofKeyword? (keyword : String) : Option Directive :=
  all.find? (·.keyword = keyword)

inductive Condition where
  | absent
  | parsed (f : Formula)
  /-- a text outside the grammar, with the column after its last token -/
  | unreadable (signature : String) (column : Nat)
  /-- a decimal number in the part that was read has too many digits -/
  | overlong
  /-- the parser ran out of its stack -/
  | exhausted (signature : String)
  deriving DecidableEq, Repr

namespace Condition

def formula? : Condition → Option Formula
  | .parsed f => some f
  | _ => none

variable [ParserStack]

def ofExpression (text : String) : Condition :=
  match signature text.toList with
  | [] => .absent
  | sig =>
    let (tokens, left) := Token.scan (expandTabs sig)
    if ParserStack.exhausts (expandTabs sig) then .exhausted (String.ofList sig)
    else if hasOverlong tokens then .overlong
    else
      match parse (expandTabs sig) with
      | some e => .parsed e.toFormula
      | none => .unreadable (String.ofList sig) ((expandTabs sig).length - left.length + 1)

/-- The name that an `#ifdef` or `#ifndef` tests: all its text but comments. -/
def ofName (text : String) (wrap : Formula → Formula) : Condition :=
  match Text.strip (uncomment text.toList) with
  | [] => .absent
  | name => .parsed (wrap (.var (String.ofList name)))

def ofDirective : Directive → String → Condition
  | .ifdef, text => ofName text id
  | .ifndef, text => ofName text Formula.negate
  | .ifExpression, text => ofExpression text
  | .elif, text => ofExpression text
  | .otherwise, _ => .absent
  | .endif, _ => .absent

end Condition
end Variability
