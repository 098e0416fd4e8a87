/-!
Presence conditions: propositional formulas over named variables, with the few operations that build
them.
-/

set_option autoImplicit false

namespace Variability

/-- A presence condition. Equality is structural: the same connective over the same operands in
the same order. -/
inductive Formula where
  | tru
  | fls
  | var (name : String)
  | neg (body : Formula)
  | conj (left right : Formula)
  | disj (left right : Formula)
  deriving DecidableEq, Repr, Inhabited

namespace Formula

inductive Shape where
  | tru | fls | var | neg | conj | disj
  deriving DecidableEq, Repr

def shape : Formula → Shape
  | .tru => .tru
  | .fls => .fls
  | .var _ => .var
  | .neg _ => .neg
  | .conj _ _ => .conj
  | .disj _ _ => .disj

/-- A negation is unwrapped; anything else is put under one. -/
def negate : Formula → Formula
  | .neg f => f
  | f => .neg f

@[simp] theorem negate_neg (f : Formula) : negate (.neg f) = f := rfl

theorem negate_eq_neg {f : Formula} (h : f.shape ≠ .neg) : f.negate = .neg f := by
  cases f with
  | neg g => exact absurd rfl h
  | _ => rfl

theorem negate_negate {f : Formula} (h : ∀ g, f ≠ .neg (.neg g)) : f.negate.negate = f := by
  cases f with
  | neg g =>
    have hg : g.shape ≠ .neg := by
      intro hs
      cases g with
      | neg k => exact h k rfl
      | _ => simp [shape] at hs
    simp [negate_eq_neg hg]
  | _ => rfl

/-- A conjunct that says something: neither missing nor the constant true. -/
def conjunct? : Option Formula → Option Formula
  | none => none
  | some .tru => none
  | some f => some f

def conjoin : Formula → List Formula → Formula
  | acc, [] => acc
  | acc, f :: fs => conjoin (.conj acc f) fs

/-- The left-nested conjunction of all conjuncts that say something; true if there are none. -/
def conjunction (fs : List (Option Formula)) : Formula :=
  match fs.filterMap conjunct? with
  | [] => .tru
  | f :: rest => conjoin f rest

@[simp] theorem conjunction_nil : conjunction [] = .tru := rfl

@[simp] theorem conjunction_none_cons (fs : List (Option Formula)) :
    conjunction (none :: fs) = conjunction fs := rfl

@[simp] theorem conjunction_tru_cons (fs : List (Option Formula)) :
    conjunction (some .tru :: fs) = conjunction fs := rfl

theorem conjoin_append (f : Formula) (fs gs : List Formula) :
    conjoin f (fs ++ gs) = conjoin (conjoin f fs) gs := by
  induction fs generalizing f with
  | nil => rfl
  | cons g fs ih => exact ih (.conj f g)

def bracket (needed : Bool) (text : String) : String :=
  if needed then "(" ++ text ++ ")" else text

/-- An operand is put in parentheses only below the other binary connective, a negated formula
only if it is a binary one. -/
def render : Formula → String
  | .tru => "1"
  | .fls => "0"
  | .var name => name
  | .neg f => "!" ++ bracket (f.shape = .conj ∨ f.shape = .disj) (render f)
  | .conj l r => bracket (l.shape = .disj) (render l) ++ " && " ++ bracket (r.shape = .disj) (render r)
  | .disj l r => bracket (l.shape = .conj) (render l) ++ " || " ++ bracket (r.shape = .conj) (render r)

def Shape.label : Shape → String
  | .tru => "True_"
  | .fls => "False_"
  | .var => "Variable"
  | .neg => "Negation"
  | .conj => "Conjunction"
  | .disj => "Disjunction"

def describe (f : Formula) : String := f.shape.label ++ "(" ++ f.render ++ ")"

end Formula
end Variability
