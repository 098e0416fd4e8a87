import Variability.Failure
import Variability.Text.Capital

set_option autoImplicit false

namespace Variability

class Setting (α : Type) where
  title : String
  noun : String
  /-- the members that are listed for a value that is none of them -/
  hint : List String := []
  members : List α
  label : α → String

namespace Setting

def labels (α : Type) [Setting α] : List String := (members : List α).map label

def find? (α : Type) [Setting α] (name : String) : Option α :=
  (members : List α).find? fun a => label a = name

def choose (α : Type) [Setting α] (name : String) : Except Failure α :=
  match find? α (Text.capitals name) with
  | some a => .ok a
  | none => .error (.setUp (.unsupported (title α) name (labels α)))

def require (α : Type) [Setting α] (name : String) : Except Failure α :=
  match find? α name with
  | some a => .ok a
  | none => .error (.setUp (.unsupported (noun α) name (hint α)))

end Setting

/-- Which variables of a function count: those of its blocks only, those of its presence condition,
or both. -/
inductive Scope where
  | inner
  | outer
  | all
  deriving DecidableEq, Repr

instance : Setting Scope where
  title := "VarType"
  noun := "variable type"
  hint := ["INTERNAL", "EXTERNAL", "ALL"]
  members := [.inner, .outer, .all]
  label
    | .inner => "INTERNAL"
    | .outer => "EXTERNAL"
    | .all => "ALL"

inductive Spread where
  | directives
  | files
  deriving DecidableEq, Repr

instance : Setting Spread where
  title := "SDType"
  noun := "scattering degree type"
  members := [.directives, .files]
  label
    | .directives => "VARIATION_POINT"
    | .files => "FILE"

/-- Whether a chain of branches is one block or each branch is one. -/
inductive BlockUnit where
  | chain
  | branch
  deriving DecidableEq, Repr

instance : Setting BlockUnit where
  title := "BlockMeasureType"
  noun := "block measure type"
  members := [.chain, .branch]
  label
    | .chain => "BLOCK_AS_ONE"
    | .branch => "SEPARATE_PARTIAL_BLOCKS"

inductive DepthSummary where
  | deepest
  | average
  deriving DecidableEq, Repr

instance : Setting DepthSummary where
  title := "NDType"
  noun := "nesting depth type"
  members := [.deepest, .average]
  label
    | .deepest => "VP_ND_MAX"
    | .average => "VP_ND_AVG"

/-- Whether a branch also depends on the negated conditions of the earlier ones of its chain. -/
inductive Dependence where
  | full
  | visible
  deriving DecidableEq, Repr

instance : Setting Dependence where
  title := "TDType"
  noun := "tangling degree type"
  members := [.full, .visible]
  label
    | .full => "TD_ALL"
    | .visible => "TD_NO_ELSE"

end Variability
