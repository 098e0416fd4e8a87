import Variability.Formula

set_option autoImplicit false

namespace Variability.Code

inductive Branch where
  | first
  | further
  | last
  deriving DecidableEq, Repr

def Branch.label : Branch → String
  | .first => "IF"
  | .further => "ELSEIF"
  | .last => "ELSE"

/-- A block from its directive up to the next one of the same chain. Its own condition is missing
for `#else` and where the text gives none; its presence condition also tells what the enclosing
blocks and the earlier branches of its chain ask. The owner is the place of the innermost function
around its directive; it leads if the block around it belongs to no or another function. -/
structure Block where
  branch : Branch
  condition : Option Formula
  presence : Option Formula
  lineStart : Int
  lineEnd : Int
  owner : Option Nat := none
  leads : Bool := false
  deriving DecidableEq, Repr

def conditionText : Option Formula → String
  | none => "None"
  | some f => f.render

def Block.describe (b : Block) : String :=
  "CppBlock(" ++ b.branch.label ++ ", line " ++ toString b.lineStart ++ ", " ++
    conditionText b.presence ++ ")"

/-- The blocks of one level in order, each with those nested in it. -/
inductive Forest where
  | nil
  | block (head : Block) (children next : Forest)
  deriving DecidableEq, Repr, Inhabited

namespace Forest

/-- All blocks, a block before its nested ones and these before its later siblings. -/
def walk : Forest → List Block
  | .nil => []
  | .block b children next => b :: (walk children ++ walk next)

def size : Forest → Nat
  | .nil => 0
  | .block _ children next => 1 + size children + size next

def append : Forest → Forest → Forest
  | .nil, g => g
  | .block b children next, g => .block b children (append next g)

@[simp] theorem append_nil (f : Forest) : f.append .nil = f := by
  induction f with
  | nil => rfl
  | block b children next _ hn => simp [append, hn]

theorem append_assoc (f g h : Forest) : (f.append g).append h = f.append (g.append h) := by
  induction f with
  | nil => rfl
  | block b children next _ hn => simp [append, hn]

theorem walk_append (f g : Forest) : (f.append g).walk = f.walk ++ g.walk := by
  induction f with
  | nil => rfl
  | block b children next _ hn => simp [append, walk, hn]

/-- The blocks that satisfy `p` with all that is nested in them, in the order of the walk. -/
def pick (p : Block → Bool) : Forest → Forest
  | .nil => .nil
  | .block b children next =>
    if p b then .block b children ((pick p children).append (pick p next))
    else (pick p children).append (pick p next)

def snoc (f : Forest) (b : Block) (children : Forest) : Forest := f.append (.block b children .nil)

theorem walk_snoc (f : Forest) (b : Block) (children : Forest) :
    (f.snoc b children).walk = f.walk ++ b :: children.walk := by
  simp [snoc, walk_append, walk]

end Forest
end Variability.Code
