import Variability.Code.Block

set_option autoImplicit false

namespace Variability.Code

/-- A function with its presence condition and the blocks opened inside it: the outermost ones with
all that is nested in them, and all in the order of their directives. -/
structure Function where
  name : String
  lineStart : Int
  lineEnd : Int
  presence : Option Formula
  children : Forest
  blocks : List Block
  deriving DecidableEq, Repr

def Function.describe (f : Function) : String :=
  "CodeFunction(" ++ f.name ++ ", line " ++ toString f.lineStart ++ ")"

structure SourceFile where
  path : String
  sourcePath : String
  blocks : Forest
  functions : List Function
  deriving DecidableEq, Repr

def sourcePathOr (path : String) : Option String → String
  | none => path
  | some s => if s = "" then path else s

end Variability.Code
