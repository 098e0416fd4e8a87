import Variability.Analysis.Kind
import Variability.Analysis.Naming
import Variability.Given

set_option autoImplicit false

namespace Variability

def defaultList : String := "cppmetrics_input.txt"

structure Options where
  kind : Given Kind := .value .scattering
  allKinds : Bool := false
  list : String := defaultList
  single : Option (String × String) := none
  model : Given (Option String) := .value none
  threads : Given Int := .value 1
  bySource : Given Bool := .value false
  relative : Bool := false
  cache : Given (Option String) := .value none
  scope : Given Scope := .value .all
  unit : Given BlockUnit := .value .chain
  dependence : Given Dependence := .value .full
  deriving DecidableEq, Repr

namespace Options

def modelPath (o : Options) : Option String := o.model.get?.join.filter (· ≠ "")

def cachePath (o : Options) : Option String := o.cache.get?.join.filter (· ≠ "")

def naming (o : Options) : Naming := ⟨o.bySource = .value true, o.relative⟩

end Options

inductive Refusal where
  | usage
  | help
  | version
  | allKindsOfOneFile
  | tooFewThreads
  | valueless
  deriving DecidableEq, Repr

namespace Refusal

def messages : Refusal → List Message
  | .usage | .help | .valueless => []
  | .version => [.version]
  | .allKindsOfOneFile => [.allKindsOfOneFile]
  | .tooFewThreads => [.tooFewThreads]

end Refusal

/-- Choices that are possible alone but not together. -/
def Options.check (o : Options) : Except Refusal Options :=
  if o.allKinds ∧ o.single.isSome then .error .allKindsOfOneFile
  else
    match o.threads with
    | .nothing => .error .valueless
    | .value n => if n < 1 then .error .tooFewThreads else .ok o

end Variability
